import Mathlib.Data.List.Sort
import Cdcl.Proofs.Calls

/-!
# Rehearsing with clauses

The sort of the model is a merge sort, which does not evaluate in proofs.  Literals are
ordered by codes that tell them apart, so any sort comes to the same: `Solver.play` carries
a call out with insertion sorts.

For learnt clauses that tie any order is allowed, so `Outside.inserting` takes them in that
of an insertion sort.

* `play_eq` — it is the same as `perform`;
* `exists_played` — states that are reached by calls that add clauses.
-/

namespace Cdcl

/-- The order of literals. -/
def Lit.Le (a b : Lit) : Prop := a.code ≤ b.code

instance : DecidableRel Lit.Le := fun a b => inferInstanceAs (Decidable (a.code ≤ b.code))

instance : Std.Antisymm Lit.Le := ⟨fun _ _ le ge => Lit.code_inj (Nat.le_antisymm le ge)⟩

instance : Std.Total Lit.Le := ⟨fun a b => Nat.le_total a.code b.code⟩

instance : IsTrans Lit Lit.Le := ⟨fun _ _ _ => Nat.le_trans⟩

/-- Any way of sorting literals comes to the same, as different ones have different codes. -/
theorem Lit.sort_eq_insertionSort (lits : List Lit) : Lit.sort lits = lits.insertionSort Lit.Le :=
  List.mergeSort_eq_insertionSort Lit.Le lits

/-- Candidates come out in the order of an insertion sort. -/
def Outside.inserting : Outside where
  arrange cs := cs.insertionSort fun a b => a.le b = true
  arrange_perm cs := cs.perm_insertionSort _

namespace Solver

variable {fuel : Nat} {s s' : Solver} {c : Call}

/-- Adds a clause at the root level, with its literals sorted. -/
def addSorted (s : Solver) (sorted : List Lit) : Except Fault (Solver × Bool × List Lit) := do
  match ← normalize s.net.trail sorted with
  | .satisfied kept => return (s, true, kept ++ sorted.drop kept.length)
  | .clause [] => return ({ s with ok := false }, false, [])
  | .clause [l] =>
      let (s, answer) ← s.assertUnit l
      return (s, answer, [l])
  | .clause lits =>
      let (net, _) ← s.net.addClause lits false
      return ({ s with net }, true, lits)

/-- Adding a clause at the root level can be rehearsed. -/
theorem addAtRoot_eq (s : Solver) (lits : List Lit) :
    s.addAtRoot lits = s.addSorted (lits.insertionSort Lit.Le) := by
  rw [← Lit.sort_eq_insertionSort]
  rfl

/-- The order in which literals are watched. -/
def Ranked.Le (a b : Ranked) : Prop := a.le b = true

instance : DecidableRel Ranked.Le := fun a b => inferInstanceAs (Decidable (a.le b = true))

instance : Std.Total Ranked.Le := ⟨fun a b => Bool.or_eq_true _ _ ▸ Ranked.le_total a b⟩

instance : IsTrans Ranked Ranked.Le := ⟨Ranked.le_trans⟩

/-- Puts the literals to be watched first, with a sort that evaluates. -/
def arrangeSorted (t : Trail) (lits : List Lit) : Except Fault (List Ranked) := do
  return (← lits.mapM (rank t)).insertionSort Ranked.Le

/-- Arranging literals can be rehearsed, as equal ones are equally ranked. -/
theorem arrange_eq (t : Trail) (lits : List Lit) : arrange t lits = arrangeSorted t lits := by
  unfold arrange arrangeSorted
  cases ranked : lits.mapM (rank t) with
  | error => rfl
  | ok rs =>
      refine congrArg Except.ok ?_
      have merged := List.mergeSort_perm rs Ranked.le
      have inserted := List.perm_insertionSort Ranked.Le rs
      refine (merged.trans inserted.symm).eq_of_pairwise (fun a b ha hb le ge => ?_)
        (List.pairwise_mergeSort Ranked.le_trans Ranked.le_total rs)
        (List.pairwise_insertionSort Ranked.Le rs)
      -- two of them that tie are of the same literal, and are ranked alike
      obtain ⟨l, -, first⟩ := mapM_mem_right ranked (merged.mem_iff.mp ha)
      obtain ⟨m, -, second⟩ := mapM_mem_right ranked (inserted.mem_iff.mp hb)
      have code : a.lit.code = b.lit.code := by
        rw [Ranked.le_iff] at le ge
        rcases le with ⟨a₀, le⟩ | ⟨a₁, b₁, le⟩
        · rcases ge with ⟨b₀, ge⟩ | ⟨-, a₁, -⟩
          · exact Nat.le_antisymm (le.resolve_left (absurd b₀)) (ge.resolve_left (absurd a₀))
          · exact absurd a₀ a₁
        · rcases ge with ⟨b₀, -⟩ | ⟨-, -, ge⟩
          · exact absurd b₀ b₁
          · omega
      have same : m = l := by
        rw [← (rank_eq_ok first).1, ← (rank_eq_ok second).1]
        exact (Lit.code_inj code).symm
      subst same
      exact Except.ok.inj (first.symm.trans second)

/-- Adds a clause above the root level, with its literals sorted. -/
def addSortedAbove (s : Solver) (sorted : List Lit) :
    Except Fault (Solver × Bool × List Lit) := do
  match ← normalize s.net.trail sorted with
  | .satisfied kept => return (s, true, kept ++ sorted.drop kept.length)
  | .clause [] => return ({ s with ok := false }, false, [])
  | .clause [l] =>
      let s ← s.cancelUntil 0
      let (s, answer) ← s.assertUnit l
      return (s, answer, [l])
  | .clause lits =>
      match ← arrangeSorted s.net.trail lits with
      | a :: b :: rest =>
          let lits := (a :: b :: rest).map (·.lit)
          return (← s.insertArranged a b lits, true, lits)
      | _ => throw .outOfRange

/-- Adding a clause above the root level can be rehearsed. -/
theorem addAboveRoot_eq (s : Solver) (lits : List Lit) :
    s.addAboveRoot lits = s.addSortedAbove (lits.insertionSort Lit.Le) := by
  have same : arrangeSorted = arrange := funext fun t => funext fun ls => (arrange_eq t ls).symm
  unfold addSortedAbove
  rw [← Lit.sort_eq_insertionSort, same]
  rfl

/-- Adds a clause, with sorts that evaluate. -/
def addInOrder (s : Solver) (lits : List Lit) : Except Fault (Solver × Bool × List Lit) := do
  if !s.ok then
    return (s, false, lits)
  if s.level = 0 then
    (s.log (.addAtRoot lits)).addSorted (lits.insertionSort Lit.Le)
  else
    (s.log (.addAtLevel lits s.level)).addSortedAbove (lits.insertionSort Lit.Le)

/-- Adding a clause at any level can be rehearsed. -/
theorem addClauseReporting_eq (s : Solver) (lits : List Lit) :
    s.addClauseReporting lits = s.addInOrder lits := by
  unfold addClauseReporting addInOrder
  simp only [addAtRoot_eq, addAboveRoot_eq]

theorem addClause_eq_ok {s' : Solver} {lits left : List Lit} {b : Bool}
    (h : s.addInOrder lits = .ok (s', b, left)) : s.addClause lits = .ok (s', b) := by
  unfold addClause
  rw [addClauseReporting_eq, h]
  rfl

/-- The literals behind the second place of a clause that is to be stored so that it implies
its first literal, found with sorts that evaluate. -/
def behindInOrder (s : Solver) (d : List Lit) : List Ranked :=
  match normalize s.net.trail (d.insertionSort Lit.Le) with
  | .ok (.clause c) =>
      match arrangeSorted s.net.trail c with
      | .ok (a :: b :: rest) =>
          match Retreat.of a b with
          | .assertAt _ => rest
          | _ => []
      | _ => []
  | _ => []

/-- The literals behind an implied one are found in the rehearsal. -/
theorem behindImplied_eq (s : Solver) (d : List Lit) : s.behindImplied d = s.behindInOrder d := by
  have same : arrangeSorted = arrange := funext fun t => funext fun ls => (arrange_eq t ls).symm
  unfold behindInOrder
  rw [← Lit.sort_eq_insertionSort, same]
  rfl

instance (s : Solver) (d : List Lit) : Decidable (s.AssertsRightly d) :=
  decidable_of_iff (∀ r ∈ s.behindInOrder d, r.value ≠ .holds)
    (by rw [AssertsRightly, behindImplied_eq])

/-- Carries a call out, with sorts that evaluate. -/
def play (fuel : Nat) (s : Solver) : Call → Except Fault (Solver × Reply)
  | .addClause lits => do
      let (s, answer, left) ← s.addInOrder lits
      return (s, .clause answer left)
  | c => s.perform fuel c

/-- A call that has been played has been carried out. -/
theorem play_eq : s.play fuel c = s.perform fuel c := by
  cases c with
  | addClause lits => rw [play, perform, addClauseReporting_eq]
  | _ => rfl

/-- Carries calls out one after the other, with a sort that evaluates. -/
def playThrough (fuel : Nat) (s : Solver) : List Call → Except Fault (Solver × List Reply)
  | [] => .ok (s, [])
  | c :: cs => do
      let (s, reply) ← s.play fuel c
      let (s, replies) ← playThrough fuel s cs
      return (s, reply :: replies)

/-- So have calls that have been played one after the other. -/
theorem playThrough_eq {calls : List Call} : s.playThrough fuel calls = s.performAll fuel calls := by
  induction calls generalizing s with
  | nil => rfl
  | cons c cs ih =>
      unfold playThrough performAll
      simp only [play_eq, ih]

/-- The state that calls on a fresh solver lead to, if each of them is allowed. -/
def playAll (allowed : Solver → Call → Prop) [∀ s c, Decidable (allowed s c)] (s : Solver) :
    List Call → Option Solver
  | [] => some s
  | c :: cs =>
      if allowed s c then
        match s.play 0 c with
        | .ok (s, _) => playAll allowed s cs
        | .error _ => none
      else
        none

variable {options : Options} {allowed : Solver → Call → Prop} [∀ s c, Decidable (allowed s c)]
  {calls : List Call}

/-- Calls that have been played make a run longer. -/
theorem Reaches.playAll {cs : List Call} (run : Reaches options allowed calls s)
    (played : s.playAll allowed cs = some s') : Reaches options allowed (calls ++ cs) s' := by
  induction cs generalizing calls s with
  | nil =>
      cases played
      rwa [List.append_nil]
  | cons c cs ih =>
      unfold Solver.playAll at played
      split at played
      next fine =>
        split at played
        next s₁ reply performed =>
          have longer := ih (run.call fine (play_eq.symm.trans performed)) played
          rwa [List.append_assoc] at longer
        next => cases played
      next => cases played

theorem eq_ok_of_toOption {α : Type} {x : Except Fault α} {a : α} (h : a ∈ x.toOption) :
    x = .ok a := by
  cases x with
  | error => cases h
  | ok => cases h; rfl

/-- A state that has been found by playing calls is reached by them. -/
theorem exists_played {outside : Outside} {p : Solver → Prop}
    (found : ∃ s ∈ (create options false none outside).toOption,
      ∃ s' ∈ s.playAll allowed calls, p s') :
    ∃ s, Reaches options allowed calls s ∧ p s := by
  obtain ⟨s, created, s', played, good⟩ := found
  have fresh : Reaches options allowed [] s := .fresh (eq_ok_of_toOption created)
  exact ⟨s', fresh.playAll played, good⟩

end Solver

end Cdcl
