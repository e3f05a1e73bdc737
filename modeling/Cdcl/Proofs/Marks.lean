import Cdcl.Proofs.Resolving
import Mathlib.Logic.Relation

/-!
# Marks

Variables are marked while a conflict is analysed.  Besides that, the analysis makes variables
and clauses more active and tells what it does; each of its loops is a run of such ticks.  The
flags of the variables and the trail stay as they are, and a conflict of the root level leaves
no mark.

* `Tick`, `Ticks` — the single changes, and the runs of them that the loops are;
* `Ticks.kin`, `Ticks.retains` — what they leave alone;
* `settle_none`, `Walked.clear`, `resolve_none` — a conflict of the root level leaves no mark;
* `Listed`, `Listed.clear` — marks that are listed can be taken away;
* `Admissible` — what may stand in a learnt clause.
-/

namespace Cdcl.Solver

variable {s s' : Solver} {v : Var} {r r' : Resolvent} {others : List Lit} {id : ClauseId}

/-- If no variable is marked, all flags are cleared. -/
theorem isClear_of_unmarked (h : ∀ v, ¬s.Marked v) : Flags.isClear s.seen = true := by
  unfold Flags.isClear
  rw [Array.all_eq_true]
  intro i inside
  have read : s.seen.get ⟨i⟩ = .ok s.seen.cells[i] :=
    DenseMap.get_eq_ok.mpr (Array.getElem?_eq_getElem inside)
  have unset : s.seen.cells[i] ≠ true := fun set => h ⟨i⟩ (read.trans (congrArg _ set))
  simpa using unset

/-- The flags of the variables and the trail have stayed as they are. -/
structure Retains (s s' : Solver) : Prop where
  info : s'.info = s.info
  trail : s'.net.trail = s.net.trail

namespace Retains

theorem refl (s : Solver) : s.Retains s := ⟨rfl, rfl⟩

theorem trans {s₁ s₂ : Solver} (h₁ : s.Retains s₁) (h₂ : s₁.Retains s₂) : s.Retains s₂ :=
  ⟨h₂.info.trans h₁.info, h₂.trail.trans h₁.trail⟩

theorem symm (h : s.Retains s') : s'.Retains s := ⟨h.info.symm, h.trail.symm⟩

end Retains

theorem log_retains (s : Solver) (m : Message) : s.Retains (s.log m) := ⟨rfl, rfl⟩

theorem countUse_retains (h : s.countUse id = .ok s') : s.Retains s' := by
  refine ⟨?_, (countUse_eq_ok h).1.net.trail⟩
  obtain ⟨c, -, h⟩ := bind_eq_ok.mp h
  split at h
  · obtain ⟨net, -, rfl⟩ := updateNet_eq_ok.mp h
    rfl
  · cases h
    rfl

/-! ## Single changes -/

/-- A single change that an analysis makes, apart from counting. -/
inductive Tick (s : Solver) : Solver → Prop
  | mark {s' : Solver} {v : Var} : s.mark v = .ok s' → Tick s s'
  | unmark {s' : Solver} {v : Var} : s.unmark v = .ok s' → Tick s s'
  /-- A variable becomes more active. -/
  | bump {s' : Solver} {v : Var} : s.updateOrder (·.bump v) = .ok s' → Tick s s'
  /-- A clause becomes more active, if it is learnt. -/
  | use {s' : Solver} {id : ClauseId} : s.countUse id = .ok s' → Tick s s'
  /-- Anything but a lesson is told. -/
  | tell {m : Message} : m.lesson? = none → Tick s (s.log m)

/-- Any number of them. -/
abbrev Ticks : Solver → Solver → Prop := Relation.ReflTransGen Tick

/-- A tick changes nothing that the invariant looks at. -/
theorem Tick.kin (t : s.Tick s') : s.Kin s' := by
  cases t with
  | mark h => exact (mark_eq_ok h).1
  | unmark h => exact (unmark_eq_ok h).1
  | bump h => exact (bump_eq_ok h).1
  | use h => exact (countUse_eq_ok h).1
  | tell silent => exact kin_log silent _

/-- A tick leaves the reliable variables and the trail alone. -/
theorem Tick.retains (t : s.Tick s') : s.Retains s' := by
  cases t with
  | mark h =>
      obtain ⟨_, -, h⟩ := bind_eq_ok.mp h
      cases h
      exact ⟨rfl, rfl⟩
  | unmark h =>
      obtain ⟨_, -, h⟩ := bind_eq_ok.mp h
      cases h
      exact ⟨rfl, rfl⟩
  | bump h =>
      obtain ⟨_, -, rfl⟩ := updateOrder_eq_ok.mp h
      exact ⟨rfl, rfl⟩
  | use h => exact countUse_retains h
  | tell _ => exact log_retains s _

namespace Ticks

theorem kin (t : s.Ticks s') : s.Kin s' := by
  induction t with
  | refl => exact .refl s
  | tail _ tick ih => exact ih.trans tick.kin

theorem retains (t : s.Ticks s') : s.Retains s' := by
  induction t with
  | refl => exact .refl s
  | tail _ tick ih => exact ih.trans tick.retains

end Ticks

/-- Taking the literals of a clause in marks and bumps their variables. -/
theorem absorb_ticks {qs : List Lit} (h : s.absorb r qs = .ok (s', r')) : s.Ticks s' := by
  induction qs generalizing s r with
  | nil =>
      cases h
      exact .refl
  | cons q qs ih =>
      obtain ⟨level, -, h⟩ := bind_eq_ok.mp h
      obtain ⟨_, -, h⟩ := bind_eq_ok.mp h
      obtain ⟨seen, -, h⟩ := bind_eq_ok.mp h
      split at h
      · obtain ⟨s₁, bumped, h⟩ := bind_eq_ok.mp h
        obtain ⟨s₂, marked, h⟩ := bind_eq_ok.mp h
        split at h
        · exact .head (.bump bumped) (.head (.mark marked) (ih h))
        · exact .head (.bump bumped) (.head (.mark marked) (ih h))
      · exact ih h

/-- Finding the level to go on at changes nothing, but may be told. -/
theorem settle_ticks {next : Option Resolvent} (h : s.settle r = .ok (s', next)) :
    s.Ticks s' := by
  unfold settle at h
  split at h
  · cases h
    exact .refl
  · obtain ⟨level, -, h⟩ := bind_eq_ok.mp h
    split at h
    · obtain ⟨_, -, h⟩ := bind_eq_ok.mp h
      cases h
      exact .single (.tell rfl)
    · obtain ⟨⟨n, others⟩, -, h⟩ := bind_eq_ok.mp h
      cases h
      exact .single (.tell rfl)

/-- Looking at a reason counts a use of its clause. -/
theorem explain_ticks {p : Lit} {pending : Nat} {why : Reason} {lits : List Lit}
    (h : s.explain p pending why = .ok (s', lits)) : s.Ticks s' := by
  cases why with
  | decision => cases h
  | binary a =>
      cases h
      exact .refl
  | ternary a b =>
      cases h
      exact .refl
  | clause id =>
      obtain ⟨s₁, counted, h⟩ := bind_eq_ok.mp h
      obtain ⟨c, -, h⟩ := bind_eq_ok.mp h
      obtain ⟨_, -, h⟩ := bind_eq_ok.mp h
      cases h
      exact .single (.use counted)

/-- One turn of the walk. -/
theorem Turn.ticks {p : Lit} {next : Option Resolvent} (turn : Turn s r p s' next) :
    s.Ticks s' := by
  obtain @⟨_, _, s₁, _, _, pending, _, _, -, unmarked, -, -, -, explained, absorbed, settled⟩ := turn
  have told : s₁.Ticks (if pending = 0 then s₁.log (.skipUnreliable p) else s₁) := by
    split
    · exact .single (.tell rfl)
    · exact .refl
  exact .head (.unmark unmarked) (((told.trans (explain_ticks explained)).trans
    (absorb_ticks absorbed)).trans (settle_ticks settled))

/-- By induction over the turns of the walk. -/
theorem Walked.ticks {ps : List Lit} {result : Option (Lit × List Lit)}
    (h : Walked s r ps s' result) : s.Ticks s' := by
  induction h with
  | pass _ _ ih => exact ih
  | stop _ _ unmarked => exact .single (.unmark unmarked)
  | root _ turn => exact turn.ticks
  | on _ turn _ ih => exact turn.ticks.trans ih

/-- The whole walk, from the clause that is false. -/
theorem resolve_ticks {result : Option (Lit × List Lit)} (h : s.resolve id = .ok (s', result)) :
    s.Ticks s' := by
  obtain ⟨s₁, counted, h⟩ := bind_eq_ok.mp h
  obtain ⟨c, -, h⟩ := bind_eq_ok.mp h
  obtain ⟨⟨s₂, r₂⟩, absorbed, h⟩ := bind_eq_ok.mp h
  obtain ⟨⟨s₃, next⟩, settled, h⟩ := bind_eq_ok.mp h
  have first := Relation.ReflTransGen.head (Tick.use counted)
    ((absorb_ticks absorbed).trans (settle_ticks settled))
  cases next with
  | none =>
      cases h
      exact first
  | some r₃ => exact first.trans (walked_of_ok h).ticks

theorem clearMarks_ticks {ls : List Lit} (h : s.clearMarks ls = .ok s') : s.Ticks s' := by
  induction ls generalizing s with
  | nil =>
      cases h
      exact .refl
  | cons l ls ih =>
      obtain ⟨s₁, unmarked, h⟩ := bind_eq_ok.mp h
      exact .head (.unmark unmarked) (ih h)

/-! ## Conflicts of the root level -/

/-- A conflict of the root level has no marks to be taken away, as the analysis tests. -/
theorem settle_none (h : s.settle r = .ok (s', none)) : Flags.isClear s'.seen = true := by
  unfold settle at h
  split at h
  next => cases h
  next =>
    obtain ⟨k, -, h⟩ := bind_eq_ok.mp h
    split at h
    next =>
      obtain ⟨_, clear, h⟩ := bind_eq_ok.mp h
      cases h
      exact ensure_eq_ok.mp clear
    next =>
      obtain ⟨_, -, h⟩ := bind_eq_ok.mp h
      cases h

/-- A walk that ends without a literal leaves no mark. -/
theorem Walked.clear {ps : List Lit} {result : Option (Lit × List Lit)}
    (h : Walked s r ps s' result) (none_ : result = none) : Flags.isClear s'.seen = true := by
  induction h with
  | pass _ _ ih => exact ih none_
  | stop => cases none_
  | root _ turn =>
      obtain ⟨-, -, -, -, -, -, -, settled⟩ := turn
      exact settle_none settled
  | on _ _ _ ih => exact ih none_

theorem resolve_none (h : s.resolve id = .ok (s', none)) : Flags.isClear s'.seen = true := by
  obtain ⟨s₁, -, h⟩ := bind_eq_ok.mp h
  obtain ⟨c, -, h⟩ := bind_eq_ok.mp h
  obtain ⟨⟨s₂, r₂⟩, -, h⟩ := bind_eq_ok.mp h
  obtain ⟨⟨s₃, next⟩, settled, h⟩ := bind_eq_ok.mp h
  cases next with
  | none =>
      cases h
      exact settle_none settled
  | some r₃ => exact (walked_of_ok h).clear rfl

/-! ## Marks that are listed -/

/-- The number of variables without a mark. -/
def unmarked (s : Solver) : Nat := s.seen.cells.toList.count false

/-- A mark leaves one variable less to be marked. -/
theorem unmarked_mark (read : s.seen.get v = .ok false) (h : s.mark v = .ok s') :
    s'.unmarked + 1 = s.unmarked := by
  obtain ⟨seen, written, h⟩ := bind_eq_ok.mp h
  cases h
  rw [DenseMap.get_eq_ok] at read
  obtain ⟨low, rfl⟩ := DenseMap.set_eq_ok.mp written
  have low : v.index < s.seen.cells.toList.length := low
  have there : s.seen.cells.toList[v.index]? = some false := by
    rw [Array.getElem?_toList]
    exact read
  have here : s.seen.cells.toList[v.index] = false := by
    rw [List.getElem?_eq_getElem low] at there
    exact Option.some.inj there
  have positive : 0 < s.unmarked := List.count_pos_iff.mpr (List.mem_of_getElem? there)
  unfold unmarked at positive ⊢
  rw [Array.toList_setIfInBounds, Var.toIndex_eq, List.count_set low, here]
  change _ - 1 + 0 + 1 = _
  omega

/-- The marked variables are those of the listed literals. -/
def Listed (s : Solver) (marked : List Lit) : Prop := ∀ v, s.Marked v ↔ ∃ l ∈ marked, l.var = v

theorem Listed.append {marked new : List Lit} (h : s.Listed marked)
    (marks : ∀ v, s'.Marked v ↔ s.Marked v ∨ ∃ l ∈ new, l.var = v) :
    s'.Listed (marked ++ new) := by
  intro v
  rw [marks, h v]
  simp only [List.mem_append, or_and_right, exists_or]

/-- The marks of the given literals go, and no others come. -/
theorem clearMarks_marks {ls : List Lit} (h : s.clearMarks ls = .ok s') :
    ∀ u, s'.Marked u → s.Marked u ∧ ∀ l ∈ ls, l.var ≠ u := by
  induction ls generalizing s with
  | nil =>
      cases h
      exact fun u yes => ⟨yes, by simp⟩
  | cons l ls ih =>
      obtain ⟨s₁, unmarked, h⟩ := bind_eq_ok.mp h
      intro u yes
      obtain ⟨still, away⟩ := ih h u yes
      obtain ⟨ne, before⟩ := ((unmark_eq_ok unmarked).2 u).mp still
      refine ⟨before, fun l' hl => ?_⟩
      rcases List.mem_cons.mp hl with rfl | later
      · exact Ne.symm ne
      · exact away l' later

/-- Clearing the marks of all listed literals leaves none. -/
theorem Listed.clear (h : s.Listed others) (cleared : s.clearMarks others = .ok s') :
    Flags.isClear s'.seen = true := by
  refine isClear_of_unmarked fun v yes => ?_
  obtain ⟨still, away⟩ := clearMarks_marks cleared v yes
  obtain ⟨l, hl, same⟩ := (h v).mp still
  exact away l hl same

/-! ## What may be learnt -/

/-- The variable of the literal is reliable or was decided, so the literal may stand in a
learnt clause. -/
def Admissible (s : Solver) (l : Lit) : Prop :=
  ∃ reliable why, s.isReliable l.var = .ok reliable ∧ s.net.trail.reasonOf l.var = .ok why ∧
    (reliable || Decidable.decide (why = .decision)) = true

/-- A literal that is admissible is reliable or a decision. -/
theorem Admissible.cases {l : Lit} (h : s.Admissible l) :
    s.isReliable l.var = .ok true ∨ s.net.trail.reasonOf l.var = .ok .decision := by
  obtain ⟨reliable, why, tested, reasonOf, fine⟩ := h
  rw [Bool.or_eq_true, decide_eq_true_eq] at fine
  rcases fine with rfl | rfl
  · exact .inl tested
  · exact .inr reasonOf

theorem Retains.admissible {l : Lit} (k : s.Retains s') (h : s.Admissible l) :
    s'.Admissible l := by
  unfold Admissible isReliable at h ⊢
  rw [k.info, k.trail]
  exact h

/-- The test of a lesson succeeds on admissible literals. -/
theorem allAdmissible_of {ls : List Lit} (h : ∀ l ∈ ls, s.Admissible l) :
    s.allAdmissible ls = .ok true := by
  induction ls with
  | nil => rfl
  | cons l ls ih =>
      obtain ⟨reliable, why, tested, reasonOf, fine⟩ := h l List.mem_cons_self
      refine bind_eq_ok.mpr ⟨reliable, tested, bind_eq_ok.mpr ⟨why, reasonOf, ?_⟩⟩
      rw [if_pos fine]
      exact ih fun l' hl => h l' (List.mem_cons_of_mem l hl)

end Cdcl.Solver
