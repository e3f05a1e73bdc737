import Cdcl.Proofs.Heap.Ordering
import Cdcl.Proofs.Heap.Requests
import Mathlib.Order.RelClasses

/-!
# Heaps as priority queues

Each request now comes with a comparison that decides a strict weak order.  From one request
to the next the order may change for one key only, which is then asked to rise; the order
of keys that are not in the heap is free, and so is the one with which a heap is built anew.
Then the heap is in order after each request, and popping answers with a key that is first.

* `Request.Keeps`, `Serves` — how the order may change, and the requests with their orders;
* `ordered_serve` — one request, and `Serves.ordered` — many;
* `popAll_sorted` — popping until no key is left;
* `Serves.takes_first` — what the heap answers, after any requests.
-/

namespace Cdcl.Heap

variable {κ : Type}

/-- How the order may change before a request to a heap that has the keys of `l`. -/
def Request.Keeps (lt lt' : κ → κ → Prop) (l : List κ) : Request κ → Prop
  | .insert _ | .pop => ∀ a ∈ l, ∀ b ∈ l, lt' a b ↔ lt a b
  | .rise k => Raises lt lt' (· ∈ l) k
  | .build _ => True

/-- The heap after requests with the given answers, and the order that the last comparison
decided. -/
inductive Serves [DenseKey κ] [DecidableEq κ] :
    (κ → κ → Prop) → List (Request κ × Option κ) → Heap κ → Prop
  | empty {lt : κ → κ → Prop} : IsStrictWeakOrder κ lt → Serves lt [] .empty
  | serve {lt lt' : κ → κ → Prop} {past : List (Request κ × Option κ)} {h h' : Heap κ}
      {r : Request κ} {answer : Option κ} {less : Less κ} : Serves lt past h →
      IsStrictWeakOrder κ lt' → r.Legal (remaining past) → r.Keeps lt lt' (remaining past) →
      Decides less lt' (· ∈ r.pool (remaining past)) → r.serve less h = .ok (h', answer) →
      Serves lt' ((r, answer) :: past) h'

variable [DenseKey κ] [DecidableEq κ] {lt lt' : κ → κ → Prop} {less : Less κ} {h h' : Heap κ}
  {l : List κ} {r : Request κ} {answer : Option κ} {m : κ → Prop}
  {past : List (Request κ × Option κ)}

namespace Serves

/-- What is known of requests under any comparisons is known of a heap that serves. -/
theorem runs (run : Serves lt past h) : Runs past h := by
  induction run with
  | empty => exact .empty
  | @serve _ _ _ _ _ _ _ less _ _ legal _ _ served ih => exact .serve less ih legal served

theorem isStrictWeakOrder (run : Serves lt past h) : IsStrictWeakOrder κ lt := by
  cases run with
  | empty weak => exact weak
  | serve _ weak => exact weak

end Serves

omit [DecidableEq κ] in
/-- A heap is in order for any order that agrees on its keys. -/
theorem Ordered.congr (o : h.Ordered lt) (w : h.Holds (· ∈ l))
    (agree : ∀ a ∈ l, ∀ b ∈ l, lt' a b ↔ lt a b) : h.Ordered lt' := by
  intro i a b low readA readB above
  have memA : a ∈ l := w.mem_of_key readA
  have memB : b ∈ l := w.mem_of_key readB
  exact o i a b low readA readB ((agree a memA b memB).mp above)

variable [LawfulKey κ]

/-- A request leaves the heap in order. -/
theorem ordered_serve [IsStrictWeakOrder κ lt] [IsStrictWeakOrder κ lt']
    (w : h.Holds (· ∈ l)) (legal : r.Legal l) (keeps : r.Keeps lt lt' l)
    (d : Decides less lt' (· ∈ r.pool l)) (o : h.Ordered lt)
    (served : r.serve less h = .ok (h', answer)) : h'.Ordered lt' := by
  cases r with
  | insert k =>
      obtain ⟨h₁, inserted, done⟩ := bind_eq_ok.mp served
      cases done
      have d' : Decides less lt' fun k' => k' = k ∨ k' ∈ l := by
        simpa only [Request.pool, List.mem_cons] using d
      exact ordered_insert w d' (o.congr w keeps) inserted
  | rise k =>
      obtain ⟨h₁, risen, done⟩ := bind_eq_ok.mp served
      cases done
      exact ordered_rise w d keeps o risen
  | pop => exact (ordered_pop w d (o.congr w keeps) served).1
  | build ks =>
      obtain ⟨h₁, built, done⟩ := bind_eq_ok.mp served
      cases done
      exact ordered_build w legal d built

/-- The heap is in order after each request, even as the order changes. -/
theorem Serves.ordered (run : Serves lt past h) : h.Ordered lt := by
  induction run with
  | empty => exact fun i a b _ readA => nomatch readA
  | serve run _ legal keeps d served ih =>
      have := run.isStrictWeakOrder
      exact ordered_serve run.runs.holds legal keeps d ih served

omit [DenseKey κ] [DecidableEq κ] [LawfulKey κ] in
theorem isEmpty_iff : h.isEmpty = true ↔ h.keys = #[] := Array.isEmpty_iff

/-- Popping answers with a key if there is one, and no key belongs strictly above it. -/
theorem exists_pop [IsStrictWeakOrder κ lt] (w : h.Holds (· ∈ l)) (d : Decides less lt (· ∈ l))
    (o : h.Ordered lt) : ∃ h' top, h.pop less = .ok (h', top) ∧ (top = none ↔ h.isEmpty = true) ∧
      ∀ k, top = some k → k ∈ l ∧ ∀ k' ∈ l, ¬lt k' k := by
  obtain ⟨⟨h', top⟩, done⟩ := (failsOnly_pop w d.answers).exists_ok
  refine ⟨h', top, done, ?_, fun k same => ⟨?_, fun k' mem => ?_⟩⟩
  · rw [isEmpty_iff]
    rcases w.pop_cases done with ⟨vacant, -, rfl⟩ | ⟨k, -, rfl, first, -⟩
    · exact iff_of_true rfl vacant
    · refine iff_of_false nofun fun vacant => ?_
      simp [vacant] at first
  · exact ((holds_pop w done).1 k same).1
  · exact (ordered_pop w d o done).2 k k' same mem

/-- Popping until no key is left takes each key out once, the first ones first. -/
theorem popAll_sorted [IsStrictWeakOrder κ lt] {n : Nat} (w : h.Holds (· ∈ l)) (once : l.Nodup)
    (d : Decides less lt (· ∈ l)) (o : h.Ordered lt) (enough : h.size ≤ n) :
    ∃ h' ks, h.popAll less n = .ok (h', ks) ∧ h'.isEmpty = true ∧ ks.Perm l ∧
      ks.Pairwise fun a b => ¬lt b a := by
  have perm := w.keys_perm once
  induction n generalizing h l with
  | zero =>
      have vacant : h.keys = #[] := Array.eq_empty_of_size_eq_zero (Nat.le_zero.mp enough)
      rw [vacant] at perm
      exact ⟨h, [], rfl, isEmpty_iff.mpr vacant, perm, .nil⟩
  | succ n ih =>
      obtain ⟨h₁, top, done, emptied, first⟩ := exists_pop w d o
      cases top with
      | none =>
          obtain ⟨rfl, -⟩ := (holds_pop w done).2 rfl
          have vacant := isEmpty_iff.mp (emptied.mp rfl)
          rw [vacant] at perm
          exact ⟨h₁, [], bind_eq_ok.mpr ⟨_, done, rfl⟩, emptied.mp rfl, perm, .nil⟩
      | some k =>
          obtain ⟨mem, least⟩ := first k rfl
          obtain ⟨-, holds, smaller⟩ := (holds_pop w done).1 k rfl
          have w₁ : h₁.Holds (· ∈ l.erase k) := holds.congr fun k' => by
            rw [once.mem_erase_iff, and_comm]
          have d₁ : Decides less lt (· ∈ l.erase k) := d.mono fun _ => List.mem_of_mem_erase
          have fewer : h₁.size ≤ n := Nat.le_of_lt_succ (Nat.lt_of_lt_of_le smaller enough)
          obtain ⟨h', ks, all, vacant, taken, sorted⟩ := ih w₁ (once.erase k) d₁
            (ordered_pop w d o done).1 fewer (w₁.keys_perm (once.erase k))
          refine ⟨h', k :: ks, ?_, vacant, ?_, List.pairwise_cons.mpr ⟨fun b later => ?_, sorted⟩⟩
          · exact bind_eq_ok.mpr ⟨_, done, bind_eq_ok.mpr ⟨_, all, rfl⟩⟩
          · exact (taken.cons k).trans (List.perm_cons_erase mem).symm
          · exact least b (List.mem_of_mem_erase (taken.mem_iff.mp later))

/-- After any requests whose comparisons decide strict weak orders, where the order changes
for a key that rises only, no key belongs strictly above the one over it.  The next such
request succeeds.  Popping answers with no key if and only if the heap has none, and
otherwise with a key than which no key is strictly higher.  Popping until no key is left
gives each key inserted or built and not taken out since, each of them once, and none after
one that it belongs strictly above. -/
theorem Serves.takes_first (run : Serves lt past h) :
    h.Ordered lt ∧ h.keys.toList.Perm (remaining past) ∧
      (∀ (lt' : κ → κ → Prop) (less : Less κ) (r : Request κ), IsStrictWeakOrder κ lt' →
        r.Legal (remaining past) → r.Keeps lt lt' (remaining past) →
        Decides less lt' (· ∈ r.pool (remaining past)) →
        ∃ h' answer, r.serve less h = .ok (h', answer) ∧ h'.Ordered lt') ∧
      ∀ less : Less κ, Decides less lt (· ∈ remaining past) →
        (∃ h' top, h.pop less = .ok (h', top) ∧ (top = none ↔ h.isEmpty = true) ∧
          ∀ k, top = some k → k ∈ remaining past ∧ ∀ k' ∈ remaining past, ¬lt k' k) ∧
        ∀ n, h.size ≤ n → ∃ h' ks, h.popAll less n = .ok (h', ks) ∧ h'.isEmpty = true ∧
          ks.Nodup ∧ ks.Perm (remaining past) ∧ ks.Pairwise fun a b => ¬lt b a := by
  have weak := run.isStrictWeakOrder
  have w := run.runs.holds
  have once := run.runs.nodup_remaining
  refine ⟨run.ordered, w.keys_perm once, ?_,
    fun less d => ⟨exists_pop w d run.ordered, fun n enough => ?_⟩⟩
  · intro lt' less r _ legal keeps d
    obtain ⟨⟨h', answer⟩, served⟩ := (failsOnly_serve w legal d.answers).exists_ok
    exact ⟨h', answer, served, ordered_serve w legal keeps d run.ordered served⟩
  · obtain ⟨h', ks, done, vacant, taken, sorted⟩ := popAll_sorted w once d run.ordered enough
    exact ⟨h', ks, done, vacant, taken.nodup_iff.mpr once, taken, sorted⟩

/-- The first key has the greater rank. -/
def Outranks (rank : κ → Nat) (a b : κ) : Prop := rank b < rank a

omit [DenseKey κ] [DecidableEq κ] [LawfulKey κ] in
theorem outranks_weak (rank : κ → Nat) : IsStrictWeakOrder κ (Outranks rank) where
  irrefl _ := Nat.lt_irrefl _
  trans _ _ _ first second := Nat.lt_trans second first
  incomp_trans a b c := by
    unfold Outranks
    omega

/-- The comparison that puts greater ranks on top. -/
def byRank (rank : κ → Nat) : Less κ := fun a b => .ok (decide (rank b < rank a))

omit [DecidableEq κ] [LawfulKey κ] in
theorem decides_byRank (rank : κ → Nat) : Decides (byRank rank) (Outranks rank) m where
  answers _ _ _ _ := .ok _
  iff _ _ done := by
    cases done
    exact decide_eq_true_iff

/-- Variables ranked by their numbers, but for the first one, which is over all others. -/
def firstRaised (v : Var) : Nat := if v.index = 0 then 9 else v.index

/-- A heap of four variables gives up the highest one, gets another and lets the lowest one
rise; then it gives up the remaining ones in order. -/
theorem raised_taken_first :
    ∃ h : Heap Var,
      Serves (Outranks firstRaised)
        [(.rise ⟨0⟩, none), (.insert ⟨5⟩, none), (.pop, some ⟨3⟩),
          (.build [⟨2⟩, ⟨0⟩, ⟨1⟩, ⟨3⟩], none)] h ∧
      h.Ordered (Outranks firstRaised) ∧
      (∃ h', h.pop (byRank firstRaised) = .ok (h', some ⟨0⟩) ∧
        ∀ v ∈ [⟨5⟩, ⟨2⟩, ⟨0⟩, ⟨1⟩], ¬Outranks firstRaised v ⟨0⟩) ∧
      ∃ h' ks, h.popAll (byRank firstRaised) 4 = .ok (h', ks) ∧ h'.isEmpty = true ∧
        ks.Perm [⟨5⟩, ⟨2⟩, ⟨0⟩, ⟨1⟩] ∧ ks.Pairwise fun a b => ¬Outranks firstRaised b a := by
  let h₁ : Heap Var := ⟨#[⟨3⟩, ⟨2⟩, ⟨1⟩, ⟨0⟩], ⟨#[some 3, some 2, some 1, some 0]⟩⟩
  let h₂ : Heap Var := ⟨#[⟨2⟩, ⟨0⟩, ⟨1⟩], ⟨#[some 1, some 2, some 0, none]⟩⟩
  let h₃ : Heap Var :=
    ⟨#[⟨5⟩, ⟨2⟩, ⟨1⟩, ⟨0⟩], ⟨#[some 3, some 2, some 1, none, none, some 0]⟩⟩
  let h₄ : Heap Var :=
    ⟨#[⟨0⟩, ⟨5⟩, ⟨1⟩, ⟨2⟩], ⟨#[some 0, some 2, some 3, none, none, some 1]⟩⟩
  have weak := outranks_weak Var.index
  have agree : ∀ l : List Var, ∀ a ∈ l, ∀ b ∈ l,
      Outranks Var.index a b ↔ Outranks Var.index a b := fun _ _ _ _ _ => .rfl
  have built : Serves (Outranks Var.index) [(.build [⟨2⟩, ⟨0⟩, ⟨1⟩, ⟨3⟩], none)] h₁ :=
    .serve (.empty weak) weak (by decide) trivial (decides_byRank _) (by decide +kernel)
  have popped : Serves (Outranks Var.index)
      [(.pop, some ⟨3⟩), (.build [⟨2⟩, ⟨0⟩, ⟨1⟩, ⟨3⟩], none)] h₂ :=
    .serve built weak trivial (agree _) (decides_byRank _) (by decide +kernel)
  have inserted : Serves (Outranks Var.index)
      [(.insert ⟨5⟩, none), (.pop, some ⟨3⟩), (.build [⟨2⟩, ⟨0⟩, ⟨1⟩, ⟨3⟩], none)] h₃ :=
    .serve popped weak (by decide) (agree _) (decides_byRank _) (by decide +kernel)
  have raised : Raises (Outranks Var.index) (Outranks firstRaised)
      (· ∈ [⟨5⟩, ⟨2⟩, ⟨0⟩, ⟨1⟩]) ⟨0⟩ := by
    constructor
    · intro a b _ _ first second
      have low : a.index ≠ 0 := fun same => first (congrArg Var.mk same)
      have low' : b.index ≠ 0 := fun same => second (congrArg Var.mk same)
      simp [Outranks, firstRaised, low, low']
    · intro a mem above
      simp only [List.mem_cons, List.not_mem_nil, or_false] at mem
      rcases mem with rfl | rfl | rfl | rfl <;> simp [Outranks, firstRaised] at above
  have risen : Serves (Outranks firstRaised)
      [(.rise ⟨0⟩, none), (.insert ⟨5⟩, none), (.pop, some ⟨3⟩),
        (.build [⟨2⟩, ⟨0⟩, ⟨1⟩, ⟨3⟩], none)] h₄ :=
    .serve inserted (outranks_weak _) (by decide) raised (decides_byRank _) (by decide +kernel)
  obtain ⟨ordered, -, -, taken⟩ := risen.takes_first
  obtain ⟨⟨h', top, done, -, first⟩, all⟩ := taken (byRank firstRaised) (decides_byRank _)
  obtain ⟨h'', ks, emptied, vacant, -, perm, sorted⟩ := all 4 (by decide)
  have answer : (h₄.pop (byRank firstRaised)).map Prod.snd = .ok (some ⟨0⟩) := by
    decide +kernel
  rw [done] at answer
  cases answer
  exact ⟨h₄, risen, ordered, ⟨h', done, (first ⟨0⟩ rfl).2⟩, h'', ks, emptied, vacant, perm,
    sorted⟩

end Cdcl.Heap
