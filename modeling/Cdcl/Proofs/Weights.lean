import Mathlib.Algebra.BigOperators.Group.Finset.Basic
import Mathlib.Algebra.Order.BigOperators.Group.Finset
import Mathlib.Data.Finset.Range
import Cdcl.Proofs.Arena

/-!
# Sums over the stored clauses

How many clauses of a kind there are, how many literals they have, and how many words
they take are sums over the slots of the arena.  `Arena.total f` is the sum of `f` over
the bodies, so it depends on the bodies alone.

* `total_congr` — arenas with bodies that count for the same have the same sums;
* `total_replace` — one clause changes;
* `total_append` — one clause is stored;
* `words_set`, `words_alloc`, `words_free`, `words_shrink`, `words_compact` — what the
  operations do to the counts of words.
-/

namespace Cdcl.Arena

variable {a b : Arena} {f : Clause → Nat} {id : ClauseId}

/-- What a body counts for; what is not stored counts for nothing. -/
def weight (f : Clause → Nat) : Option Clause → Nat
  | some c => f c
  | none => 0

/-- The sum over the stored clauses. -/
def total (f : Clause → Nat) (a : Arena) : Nat :=
  ∑ i ∈ Finset.range a.slots.size, weight f (a.body? ⟨i⟩)

theorem total_congr (slots : b.slots.size = a.slots.size)
    (body : ∀ j, weight f (b.body? j) = weight f (a.body? j)) : b.total f = a.total f := by
  unfold total
  rw [slots]
  exact Finset.sum_congr rfl fun i _ => by rw [body]

theorem body?_of_size_le (out : a.slots.size ≤ id.index) : a.body? id = none := by
  unfold body? find?
  rw [Array.getElem?_eq_none out]
  rfl

/-- The body of one clause changes. -/
theorem total_replace (slots : b.slots.size = a.slots.size)
    (others : ∀ j, j ≠ id → b.body? j = a.body? j) :
    b.total f + weight f (a.body? id) = a.total f + weight f (b.body? id) := by
  by_cases inside : id.index < a.slots.size
  · have mem : id.index ∈ Finset.range a.slots.size := Finset.mem_range.mpr inside
    have rest : ∑ i ∈ (Finset.range a.slots.size).erase id.index, weight f (b.body? ⟨i⟩) =
        ∑ i ∈ (Finset.range a.slots.size).erase id.index, weight f (a.body? ⟨i⟩) :=
      Finset.sum_congr rfl fun i away => by
        rw [others _ fun same => Finset.ne_of_mem_erase away (congrArg ClauseId.index same)]
    unfold total
    rw [slots, ← Finset.add_sum_erase _ _ mem, ← Finset.add_sum_erase _ _ mem, rest]
    change weight f (b.body? id) + _ + weight f (a.body? id) =
      weight f (a.body? id) + _ + weight f (b.body? id)
    omega
  · have out : a.slots.size ≤ id.index := Nat.le_of_not_lt inside
    have gone : a.body? id = none := body?_of_size_le out
    have gone' : b.body? id = none := body?_of_size_le (slots ▸ out)
    have same : b.total f = a.total f := total_congr slots fun j => by
      by_cases h : j = id
      · rw [h, gone, gone']
      · rw [others j h]
    rw [same, gone, gone']

/-- A clause is stored in a new slot. -/
theorem total_append {c : Clause} (name : id.index = a.slots.size)
    (slots : b.slots.size = a.slots.size + 1)
    (body : ∀ j, b.body? j = if j = id then some c else a.body? j) :
    b.total f = a.total f + f c := by
  unfold total
  rw [slots, Finset.sum_range_succ, body, if_pos (by cases id; exact congrArg _ name.symm)]
  refine congrArg (· + f c) (Finset.sum_congr rfl fun i low => ?_)
  rw [body, if_neg fun same => ?_]
  have := congrArg ClauseId.index same
  rw [Finset.mem_range] at low
  simp only at this
  omega

/-- No clause counts for more than all together. -/
theorem weight_le_total : weight f (a.body? id) ≤ a.total f := by
  by_cases inside : id.index < a.slots.size
  · exact Finset.single_le_sum (f := fun i => weight f (a.body? ⟨i⟩)) (fun _ _ => Nat.zero_le _)
      (Finset.mem_range.mpr inside)
  · rw [body?_of_size_le (Nat.le_of_not_lt inside)]
    exact Nat.zero_le _

/-! ## Words -/

/-- Replacing a clause changes no counter of words. -/
theorem words_set {c : Clause} (h : a.set id c = .ok b) :
    b.size = a.size ∧ b.wasted = a.wasted := by
  unfold set at h
  split at h
  · cases h
    exact ⟨rfl, rfl⟩
  · cases h

/-- Storing a clause takes as many words as it has. -/
theorem words_alloc {c : Clause} (h : a.alloc c = .ok (b, id)) :
    b.size = a.size + c.words ∧ b.wasted = a.wasted := by
  obtain ⟨_, -, h⟩ := bind_eq_ok.mp h
  obtain ⟨_, -, h⟩ := bind_eq_ok.mp h
  cases h
  exact ⟨rfl, rfl⟩

/-- The words of a clause that is given up are dead. -/
theorem words_free (h : a.free id = .ok b) : ∃ c, a.get id = .ok c ∧ b.size = a.size ∧
    b.wasted = a.wasted + c.words := by
  obtain ⟨c, read, h⟩ := bind_eq_ok.mp h
  cases h
  exact ⟨c, read, rfl, rfl⟩

/-- The words of literals that are cut off are dead. -/
theorem words_shrink {rest : List Lit} (h : a.shrink id rest = .ok b) :
    ∃ c, a.get id = .ok c ∧ rest.length ≤ c.rest.length ∧ b.size = a.size ∧
      b.wasted = a.wasted + (c.rest.length - rest.length) := by
  obtain ⟨c, a₁, read, fits, written, rfl⟩ := shrink_eq_ok h
  obtain ⟨size, wasted⟩ := words_set written
  exact ⟨c, read, fits, size, congrArg (· + _) wasted⟩

theorem words_move {b' : Arena} (agrees : a.Agrees b) (h : a.move b id = .ok b')
    (words : b.size = b.total Clause.words) :
    b'.size = b'.total Clause.words ∧ b'.wasted = b.wasted := by
  obtain ⟨agrees', clauses⟩ := clause?_move agrees h
  obtain ⟨s, here, slots, ⟨rfl, -⟩ | ⟨absent, moved⟩⟩ := move_eq_ok agrees.1 h
  · exact ⟨words, rfl⟩
  · refine ⟨?_, moved.wasted⟩
    have others : ∀ j, j ≠ id → b'.body? j = b.body? j := fun j other => by
      rw [body?_eq, clauses, if_neg other, body?_eq]
    have replaced := total_replace (f := Clause.words) (slots.trans agrees.1.symm) others
    have gone : b.body? id = none := by rw [body?, absent]; rfl
    have arrived : b'.body? id = some s.clause.body := by
      rw [body?, moved.found, if_pos rfl]
      rfl
    rw [gone, arrived] at replaced
    exact moved.size.trans ((congrArg (· + s.clause.words) words).trans replaced.symm)

/-- By induction over the list, no word that has been moved is dead. -/
theorem words_moveAll {ids : List ClauseId} {b b' : Arena} (agrees : a.Agrees b)
    (h : a.moveAll b ids = .ok b') (words : b.size = b.total Clause.words) :
    b'.size = b'.total Clause.words ∧ b'.wasted = b.wasted := by
  induction ids generalizing b with
  | nil =>
      cases h
      exact ⟨words, rfl⟩
  | cons id ids ih =>
      obtain ⟨b₁, moved, h⟩ := bind_eq_ok.mp h
      obtain ⟨agrees₁, -⟩ := clause?_move agrees moved
      obtain ⟨words₁, wasted₁⟩ := words_move agrees moved words
      obtain ⟨words', wasted'⟩ := ih agrees₁ h words₁
      exact ⟨words', wasted'.trans wasted₁⟩

/-- After compacting there are as many words as the clauses take, and none is dead. -/
theorem words_compact {order : List ClauseId} (h : a.compact order = .ok b) :
    b.size = b.total Clause.words ∧ b.wasted = 0 := by
  obtain ⟨agrees, empty⟩ := a.agrees_empty
  refine words_moveAll agrees h (Eq.symm ?_)
  exact Finset.sum_eq_zero fun i _ => by
    rw [body?_eq, empty]
    rfl

end Cdcl.Arena
