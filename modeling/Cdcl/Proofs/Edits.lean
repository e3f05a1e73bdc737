import Mathlib.Logic.Relation
import Cdcl.Proofs.Blocks
import Cdcl.Proofs.Weights

/-!
# Edits of the arena

A solver does five things to its arena: it rewrites a clause where it stands, stores one,
gives one up, cuts literals off one, and compacts the whole.  What each of these keeps holds
of the arena in every state that calls lead to.

* `Arena.Edit` — one operation, with the condition under which it is used;
* `Arena.Edits` — any number of them;
* `Edits.laid` — blocks that do not overlap remain so.
-/

namespace Cdcl.Arena

/-- One operation on the arena. -/
inductive Edit (a : Arena) : Arena → Prop
  /-- A clause gets other literals, as many as it had, or another activity. -/
  | write {b : Arena} {id : ClauseId} {c d : Clause} :
      a.get id = .ok c → a.set id d = .ok b → d.size = c.size → d.learnt = c.learnt → Edit a b
  /-- A clause that has not been used yet is stored. -/
  | alloc {b : Arena} {id : ClauseId} {c : Clause} :
      c.activity = 0 → a.alloc c = .ok (b, id) → Edit a b
  /-- A clause is given up. -/
  | free {b : Arena} {id : ClauseId} : a.free id = .ok b → Edit a b
  /-- Literals are cut off a clause. -/
  | shrink {b : Arena} {id : ClauseId} {rest : List Lit} : a.shrink id rest = .ok b → Edit a b
  /-- The clauses that are listed are moved together. -/
  | compact {b : Arena} {order : List ClauseId} : a.compact order = .ok b → Edit a b

/-- Any number of operations. -/
abbrev Edits : Arena → Arena → Prop := Relation.ReflTransGen Edit

variable {a b : Arena}

/-- Clauses of the same length need as many words. -/
theorem words_congr {c d : Clause} (size : d.size = c.size) (learnt : d.learnt = c.learnt) :
    d.words = c.words := by
  rw [Clause.words, Clause.words, size, learnt]

/-- No operation makes blocks overlap. -/
theorem Edit.laid (e : a.Edit b) (laid : a.Laid) : b.Laid := by
  cases e with
  | @write id c d read written size learnt =>
      refine laid.thin (Nat.le_of_eq (words_set written).1.symm) fun {j e} stored => ?_
      refine ⟨place?_set written j, ?_⟩
      rw [body?_set written] at stored
      split at stored
      next same =>
        cases stored
        exact ⟨c.body, same ▸ body?_of_get read, Nat.le_of_eq (words_congr size learnt)⟩
      next => exact ⟨e, stored, Nat.le_refl _⟩
  | @alloc id c _ allocated =>
      refine laid.append id (words_alloc allocated).1 fun j => ?_
      unfold block?
      rw [find?_alloc allocated]
      split <;> rfl
  | @free id freed =>
      obtain ⟨_, -, size, -⟩ := words_free freed
      refine laid.thin (Nat.le_of_eq size.symm) fun {j e} stored => ?_
      rw [body?_free freed] at stored
      split at stored
      next => cases stored
      next other =>
        exact ⟨(place?_free freed j).trans (if_neg other), e, stored, Nat.le_refl _⟩
  | @shrink id rest shrunk =>
      obtain ⟨c, read, shorter, size, -⟩ := words_shrink shrunk
      obtain ⟨c', read', -, body⟩ := body?_shrink shrunk
      cases read.symm.trans read'
      refine laid.thin (Nat.le_of_eq size.symm) fun {j e} stored => ?_
      refine ⟨place?_shrink shrunk j, ?_⟩
      rw [body] at stored
      split at stored
      next same =>
        cases stored
        refine ⟨c.body, same ▸ body?_of_get read, ?_⟩
        simp only [Clause.words, Clause.size, Clause.body]
        omega
      next => exact ⟨e, stored, Nat.le_refl _⟩
  | compact compacted => exact laid_compact compacted

/-- Blocks that do not overlap remain so. -/
theorem Edits.laid (e : a.Edits b) (laid : a.Laid) : b.Laid := by
  induction e with
  | refl => exact laid
  | tail _ edit ih => exact edit.laid ih

end Cdcl.Arena
