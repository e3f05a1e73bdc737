import Cdcl.Arena

/-!
# The contents of the arena

The activity of a clause steers which learnt clauses are kept and means nothing else,
and the place of a clause is only reported.  `Arena.body?` is what is left: the literals
of a live clause in order, and whether it was learnt.  Each operation of the arena is
described by what it does to the bodies.

* `clause?_set`, `clause?_alloc`, `clause?_free`, `clause?_shrink` — one clause changes, and
  the others stay;
* `clause?_compact` — compacting keeps the listed clauses, and loses the others;
* `body?_set`, `body?_alloc`, `body?_free`, `body?_shrink`, `body?_compact` — the same for
  the bodies.
-/

namespace Cdcl

namespace Clause

/-- The clause without its activity. -/
def body (c : Clause) : Clause := { c with activity := 0 }

@[simp] theorem body_first (c : Clause) : c.body.first = c.first := rfl

@[simp] theorem body_second (c : Clause) : c.body.second = c.second := rfl

@[simp] theorem body_rest (c : Clause) : c.body.rest = c.rest := rfl

@[simp] theorem body_learnt (c : Clause) : c.body.learnt = c.learnt := rfl

@[simp] theorem body_lits (c : Clause) : c.body.lits = c.lits := rfl

@[simp] theorem body_premises (c : Clause) : c.body.premises = c.premises := rfl

theorem first_mem (c : Clause) : c.first ∈ c.lits := List.mem_cons_self

theorem second_mem (c : Clause) : c.second ∈ c.lits :=
  List.mem_cons_of_mem _ List.mem_cons_self

end Clause

namespace Arena

/-- A live clause, with its activity. -/
def clause? (a : Arena) (id : ClauseId) : Option Clause := (a.find? id).map Stored.clause

/-- The body of a live clause. -/
def body? (a : Arena) (id : ClauseId) : Option Clause := (a.find? id).map (·.clause.body)

theorem body?_eq (a : Arena) (id : ClauseId) : a.body? id = (a.clause? id).map Clause.body := by
  unfold body? clause?
  cases a.find? id <;> rfl

theorem get_eq (a : Arena) (id : ClauseId) :
    a.get id = (a.clause? id).elim (.error .conditionBroken) .ok := by
  unfold get clause?
  cases a.find? id <;> rfl

theorem contains_eq (a : Arena) (id : ClauseId) : a.contains id = (a.clause? id).isSome :=
  Option.isSome_map.symm

theorem body?_of_get {a : Arena} {id : ClauseId} {c : Clause} (h : a.get id = .ok c) :
    a.body? id = some c.body := by
  obtain ⟨s, found, rfl⟩ := get_eq_ok.mp h
  simp [body?, found]

theorem lt_of_find? {a : Arena} {id : ClauseId} {s : Stored} (h : a.find? id = some s) :
    id.index < a.slots.size := by
  unfold find? at h
  rw [Option.join_eq_some_iff] at h
  exact (Array.getElem?_eq_some_iff.mp h).1

/-- The names of live clauses have been handed out. -/
theorem lt_of_body? {a : Arena} {id : ClauseId} {b : Clause} (h : a.body? id = some b) :
    id.index < a.slots.size := by
  obtain ⟨s, found, -⟩ := Option.map_eq_some_iff.mp h
  exact lt_of_find? found

/-- Replacing what stands in a slot is seen under the name of that slot only. -/
theorem find?_setIfInBounds {slots : Array (Option Stored)} {size wasted : Nat}
    {id j : ClauseId} {x : Option Stored} (inside : id.index < slots.size) :
    find? ⟨slots.setIfInBounds id.index x, size, wasted⟩ j =
      if j = id then x else find? ⟨slots, size, wasted⟩ j := by
  unfold find?
  split
  next same =>
    subst same
    simp [inside]
  next other =>
    have away : id.index ≠ j.index := fun e => other (by cases j; cases id; simp_all)
    rw [Array.getElem?_setIfInBounds_ne away]

/-- A clause is replaced where it stands. -/
theorem find?_set {a a' : Arena} {id : ClauseId} {c : Clause} (h : a.set id c = .ok a') :
    ∃ s, a.find? id = some s ∧
      ∀ j, a'.find? j = if j = id then some { s with clause := c } else a.find? j := by
  unfold set at h
  split at h
  next s found =>
    cases h
    exact ⟨s, found, fun _ => find?_setIfInBounds (lt_of_find? found)⟩
  next => cases h

theorem size_set {a a' : Arena} {id : ClauseId} {c : Clause} (h : a.set id c = .ok a') :
    a'.slots.size = a.slots.size := by
  unfold set at h
  split at h
  · cases h
    simp
  · cases h

/-- Replacing a clause is seen under its name only. -/
theorem clause?_set {a a' : Arena} {id : ClauseId} {c : Clause} (h : a.set id c = .ok a')
    (j : ClauseId) : a'.clause? j = if j = id then some c else a.clause? j := by
  obtain ⟨s, -, e⟩ := find?_set h
  unfold clause?
  rw [e]
  split <;> rfl

theorem body?_set {a a' : Arena} {id : ClauseId} {c : Clause} (h : a.set id c = .ok a')
    (j : ClauseId) : a'.body? j = if j = id then some c.body else a.body? j := by
  rw [body?_eq, clause?_set h, body?_eq]
  split <;> rfl

/-- A new clause takes the next slot, and a block behind all others. -/
theorem alloc_eq_ok {a a' : Arena} {c : Clause} {id : ClauseId}
    (h : a.alloc c = .ok (a', id)) :
    id = ⟨a.slots.size⟩ ∧ a'.slots = a.slots.push (some ⟨c, ⟨a.size⟩⟩) := by
  obtain ⟨_, -, h⟩ := bind_eq_ok.mp h
  obtain ⟨_, -, h⟩ := bind_eq_ok.mp h
  cases h
  exact ⟨by simp, rfl⟩

/-- A new clause stands behind all others. -/
theorem find?_alloc {a a' : Arena} {c : Clause} {id : ClauseId}
    (h : a.alloc c = .ok (a', id)) (j : ClauseId) :
    a'.find? j = if j = id then some ⟨c, ⟨a.size⟩⟩ else a.find? j := by
  obtain ⟨rfl, e⟩ := alloc_eq_ok h
  obtain ⟨i⟩ := j
  unfold find?
  rw [e, Array.getElem?_push]
  simp only [ClauseId.mk.injEq]
  split <;> rfl

theorem clause?_alloc {a a' : Arena} {c : Clause} {id : ClauseId}
    (h : a.alloc c = .ok (a', id)) (j : ClauseId) :
    a'.clause? j = if j = id then some c else a.clause? j := by
  unfold clause?
  rw [find?_alloc h]
  split <;> rfl

theorem body?_alloc {a a' : Arena} {c : Clause} {id : ClauseId}
    (h : a.alloc c = .ok (a', id)) (j : ClauseId) :
    a'.body? j = if j = id then some c.body else a.body? j := by
  rw [body?_eq, clause?_alloc h, body?_eq]
  split <;> rfl

/-- A new name has not been in use. -/
theorem body?_fresh {a a' : Arena} {c : Clause} {id : ClauseId}
    (h : a.alloc c = .ok (a', id)) : a.body? id = none := by
  obtain ⟨rfl, -⟩ := alloc_eq_ok h
  simp [body?, find?]

/-- A clause that is given up is found no longer. -/
theorem find?_free {a a' : Arena} {id : ClauseId} (h : a.free id = .ok a') (j : ClauseId) :
    a'.find? j = if j = id then none else a.find? j := by
  obtain ⟨c, read, h⟩ := bind_eq_ok.mp h
  obtain ⟨s, found, -⟩ := get_eq_ok.mp read
  cases h
  exact find?_setIfInBounds (lt_of_find? found)

theorem clause?_free {a a' : Arena} {id : ClauseId} (h : a.free id = .ok a') (j : ClauseId) :
    a'.clause? j = if j = id then none else a.clause? j := by
  unfold clause?
  rw [find?_free h]
  split <;> rfl

theorem body?_free {a a' : Arena} {id : ClauseId} (h : a.free id = .ok a') (j : ClauseId) :
    a'.body? j = if j = id then none else a.body? j := by
  rw [body?_eq, clause?_free h, body?_eq]
  split <;> rfl

theorem size_free {a a' : Arena} {id : ClauseId} (h : a.free id = .ok a') :
    a'.slots.size = a.slots.size := by
  obtain ⟨c, -, h⟩ := bind_eq_ok.mp h
  cases h
  simp

/-- Shrinking is replacing the clause, and counting the words that are cut off. -/
theorem shrink_eq_ok {a a' : Arena} {id : ClauseId} {rest : List Lit}
    (h : a.shrink id rest = .ok a') : ∃ c b, a.get id = .ok c ∧
      rest.length ≤ c.rest.length ∧ a.set id { c with rest } = .ok b ∧
      a' = { b with wasted := b.wasted + (c.rest.length - rest.length) } := by
  obtain ⟨c, read, h⟩ := bind_eq_ok.mp h
  obtain ⟨_, fits, h⟩ := bind_eq_ok.mp h
  obtain ⟨b, written, h⟩ := bind_eq_ok.mp h
  cases h
  exact ⟨c, b, read, by simpa using ensure_eq_ok.mp fits, written, rfl⟩

/-- Shrinking leaves some literals of one clause out. -/
theorem clause?_shrink {a a' : Arena} {id : ClauseId} {rest : List Lit}
    (h : a.shrink id rest = .ok a') : ∃ c, a.get id = .ok c ∧
      a'.slots.size = a.slots.size ∧
      ∀ j, a'.clause? j = if j = id then some { c with rest } else a.clause? j := by
  obtain ⟨c, b, read, -, written, rfl⟩ := shrink_eq_ok h
  have size : b.slots.size = a.slots.size := size_set written
  have clauses := clause?_set written
  exact ⟨c, read, size, clauses⟩

/-- The same literals are missing from its body. -/
theorem body?_shrink {a a' : Arena} {id : ClauseId} {rest : List Lit}
    (h : a.shrink id rest = .ok a') : ∃ c, a.get id = .ok c ∧
      a'.slots.size = a.slots.size ∧
      ∀ j, a'.body? j = if j = id then some { c.body with rest } else a.body? j := by
  obtain ⟨c, read, size, clauses⟩ := clause?_shrink h
  refine ⟨c, read, size, fun j => ?_⟩
  rw [body?_eq, clauses, body?_eq]
  split <;> rfl

/-! ## Compacting -/

/-- What has been moved is as it was. -/
def Agrees (a b : Arena) : Prop :=
  b.slots.size = a.slots.size ∧ ∀ j, b.clause? j = none ∨ b.clause? j = a.clause? j

/-- Nothing has been moved yet. -/
theorem agrees_empty (a : Arena) : a.Agrees ⟨Array.replicate a.slots.size none, 0, 0⟩ ∧
    ∀ j, clause? ⟨Array.replicate a.slots.size none, 0, 0⟩ j = none := by
  have empty : ∀ j, clause? ⟨Array.replicate a.slots.size none, 0, 0⟩ j = none := by
    intro j
    simp only [clause?, find?, Array.getElem?_replicate]
    split <;> rfl
  exact ⟨⟨by simp, fun j => .inl (empty j)⟩, empty⟩

/-- A clause is put behind the others. -/
structure Appends (s : Stored) (id : ClauseId) (b b' : Arena) : Prop where
  size : b'.size = b.size + s.clause.words
  wasted : b'.wasted = b.wasted
  found : ∀ j, b'.find? j = if j = id then some { s with place := ⟨b.size⟩ } else b.find? j

/-- A live clause is moved, unless that has been done. -/
theorem move_eq_ok {a b b' : Arena} {id : ClauseId} (slots : b.slots.size = a.slots.size)
    (h : a.move b id = .ok b') : ∃ s, a.find? id = some s ∧ b'.slots.size = a.slots.size ∧
      (b' = b ∧ (∃ t, b.find? id = some t) ∨ b.find? id = none ∧ Appends s id b b') := by
  obtain ⟨s, found, h⟩ := bind_eq_ok.mp h
  unfold stored at found
  split at found
  next s' found' =>
    cases found
    refine ⟨s, found', ?_⟩
    split at h
    next there =>
      cases h
      exact ⟨slots, .inl ⟨rfl, Option.isSome_iff_exists.mp there⟩⟩
    next absent =>
      cases h
      have inside : id.index < b.slots.size := slots ▸ lt_of_find? found'
      refine ⟨by simpa using slots, .inr ⟨by simpa [contains] using absent, rfl, rfl, fun j => ?_⟩⟩
      exact find?_setIfInBounds inside
  next => cases found

/-- Moving a clause leaves it as it was. -/
theorem clause?_move {a b b' : Arena} {id : ClauseId} (agrees : a.Agrees b)
    (h : a.move b id = .ok b') :
    a.Agrees b' ∧ ∀ j, b'.clause? j = if j = id then a.clause? j else b.clause? j := by
  obtain ⟨s, here, slots, moved⟩ := move_eq_ok agrees.1 h
  have clauses : ∀ j, b'.clause? j = if j = id then a.clause? j else b.clause? j := by
    intro j
    split
    next same =>
      subst same
      rcases moved with ⟨rfl, t, there⟩ | ⟨-, moved⟩
      · refine (agrees.2 j).resolve_left fun absent => ?_
        simp [clause?, there] at absent
      · rw [clause?, clause?, moved.found, if_pos rfl, here]
        rfl
    next other =>
      rcases moved with ⟨rfl, -⟩ | ⟨-, moved⟩
      · rfl
      · rw [clause?, moved.found, if_neg other]
        rfl
  refine ⟨⟨slots, fun j => ?_⟩, clauses⟩
  rw [clauses]
  split
  next => exact .inr rfl
  next => exact agrees.2 j

/-- By induction over the list, all its clauses are moved and no others. -/
theorem clause?_moveAll {a b b' : Arena} {ids : List ClauseId} (agrees : a.Agrees b)
    (h : a.moveAll b ids = .ok b') : b'.slots.size = a.slots.size ∧
      ∀ j, b'.clause? j = if j ∈ ids then a.clause? j else b.clause? j := by
  induction ids generalizing b with
  | nil =>
      cases h
      exact ⟨agrees.1, fun j => by simp⟩
  | cons id ids ih =>
      obtain ⟨b₁, moved, h⟩ := bind_eq_ok.mp h
      obtain ⟨agrees₁, clauses₁⟩ := clause?_move agrees moved
      obtain ⟨size', clauses'⟩ := ih agrees₁ h
      refine ⟨size', fun j => ?_⟩
      rw [clauses', clauses₁]
      by_cases same : j = id <;> by_cases later : j ∈ ids <;> simp [same, later]

/-- Compacting keeps the listed clauses as they are, and loses the others. -/
theorem clause?_compact {a b : Arena} {order : List ClauseId} (h : a.compact order = .ok b) :
    b.slots.size = a.slots.size ∧
      ∀ j, b.clause? j = if j ∈ order then a.clause? j else none := by
  obtain ⟨agrees, empty⟩ := a.agrees_empty
  obtain ⟨size, clauses⟩ := clause?_moveAll agrees h
  exact ⟨size, fun j => by rw [clauses, empty]⟩

/-- Compacting keeps the bodies of the listed clauses, and loses the others. -/
theorem body?_compact {a b : Arena} {order : List ClauseId} (h : a.compact order = .ok b) :
    b.slots.size = a.slots.size ∧
      ∀ j, b.body? j = if j ∈ order then a.body? j else none := by
  obtain ⟨size, clauses⟩ := clause?_compact h
  refine ⟨size, fun j => ?_⟩
  rw [body?_eq, clauses, body?_eq]
  split <;> rfl

end Arena

end Cdcl
