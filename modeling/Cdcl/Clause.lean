import Cdcl.Header

/-!
# Clauses

A stored clause has at least two literals.  The first two are the watched ones, and
the first is the literal that the clause implies when it is a reason.  A learnt
clause carries an activity, which says how much it has been used of late.
-/

namespace Cdcl

/-- A stored clause. -/
structure Clause where
  first : Lit
  second : Lit
  rest : List Lit
  learnt : Bool
  activity : Float32
deriving Inhabited

namespace Clause

/-- The literals in order. -/
def lits (c : Clause) : List Lit := c.first :: c.second :: c.rest

/-- The number of literals. -/
def size (c : Clause) : Nat := c.rest.length + 2

/-- The literals that imply the first one when they are all false. -/
def premises (c : Clause) : List Lit := c.second :: c.rest

/-- The length in words of the block that the clause takes: a header, one word a
literal, and the activity if the clause is learnt. -/
def words (c : Clause) : Nat := 1 + c.size + c.learnt.toNat

/-- The record of the clause. -/
def header (c : Clause) : Header where
  mark := 0
  learnt := c.learnt
  hasExtra := c.learnt
  relocated := false
  size := c.size

/-- A clause that has not been used yet. -/
def ofLits (lits : List Lit) (learnt : Bool) : Except Fault Clause :=
  match lits with
  | first :: second :: rest => .ok { first, second, rest, learnt, activity := 0 }
  | _ => .error .shortClause

/-- The clause with its watched literals exchanged if `l` comes first, so that `l`
is the second one if it is watched at all. -/
def watchSecond (c : Clause) (l : Lit) : Clause :=
  if c.first = l then { c with first := c.second, second := l } else c

@[simp] theorem length_lits (c : Clause) : c.lits.length = c.size := rfl

@[simp] theorem words_header (c : Clause) : c.header.words = c.words := rfl

/-- A clause has the literals and the kind it is made with. -/
theorem lits_ofLits {lits : List Lit} {learnt : Bool} {c : Clause}
    (h : ofLits lits learnt = .ok c) : c.lits = lits ∧ c.learnt = learnt := by
  unfold ofLits at h
  split at h
  · cases h
    exact ⟨rfl, rfl⟩
  · cases h

theorem activity_ofLits {lits : List Lit} {learnt : Bool} {c : Clause}
    (h : ofLits lits learnt = .ok c) : c.activity = 0 := by
  unfold ofLits at h
  split at h
  · cases h
    rfl
  · cases h

theorem size_watchSecond (c : Clause) (l : Lit) : (c.watchSecond l).size = c.size := by
  unfold watchSecond
  split <;> rfl

theorem learnt_watchSecond (c : Clause) (l : Lit) : (c.watchSecond l).learnt = c.learnt := by
  unfold watchSecond
  split <;> rfl

/-- Watching another literal changes the order only. -/
theorem perm_watchSecond (c : Clause) (l : Lit) : (c.watchSecond l).lits.Perm c.lits := by
  unfold watchSecond
  split
  next h =>
    subst h
    exact .swap _ _ _
  next => exact .refl _

end Clause

end Cdcl
