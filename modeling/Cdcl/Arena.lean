import Cdcl.Clause
import Cdcl.Region

/-!
# The clause arena

Stored clauses are named by identifiers that are handed out in turn and never used
twice.  Each clause also has a place: the arena is a row of words, and a clause
takes a block of `Clause.words` of them, put at the end when it is stored.  The
words of clauses that were freed, and of literals that were cut off, are dead.
`compact` moves the live clauses together and gives them new places, in the order
in which they are asked for; their identifiers and contents stay.

The arena counts its words but does not hold them: places are only reported.
-/

namespace Cdcl

/-- The name of a stored clause. -/
structure ClauseId where
  index : Nat
deriving DecidableEq, Repr, Inhabited

/-- A stored clause with the place of its block. -/
structure Stored where
  clause : Clause
  place : Ref
deriving Inhabited

/-- The stored clauses, the number of words handed out, and how many are dead. -/
structure Arena where
  slots : Array (Option Stored)
  size : Nat
  wasted : Nat
deriving Inhabited

namespace Arena

/-- The arena without clauses. -/
def empty : Arena := ⟨#[], 0, 0⟩

/-- The number of bytes by which sizes are reported for one word. -/
def unitSize : Nat := 32

/-- The stored clause of an identifier, if it is live. -/
def find? (a : Arena) (id : ClauseId) : Option Stored := (a.slots[id.index]?).join

/-- Is the clause live? -/
def contains (a : Arena) (id : ClauseId) : Bool := (a.find? id).isSome

/-- The stored clause of a live identifier. -/
@[inline] def stored (a : Arena) (id : ClauseId) : Except Fault Stored :=
  match a.find? id with
  | some s => .ok s
  | none => .error .conditionBroken

/-- The clause of a live identifier. -/
@[inline] def get (a : Arena) (id : ClauseId) : Except Fault Clause :=
  match a.find? id with
  | some s => .ok s.clause
  | none => .error .conditionBroken

/-- Replaces the clause of a live identifier, where it stands. -/
@[inline] def set (a : Arena) (id : ClauseId) (c : Clause) : Except Fault Arena :=
  match a.find? id with
  | some s => .ok { a with slots := a.slots.setIfInBounds id.index (some { s with clause := c }) }
  | none => .error .conditionBroken

/-- Stores a clause at the end of the arena; its name is that of the last slot.  The size
has to fit its header, and the words their offsets. -/
def alloc (a : Arena) (c : Clause) : Except Fault (Arena × ClauseId) := do
  ensureWidth (c.size ≤ Header.maxSize)
  ensureWidth (a.size + c.words < wordSpan)
  let slots := a.slots.push (some ⟨c, ⟨a.size⟩⟩)
  return ({ a with slots, size := a.size + c.words }, ⟨slots.size - 1⟩)

/-- Gives up a live clause; its words become dead. -/
def free (a : Arena) (id : ClauseId) : Except Fault Arena := do
  let c ← a.get id
  return { a with
    slots := a.slots.setIfInBounds id.index none
    wasted := a.wasted + c.words }

/-- Replaces the unwatched literals of a live clause by some of them; the words of
the others become dead. -/
def shrink (a : Arena) (id : ClauseId) (rest : List Lit) : Except Fault Arena := do
  let c ← a.get id
  ensure (rest.length ≤ c.rest.length)
  let a ← a.set id { c with rest }
  return { a with wasted := a.wasted + (c.rest.length - rest.length) }

/-- Moves a live clause to the end of `b`, unless it is there already. -/
def move (a b : Arena) (id : ClauseId) : Except Fault Arena := do
  let s ← a.stored id
  if b.contains id then
    return b
  else
    return { b with
      slots := b.slots.setIfInBounds id.index (some { s with place := ⟨b.size⟩ })
      size := b.size + s.clause.words }

/-- Moves the listed clauses to the end of `b`. -/
def moveAll (a b : Arena) : List ClauseId → Except Fault Arena
  | [] => .ok b
  | id :: ids => do moveAll a (← a.move b id) ids

/-- Puts the listed clauses together, in the order of their first mention.  Clauses
that are not mentioned are lost. -/
def compact (a : Arena) (order : List ClauseId) : Except Fault Arena :=
  a.moveAll ⟨Array.replicate a.slots.size none, 0, 0⟩ order

theorem get_eq_ok {a : Arena} {id : ClauseId} {c : Clause} :
    a.get id = .ok c ↔ ∃ s, a.find? id = some s ∧ s.clause = c := by
  unfold get
  split <;> simp_all

end Arena

end Cdcl
