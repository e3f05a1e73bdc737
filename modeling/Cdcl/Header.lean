import Cdcl.Fault

/-!
# Clause headers

What is recorded about a stored clause besides its literals.  A header fits one
word: two bits of mark, three flags, and 27 bits of size.  The fields are kept
apart here, and `Header.make`, `Header.setMark` and `Header.setSize` refuse values
that would not fit.
-/

namespace Cdcl

/-- The record of a stored clause. -/
structure Header where
  mark : Nat
  learnt : Bool
  hasExtra : Bool
  relocated : Bool
  size : Nat
deriving DecidableEq, Repr, Inhabited

namespace Header

/-- The greatest size of a clause. -/
def maxSize : Nat := 0x7ffffff

/-- A header with the given fields. -/
def make (mark : Nat) (learnt hasExtra relocated : Bool) (size : Nat) :
    Except Fault Header := do
  ensure (mark < 4)
  ensure (size ≤ maxSize)
  return { mark, learnt, hasExtra, relocated, size }

/-- Replaces the mark. -/
def setMark (h : Header) (mark : Nat) : Except Fault Header := do
  ensure (mark < 4)
  return { h with mark }

/-- Replaces the flag that says the clause has moved. -/
def setRelocated (h : Header) (relocated : Bool) : Header := { h with relocated }

/-- Replaces the size. -/
def setSize (h : Header) (size : Nat) : Except Fault Header := do
  ensure (size ≤ maxSize)
  return { h with size }

/-- The length in words of the block that a clause takes: the header, one word a
literal, and one more if there is extra data. -/
def words (h : Header) : Nat := 1 + h.size + h.hasExtra.toNat

/-- The printed form. -/
def text (h : Header) : String :=
  "ClauseHeader \x7b mark: " ++ toString h.mark ++
    ", learnt: " ++ toString h.learnt ++
    ", has_extra: " ++ toString h.hasExtra ++
    ", reloced: " ++ toString h.relocated ++
    ", size: " ++ toString h.size ++ " \x7d"

end Header

end Cdcl
