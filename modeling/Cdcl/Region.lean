import Cdcl.Fault

/-!
# Regions

A region is a growing block of words handed out in contiguous chunks.  Chunks are
never given back one by one: `free` only counts how many words have become dead,
and the owner decides when to move the live chunks to a fresh region.

* `cells_alloc` — a new chunk starts where the region ended, and holds zeros;
* `cells_free` — freeing moves nothing.
-/

namespace Cdcl

/-- An offset into a region. -/
structure Ref where
  offset : Nat
deriving DecidableEq, Repr, Inhabited

namespace Ref

/-- The reference that stands for "none". -/
def undef : Ref := ⟨wordSpan - 1⟩

/-- References are ordered by offset. -/
instance : Ord Ref := ⟨fun a b => compare a.offset b.offset⟩

/-- The reference `n` words further on, which has to fit a word. -/
def add (r : Ref) (n : Nat) : Except Fault Ref :=
  if r.offset + n < wordSpan then .ok ⟨r.offset + n⟩ else .error .overflow

/-- The printed form. -/
def text (r : Ref) : String := "Ref(" ++ toString r.offset ++ ")"

end Ref

/-- A growing block of words and the number of dead words in it. -/
structure Region where
  cells : Array Nat
  wasted : Nat
deriving Repr, Inhabited

namespace Region

/-- The region without words. -/
def empty : Region := ⟨#[], 0⟩

/-- The number of words, as a word. -/
def len (r : Region) : Nat := r.cells.size % wordSpan

/-- The number of dead words, as a word. -/
def deadWords (r : Region) : Nat := r.wasted % wordSpan

/-- Hands out a chunk of `n` zero words at the end. -/
def alloc (r : Region) (n : Nat) : Except Fault (Region × Ref) := do
  ensure (0 < n)
  let cells := r.cells ++ Array.replicate n 0
  return ({ r with cells }, ⟨(cells.size - n) % wordSpan⟩)

/-- Counts `n` more words as dead. -/
def free (r : Region) (n : Nat) : Region := { r with wasted := r.wasted + n }

/-- The word at an offset. -/
def get (r : Region) (start : Ref) : Except Fault Nat :=
  match r.cells[start.offset]? with
  | some x => .ok x
  | none => .error .outOfRange

/-- Replaces the word at an offset. -/
def set (r : Region) (start : Ref) (x : Nat) : Except Fault Region :=
  if start.offset < r.cells.size then
    .ok { r with cells := r.cells.setIfInBounds start.offset x }
  else
    .error .outOfRange

/-- The `n` words from an offset on. -/
def slice (r : Region) (start : Ref) (n : Nat) : Except Fault (List Nat) :=
  if start.offset + n ≤ r.cells.size then
    .ok (r.cells.extract start.offset (start.offset + n)).toList
  else
    .error .outOfRange

/-- Writes words from an offset on. -/
def fill (r : Region) (start : Ref) (xs : List Nat) : Except Fault Region :=
  if start.offset + xs.length ≤ r.cells.size then
    .ok { r with
      cells := xs.zipIdx.foldl
        (fun cells (x, i) => cells.setIfInBounds (start.offset + i) x) r.cells }
  else
    .error .outOfRange

/-- The printed form. -/
def text (r : Region) : String :=
  "RegionAllocator \x7b vec: [" ++
    ", ".intercalate (r.cells.toList.map toString) ++
    "], wasted: " ++ toString r.wasted ++ " \x7d"

theorem cells_alloc {r r' : Region} {n : Nat} {chunk : Ref}
    (h : r.alloc n = .ok (r', chunk)) :
    r'.cells = r.cells ++ Array.replicate n 0 ∧ chunk.offset = r.len := by
  unfold alloc ensure at h
  split at h
  · cases h
    simp [len]
  · cases h

@[simp] theorem cells_free (r : Region) (n : Nat) : (r.free n).cells = r.cells := rfl

end Region

end Cdcl
