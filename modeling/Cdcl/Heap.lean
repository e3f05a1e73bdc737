import Cdcl.DenseMap

/-!
# Indexed binary heaps

A binary heap of dense keys that knows the position of each key, so that a key can
be moved up when its priority grows.  The order is not part of the heap: each
operation takes the comparison it is to use, which may fail and may differ from
one operation to the next.

`siftUp` and `siftDown` move a hole.  The keys on the way are shifted by `place`,
and the key that is being moved is written once, where the hole comes to rest.
-/

namespace Cdcl

/-- The keys in heap order, and the position of each key that is in the heap. -/
structure Heap (κ : Type) where
  keys : Array κ
  positions : DenseMap κ (Option Nat)
deriving Inhabited

namespace Heap

variable {κ : Type} [DenseKey κ]

/-- A comparison: does the first key belong strictly above the second? -/
abbrev Less (κ : Type) := κ → κ → Except Fault Bool

/-- The heap without keys. -/
def empty : Heap κ := ⟨#[], .empty⟩

/-- The number of keys. -/
def size (h : Heap κ) : Nat := h.keys.size

/-- Has the heap no key? -/
def isEmpty (h : Heap κ) : Bool := h.keys.isEmpty

/-- The key at a position. -/
@[inline] def key (h : Heap κ) (i : Nat) : Except Fault κ :=
  match h.keys[i]? with
  | some k => .ok k
  | none => .error .outOfRange

/-- The position of a key in the heap. -/
def position? (h : Heap κ) (k : κ) : Option Nat :=
  (h.positions.cells[DenseKey.toIndex k]?).join

/-- Is the key in the heap? -/
def contains (h : Heap κ) (k : κ) : Bool := (h.position? k).isSome

/-- Writes a key at a position, and the position at the key. -/
@[inline] def place (h : Heap κ) (i : Nat) (k : κ) : Except Fault (Heap κ) :=
  let ⟨keys, positions⟩ := h
  if inside : i < keys.size then
    match positions.set k (some i) with
    | .ok positions => .ok ⟨keys.set i k inside, positions⟩
    | .error f => .error f
  else
    .error .outOfRange

/-- The position above `i`. -/
def parent (i : Nat) : Nat := (i - 1) / 2

/-- The first position below `i`. -/
def left (i : Nat) : Nat := 2 * i + 1

/-- The second position below `i`. -/
def right (i : Nat) : Nat := 2 * i + 2

/-- Moves the hole at `i` up until `k` may stand there, and writes `k`. -/
def siftUp (less : Less κ) (h : Heap κ) (k : κ) (i : Nat) : Except Fault (Heap κ) :=
  if _top : i = 0 then
    h.place i k
  else do
    let above ← h.key (parent i)
    if ← less k above then
      let h ← h.place i above
      siftUp less h k (parent i)
    else
      h.place i k
termination_by i
decreasing_by simp only [parent]; omega

/-- Does the second key below `i` exist and belong above the first one? -/
def prefersRight (less : Less κ) (h : Heap κ) (i : Nat) : Except Fault Bool :=
  if right i < h.size then do
    less (← h.key (right i)) (← h.key (left i))
  else
    .ok false

/-- Moves the hole at `i` down until `k` may stand there, and writes `k`.  The hole
stays below `bound`, which callers take to be the size of the heap. -/
def siftDown (less : Less κ) (bound : Nat) (h : Heap κ) (k : κ) (i : Nat) :
    Except Fault (Heap κ) :=
  if _inside : left i < bound then do
    let toRight ← prefersRight less h i
    let child := if toRight then right i else left i
    let below ← h.key child
    if ← less below k then
      let h ← h.place i below
      siftDown less bound h k child
    else
      h.place i k
  else
    h.place i k
termination_by bound - i
decreasing_by
  have deeper : i < child := by
    simp only [child, left, right]
    split <;> omega
  simp only [left] at _inside
  omega

/-- Lets the key at a position sink. -/
def sink (less : Less κ) (h : Heap κ) (i : Nat) : Except Fault (Heap κ) := do
  let k ← h.key i
  siftDown less h.size h k i

/-- Lets a key of the heap rise after its priority has grown. -/
def rise (less : Less κ) (h : Heap κ) (k : κ) : Except Fault (Heap κ) :=
  match h.position? k with
  | some i => do
      let k ← h.key i
      siftUp less h k i
  | none => .error .conditionBroken

/-- Adds a key that is not in the heap. -/
def insert (less : Less κ) (h : Heap κ) (k : κ) : Except Fault (Heap κ) := do
  let ⟨keys, positions⟩ := h
  let h : Heap κ := ⟨keys, positions.reserve k none⟩
  ensure (!h.contains k)
  let ⟨keys, positions⟩ := h
  let positions ← positions.set k (some keys.size)
  siftUp less ⟨keys.push k, positions⟩ k keys.size

/-- Takes the top key out, if there is one.  The last key takes its place, and then
sinks. -/
def pop (less : Less κ) (h : Heap κ) : Except Fault (Heap κ × Option κ) := do
  match h.keys[0]?, h.keys.back? with
  | some top, some last =>
      let ⟨keys, positions⟩ := h
      let positions ← positions.set top none
      let keys := (keys.setIfInBounds 0 last).pop
      if keys.isEmpty then
        return (⟨keys, positions⟩, some top)
      else
        let h : Heap κ := ⟨keys, ← positions.set last (some 0)⟩
        if 1 < h.size then
          return (← h.sink less 0, some top)
        else
          return (h, some top)
  | _, _ => return (h, none)

/-- Forgets the positions of the listed keys. -/
def clearPositions (positions : DenseMap κ (Option Nat)) :
    List κ → Except Fault (DenseMap κ (Option Nat))
  | [] => .ok positions
  | k :: ks => do clearPositions (← positions.set k none) ks

/-- Writes the listed keys after those already there, in the given order. -/
def fill (h : Heap κ) : List κ → Except Fault (Heap κ)
  | [] => .ok h
  | k :: ks => do
      let ⟨keys, positions⟩ := h
      let positions ← (positions.reserve k none).set k (some keys.size)
      fill ⟨keys.push k, positions⟩ ks

/-- Lets the keys at positions below `n` sink, the last of them first. -/
def heapify (less : Less κ) (h : Heap κ) : Nat → Except Fault (Heap κ)
  | 0 => .ok h
  | i + 1 => do heapify less (← h.sink less i) i

/-- Replaces the contents of the heap by the given keys. -/
def build (less : Less κ) (h : Heap κ) (ks : List κ) : Except Fault (Heap κ) := do
  let positions ← clearPositions h.positions h.keys.toList
  let h ← fill ⟨#[], positions⟩ ks
  heapify less h (h.size / 2)

/-- Takes keys out until the heap is empty, at most `n` of them. -/
def popAll (less : Less κ) : Nat → Heap κ → Except Fault (Heap κ × List κ)
  | 0, h => .ok (h, [])
  | n + 1, h => do
      match ← h.pop less with
      | (h, some k) =>
          let (h, ks) ← popAll less n h
          return (h, k :: ks)
      | (h, none) => return (h, [])

/-- The comparison that puts greater scores on top.  Scores that are not numbers
cannot be compared, and `fault` says so. -/
def byScore (fault : Fault) (score : κ → Except Fault Float) : Less κ := fun a b => do
  let y ← score b
  let x ← score a
  if x.isNaN || y.isNaN then
    .error fault
  else
    .ok (decide (y < x))

/-- Every key stands at the position recorded for it, and no other position is
recorded. -/
def Indexed (h : Heap κ) : Prop :=
  ∀ (k : κ) (i : Nat), h.position? k = some i ↔ h.keys[i]? = some k

/-- No key belongs strictly above the key over it. -/
def Ordered (lt : κ → κ → Prop) (h : Heap κ) : Prop :=
  ∀ (i : Nat) (a b : κ), 0 < i → h.keys[i]? = some a →
    h.keys[parent i]? = some b → ¬ lt a b

end Heap

end Cdcl
