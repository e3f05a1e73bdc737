import Cdcl.Literal.Checked

/-!
# Maps over dense keys

Keys such as variables and literals are small numbers without gaps, so a map from
them is an array.  A map covers the keys below its size: reading or writing any
other key is a fault, and `reserve` extends the map up to a key.

* `get_set_self`, `get_set_ne` — a write is seen at its key and nowhere else;
* `size_set`, `size_reserve` — what each operation does to the size.
-/

namespace Cdcl

/-- Types whose values are numbered densely from zero. -/
class DenseKey (κ : Type) where
  toIndex : κ → Nat
  ofIndex : Nat → κ

instance : DenseKey Var := ⟨Var.index, Var.ofIndex⟩

instance : DenseKey Lit := ⟨Lit.code, Lit.ofCode⟩

/-- A map from the keys below its size. -/
structure DenseMap (κ : Type) (α : Type) where
  cells : Array α
deriving Repr, Inhabited

namespace DenseMap

variable {κ α : Type} [DenseKey κ]

/-- The map that covers no key. -/
def empty : DenseMap κ α := ⟨#[]⟩

/-- The number of keys covered. -/
def size (m : DenseMap κ α) : Nat := m.cells.size

/-- Is the key covered? -/
def has (m : DenseMap κ α) (k : κ) : Bool := DenseKey.toIndex k < m.cells.size

/-- The value at a key. -/
@[inline] def get (m : DenseMap κ α) (k : κ) : Except Fault α :=
  match m.cells[DenseKey.toIndex k]? with
  | some x => .ok x
  | none => .error .outOfRange

/-- Replaces the value at a key. -/
@[inline] def set (m : DenseMap κ α) (k : κ) (x : α) : Except Fault (DenseMap κ α) :=
  if h : DenseKey.toIndex k < m.cells.size then
    .ok ⟨m.cells.set (DenseKey.toIndex k) x h⟩
  else
    .error .outOfRange

/-- Replaces the value at a key by one computed from it. -/
@[inline] def modify (m : DenseMap κ α) (k : κ) (f : α → α) :
    Except Fault (DenseMap κ α) :=
  if DenseKey.toIndex k < m.cells.size then
    .ok ⟨m.cells.modify (DenseKey.toIndex k) f⟩
  else
    .error .outOfRange

/-- Extends the map up to a key with copies of `pad`; keys already covered keep
their values. -/
def reserve (m : DenseMap κ α) (k : κ) (pad : α) : DenseMap κ α :=
  if DenseKey.toIndex k < m.cells.size then
    m
  else
    ⟨m.cells ++ Array.replicate (DenseKey.toIndex k + 1 - m.cells.size) pad⟩

/-- Writes a value at a key, extending the map with `pad` if needed. -/
def insert (m : DenseMap κ α) (k : κ) (pad x : α) : DenseMap κ α :=
  ⟨(m.reserve k pad).cells.setIfInBounds (DenseKey.toIndex k) x⟩

/-- The keys in order, each with its value. -/
def toList (m : DenseMap κ α) : List (κ × α) :=
  m.cells.toList.zipIdx.map fun (x, i) => (DenseKey.ofIndex i, x)

/-- Replaces every value by one computed from its key and itself. -/
def mapWithKey (m : DenseMap κ α) (f : κ → α → α) : DenseMap κ α :=
  ⟨m.cells.mapIdx fun i x => f (DenseKey.ofIndex i) x⟩

theorem get_eq_ok {m : DenseMap κ α} {k : κ} {x : α} :
    m.get k = .ok x ↔ m.cells[DenseKey.toIndex k]? = some x := by
  unfold get
  split <;> simp_all

/-- Writing succeeds within the map, and changes one cell. -/
theorem set_eq_ok {m m' : DenseMap κ α} {k : κ} {x : α} :
    m.set k x = .ok m' ↔
      DenseKey.toIndex k < m.size ∧
        m' = ⟨m.cells.setIfInBounds (DenseKey.toIndex k) x⟩ := by
  unfold set size
  split
  next h => simp [h, Array.setIfInBounds, eq_comm]
  next h => simp [h]

/-- A value is replaced in the way in which it is read and written. -/
theorem modify_eq_ok {m m' : DenseMap κ α} {k : κ} {f : α → α} :
    m.modify k f = .ok m' ↔ ∃ x, m.get k = .ok x ∧ m.set k (f x) = .ok m' := by
  unfold modify get set
  split
  next h =>
    have cells : m.cells.modify (DenseKey.toIndex k) f =
        m.cells.set (DenseKey.toIndex k) (f m.cells[DenseKey.toIndex k]) h := by
      ext i _ _
      · simp
      · simp only [Array.getElem_modify, Array.getElem_set]
        split
        next same => subst same; rfl
        next => rfl
    simp [h, cells]
  next h => simp [h]

theorem size_set {m m' : DenseMap κ α} {k : κ} {x : α} (h : m.set k x = .ok m') :
    m'.size = m.size := by
  rw [set_eq_ok] at h
  simp [h.2, size]

theorem get_set_self {m m' : DenseMap κ α} {k : κ} {x : α} (h : m.set k x = .ok m') :
    m'.get k = .ok x := by
  rw [set_eq_ok] at h
  have inside : DenseKey.toIndex k < m.cells.size := h.1
  rw [get_eq_ok, h.2]
  simp [inside]

theorem get_set_ne {m m' : DenseMap κ α} {k j : κ} {x : α} (h : m.set k x = .ok m')
    (hne : DenseKey.toIndex k ≠ DenseKey.toIndex j) : m'.get j = m.get j := by
  rw [set_eq_ok] at h
  simp [h.2, get, Array.getElem?_setIfInBounds_ne hne]

theorem size_reserve (m : DenseMap κ α) (k : κ) (pad : α) :
    (m.reserve k pad).size = max m.size (DenseKey.toIndex k + 1) := by
  unfold reserve size
  split
  · omega
  · simp; omega

end DenseMap

/-- A set of keys, one flag a key. -/
abbrev Flags (κ : Type) := DenseMap κ Bool

/-- Are all flags cleared? -/
def Flags.isClear {κ : Type} (f : Flags κ) : Bool := f.cells.all (!·)

end Cdcl
