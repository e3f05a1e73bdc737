import Mathlib.Order.Interval.Finset.Nat
import Cdcl.Proofs.Weights

/-!
# Blocks of words

The block of a live clause begins at its place and is as long as the clause needs.  What
the operations do to the bodies of the clauses is known, so it is the places that are
followed here.

* `place?_set`, `place?_alloc`, `place?_free`, `place?_shrink` — an operation on one clause
  moves no other;
* `Arena.Laid` — every block lies inside the arena, and no two of them overlap;
* `Laid.thin` — blocks may be given up or cut at their ends, and `Laid.append` — a block
  may be put behind all others;
* `laid_compact` — the clauses that are moved together lie one behind the other.
-/

namespace Cdcl

/-- Words in a row. -/
structure Block where
  start : Nat
  length : Nat
deriving DecidableEq, Repr

namespace Block

/-- The first word behind the block. -/
def stop (b : Block) : Nat := b.start + b.length

/-- The offsets of the words. -/
def cells (b : Block) : Finset Nat := Finset.Ico b.start b.stop

/-- One block ends before the other begins. -/
def Apart (a b : Block) : Prop := a.stop ≤ b.start ∨ b.stop ≤ a.start

/-- Blocks that are apart have no word in common. -/
theorem Apart.disjoint {a b : Block} (h : a.Apart b) : Disjoint a.cells b.cells := by
  refine Finset.disjoint_left.mpr fun i left right => ?_
  simp only [cells, Finset.mem_Ico] at left right
  unfold Apart at h
  omega

end Block

namespace Arena

variable {a b : Arena} {id : ClauseId} {c : Clause} {block : Block}

/-- Where the block of a live clause begins. -/
def place? (a : Arena) (id : ClauseId) : Option Nat := (a.find? id).map (·.place.offset)

/-- The block of a live clause. -/
def block? (a : Arena) (id : ClauseId) : Option Block :=
  (a.find? id).map fun s => ⟨s.place.offset, s.clause.words⟩

/-- The block of a clause is its place and its length. -/
theorem block?_eq_some : a.block? id = some block ↔
    a.place? id = some block.start ∧ ∃ c, a.body? id = some c ∧ c.words = block.length := by
  unfold block? place? body?
  cases a.find? id with
  | none => simp
  | some s =>
      obtain ⟨start, length⟩ := block
      have words : s.clause.body.words = s.clause.words := rfl
      simp [words]

/-! ## Places -/

theorem place?_set (h : a.set id c = .ok b) (j : ClauseId) : b.place? j = a.place? j := by
  obtain ⟨s, found, changed⟩ := find?_set h
  unfold place?
  rw [changed]
  split
  next same => rw [same, found]; rfl
  next => rfl

/-- A new clause stands where the arena ended. -/
theorem place?_alloc (h : a.alloc c = .ok (b, id)) (j : ClauseId) :
    b.place? j = if j = id then some a.size else a.place? j := by
  unfold place?
  rw [find?_alloc h]
  split <;> rfl

theorem place?_free (h : a.free id = .ok b) (j : ClauseId) :
    b.place? j = if j = id then none else a.place? j := by
  unfold place?
  rw [find?_free h]
  split <;> rfl

theorem place?_shrink {rest : List Lit} (h : a.shrink id rest = .ok b) (j : ClauseId) :
    b.place? j = a.place? j := by
  obtain ⟨c, a₁, -, -, written, rfl⟩ := shrink_eq_ok h
  exact place?_set written j

/-! ## Blocks that do not overlap -/

/-- The blocks lie inside the arena, and no two of them overlap. -/
structure Laid (a : Arena) : Prop where
  inside : ∀ {id block}, a.block? id = some block → block.stop ≤ a.size
  apart : ∀ {i j block block'}, i ≠ j → a.block? i = some block → a.block? j = some block' →
    block.Apart block'

/-- Without clauses there is nothing to overlap. -/
theorem Laid.empty (slots : Nat) : Laid ⟨Array.replicate slots none, 0, 0⟩ := by
  have nothing : ∀ j, block? ⟨Array.replicate slots none, 0, 0⟩ j = none := by
    intro j
    unfold block? find?
    rw [Array.getElem?_replicate]
    split <;> rfl
  exact ⟨fun here => by simp [nothing] at here, fun _ here => by simp [nothing] at here⟩

/-- Clauses are given up, or become shorter where they stand. -/
theorem Laid.thin (laid : a.Laid) (size : a.size ≤ b.size)
    (kept : ∀ {j c}, b.body? j = some c → b.place? j = a.place? j ∧
      ∃ d, a.body? j = some d ∧ c.words ≤ d.words) : b.Laid := by
  -- every block is the beginning of an old one
  have old : ∀ {j block}, b.block? j = some block →
      ∃ before, a.block? j = some before ∧ block.start = before.start ∧
        block.stop ≤ before.stop := by
    intro j block here
    obtain ⟨place, c, stored, length⟩ := block?_eq_some.mp here
    obtain ⟨unmoved, d, before, shorter⟩ := kept stored
    rw [unmoved] at place
    refine ⟨⟨block.start, d.words⟩, block?_eq_some.mpr ⟨place, d, before, rfl⟩, rfl, ?_⟩
    change block.start + block.length ≤ block.start + d.words
    omega
  constructor
  · intro id block here
    obtain ⟨before, there, -, stop⟩ := old here
    have := laid.inside there
    omega
  · intro i j block block' other here here'
    obtain ⟨before, there, start, stop⟩ := old here
    obtain ⟨before', there', start', stop'⟩ := old here'
    have := laid.apart other there there'
    unfold Block.Apart at *
    omega

/-- A clause is put behind all others. -/
theorem Laid.append (laid : a.Laid) (id : ClauseId) {words : Nat}
    (size : b.size = a.size + words)
    (blocks : ∀ j, b.block? j = if j = id then some ⟨a.size, words⟩ else a.block? j) :
    b.Laid := by
  constructor
  · intro i block here
    rw [blocks] at here
    split at here
    · cases here
      exact Nat.le_of_eq size.symm
    · have := laid.inside here
      omega
  · intro i j block block' other here here'
    rw [blocks] at here here'
    unfold Block.Apart
    split at here <;> split at here'
    next same same' => exact absurd (same.trans same'.symm) other
    next =>
      cases here
      exact .inr (laid.inside here')
    next =>
      cases here'
      exact .inl (laid.inside here)
    next => exact laid.apart other here here'

/-! ## Compacting -/

/-- A clause that is moved is put behind all others. -/
theorem laid_move {a b b' : Arena} (slots : b.slots.size = a.slots.size) (laid : b.Laid)
    (h : a.move b id = .ok b') : b'.slots.size = a.slots.size ∧ b'.Laid := by
  obtain ⟨s, here, slots', ⟨rfl, -⟩ | ⟨-, moved⟩⟩ := move_eq_ok slots h
  · exact ⟨slots, laid⟩
  · refine ⟨slots', laid.append id moved.size fun j => ?_⟩
    unfold block?
    rw [moved.found]
    split <;> rfl

/-- By induction over the list, no two of the moved clauses overlap. -/
theorem laid_moveAll {ids : List ClauseId} {a b b' : Arena}
    (slots : b.slots.size = a.slots.size) (laid : b.Laid) (h : a.moveAll b ids = .ok b') :
    b'.Laid := by
  induction ids generalizing b with
  | nil =>
      cases h
      exact laid
  | cons id ids ih =>
      obtain ⟨b₁, moved, h⟩ := bind_eq_ok.mp h
      obtain ⟨slots₁, laid₁⟩ := laid_move slots laid moved
      exact ih slots₁ laid₁ h

/-- What has been moved together lies one behind the other. -/
theorem laid_compact {order : List ClauseId} (h : a.compact order = .ok b) : b.Laid :=
  laid_moveAll (by simp) (.empty _) h

end Arena

end Cdcl
