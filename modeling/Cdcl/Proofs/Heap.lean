import Cdcl.Heap
import Cdcl.Proofs.Keys
import Mathlib.Data.List.Nodup

/-!
# What a heap holds

`Heap.Holds m` says that the keys of the heap are those of which `m` is true, each of
them once and at the position recorded for it.  Nothing is said about the order of the
keys, because comparisons may change from one operation to the next; which keys there
are does not depend on them.

* `Sifting.move`, `Sifting.finish` — a hole that moves, and the key that fills it;
* `Holds.insert_cases`, `Holds.rise_cases`, `Holds.pop_cases`, `Holds.build_cases` — what an
  operation does before a key moves;
* `holds_insert`, `holds_rise`, `holds_pop`, `holds_build` — the operations.
-/

namespace Cdcl.Heap

variable {κ : Type} [DenseKey κ] {less : Less κ} {h h' : Heap κ} {m : κ → Prop}
  {i j : Nat} {k above : κ}

/-- The heap has the keys of which `m` is true. -/
structure Holds (h : Heap κ) (m : κ → Prop) : Prop where
  indexed : h.Indexed
  mem : ∀ k, m k ↔ ∃ i : Nat, h.keys[i]? = some k

/-- Position `i` is a hole to be filled with `k`; then the heap has the keys of `m`. -/
structure Sifting (h : Heap κ) (i : Nat) (k : κ) (m : κ → Prop) : Prop where
  inside : i < h.keys.size
  away : ∀ {j}, h.keys[j]? = some k → j = i
  position : ∀ {j k'}, k' ≠ k → (h.position? k' = some j ↔ j ≠ i ∧ h.keys[j]? = some k')
  mem : ∀ k', m k' ↔ k' = k ∨ ∃ j : Nat, j ≠ i ∧ h.keys[j]? = some k'

theorem Holds.contains_iff (w : h.Holds m) : h.contains k = true ↔ m k := by
  rw [w.mem, contains, Option.isSome_iff_exists]
  exact exists_congr fun i => w.indexed k i

omit [DenseKey κ] in
theorem key_eq_ok : h.key i = .ok k ↔ h.keys[i]? = some k := by
  unfold key
  split <;> simp_all

/-- The empty heap has no keys. -/
theorem holds_empty (none : ∀ k, ¬m k) : (empty : Heap κ).Holds m := by
  constructor
  · intro k i
    simp [empty, position?, DenseMap.empty]
  · intro k
    simp [empty, none]

/-- A key stands at one position only. -/
theorem Holds.unique (w : h.Holds m) (there : h.keys[i]? = some k)
    (there' : h.keys[j]? = some k) : i = j := by
  have first := (w.indexed k i).mpr there
  have second := (w.indexed k j).mpr there'
  exact Option.some.inj (first.symm.trans second)

omit [DenseKey κ] in
theorem mem_keys_iff : k ∈ h.keys.toList ↔ ∃ i : Nat, h.keys[i]? = some k := by
  simp only [List.mem_iff_getElem?, Array.getElem?_toList]

theorem Holds.mem_keys (w : h.Holds m) : k ∈ h.keys.toList ↔ m k := by
  rw [w.mem, mem_keys_iff]

/-- No key stands in the array twice. -/
theorem Holds.nodup (w : h.Holds m) : h.keys.toList.Nodup := by
  rw [List.nodup_iff_getElem?_ne_getElem?]
  intro i j before within same
  rw [List.getElem?_eq_getElem within, Array.getElem?_toList] at same
  have there : h.keys[j]? = some h.keys.toList[j] := by
    rw [← Array.getElem?_toList, List.getElem?_eq_getElem within]
  exact absurd (w.unique same there) (Nat.ne_of_lt before)

/-- A key may be lifted out of its position, which leaves a hole. -/
theorem Holds.sifting (w : h.Holds m) (there : h.keys[i]? = some k) : h.Sifting i k m where
  inside := (Array.getElem?_eq_some_iff.mp there).1
  away there' := w.unique there' there
  position {j k'} other := by
    rw [w.indexed k' j]
    refine ⟨fun there' => ⟨?_, there'⟩, And.right⟩
    intro same
    subst same
    exact other (Option.some.inj (there'.symm.trans there))
  mem k' := by
    rw [w.mem]
    constructor
    · intro given
      rcases given with ⟨j, there'⟩
      by_cases same : j = i
      · subst same
        exact .inl (Option.some.inj (there'.symm.trans there))
      · exact .inr ⟨j, same, there'⟩
    · intro given
      rcases given with rfl | ⟨j, -, there'⟩
      · exact ⟨i, there⟩
      · exact ⟨j, there'⟩

/-- The key that is to fill the hole is one of the keys. -/
theorem Sifting.mem_self (s : h.Sifting i k m) : m k := (s.mem k).mpr (.inl rfl)

theorem Sifting.mem_of_ne (s : h.Sifting i k m) (ne : j ≠ i) (there : h.keys[j]? = some above) :
    m above := (s.mem above).mpr (.inr ⟨j, ne, there⟩)

/-- Making room for a key records no position. -/
theorem position?_reserve {keys keys' : Array κ} {positions : DenseMap κ (Option Nat)}
    {k' : κ} : position? ⟨keys', positions.reserve k none⟩ k' =
      position? ⟨keys, positions⟩ k' := by
  apply Option.ext
  intro i
  have read : ∀ {q : DenseMap κ (Option Nat)}, (q.cells[DenseKey.toIndex k']?).join = some i ↔
      q.get k' = .ok (some i) := by
    intro q
    rw [Option.join_eq_some_iff, DenseMap.get_eq_ok]
  unfold position?
  rw [read, read, DenseMap.get_reserve]
  simp

variable [LawfulKey κ] [DecidableEq κ]

/-- Recording a position changes that of one key. -/
theorem position?_set {keys : Array κ} {positions positions' : DenseMap κ (Option Nat)}
    {x : Option Nat} (written : positions.set k x = .ok positions') (k' : κ) :
    position? ⟨keys, positions'⟩ k' =
      if k' = k then x else position? ⟨keys, positions⟩ k' := by
  unfold position?
  obtain ⟨inside, rfl⟩ := DenseMap.set_eq_ok.mp written
  have size : DenseKey.toIndex k < positions.cells.size := inside
  split
  next same =>
    subst same
    simp [size]
  next other =>
    have ne : DenseKey.toIndex k ≠ DenseKey.toIndex k' := fun e =>
      other (LawfulKey.eq_of_toIndex e.symm)
    rw [Array.getElem?_setIfInBounds_ne ne]

/-- Placing a key writes it to the array, and its position to the map. -/
theorem place_eq_ok (written : h.place i k = .ok h') : i < h.keys.size ∧
    h'.keys = h.keys.setIfInBounds i k ∧
    ∀ k', h'.position? k' = if k' = k then some i else h.position? k' := by
  obtain ⟨keys, positions⟩ := h
  unfold place at written
  simp only at written
  split at written
  next inside =>
    split at written
    next positions' set =>
      cases written
      refine ⟨inside, ?_, position?_set set⟩
      simp [Array.setIfInBounds, inside]
    next => cases written
  next => cases written

/-- What stands where, once a key has been placed. -/
theorem getElem?_place (written : h.place i k = .ok h') {k' : κ} :
    h'.keys[j]? = some k' ↔ (j = i ∧ k' = k) ∨ (j ≠ i ∧ h.keys[j]? = some k') := by
  obtain ⟨inside, keys, -⟩ := place_eq_ok written
  rw [keys, Array.getElem?_setIfInBounds]
  by_cases same : i = j
  · subst same
    simp [inside, eq_comm]
  · simp [same, Ne.symm same]

theorem size_place (written : h.place i k = .ok h') : h'.keys.size = h.keys.size := by
  obtain ⟨-, keys, -⟩ := place_eq_ok written
  rw [keys, Array.size_setIfInBounds]

/-- A key that is placed in the hole fills it. -/
theorem Sifting.finish (s : h.Sifting i k m) (written : h.place i k = .ok h') :
    h'.Holds m := by
  obtain ⟨-, -, position⟩ := place_eq_ok written
  have at_ : ∀ {j k'}, h'.keys[j]? = some k' ↔
      (j = i ∧ k' = k) ∨ (j ≠ i ∧ h.keys[j]? = some k') := getElem?_place written
  constructor
  · intro k' j
    rw [position, at_]
    split
    next same =>
      subst same
      constructor
      · intro e
        exact .inl ⟨(Option.some.inj e).symm, rfl⟩
      · intro given
        rcases given with ⟨rfl, -⟩ | ⟨ne, there⟩
        · rfl
        · exact absurd (s.away there) ne
    next other =>
      rw [s.position other]
      simp [other]
  · intro k'
    rw [s.mem]
    constructor
    · intro given
      rcases given with rfl | ⟨j, ne, there⟩
      · exact ⟨i, at_.mpr (.inl ⟨rfl, rfl⟩)⟩
      · exact ⟨j, at_.mpr (.inr ⟨ne, there⟩)⟩
    · intro given
      rcases given with ⟨j, there⟩
      rcases at_.mp there with ⟨-, same⟩ | old
      · exact .inl same
      · exact .inr ⟨j, old⟩

/-- Another key may be moved into the hole, which is then where that one stood. -/
theorem Sifting.move (s : h.Sifting i k m) (there : h.keys[j]? = some above) (ne : j ≠ i)
    (written : h.place i above = .ok h') : h'.Sifting j k m := by
  obtain ⟨inside, keys, position⟩ := place_eq_ok written
  have at_ : ∀ {j' k'}, h'.keys[j']? = some k' ↔
      (j' = i ∧ k' = above) ∨ (j' ≠ i ∧ h.keys[j']? = some k') := getElem?_place written
  have aboveNe : above ≠ k := by
    intro same
    subst same
    exact ne (s.away there)
  have unique : ∀ {j'}, j' ≠ i → h.keys[j']? = some above → j' = j := by
    intro j' ne' there'
    have first := (s.position aboveNe).mpr ⟨ne, there⟩
    have second := (s.position aboveNe).mpr ⟨ne', there'⟩
    exact Option.some.inj (second.symm.trans first)
  refine ⟨?_, ?_, ?_, ?_⟩
  · rw [keys, Array.size_setIfInBounds]
    exact (Array.getElem?_eq_some_iff.mp there).1
  · intro j' there'
    rcases at_.mp there' with ⟨-, same⟩ | ⟨ne', old⟩
    · exact absurd same.symm aboveNe
    · exact absurd (s.away old) ne'
  · intro j' k' other
    rw [position, at_]
    split
    next same =>
      subst same
      constructor
      · intro e
        cases e
        exact ⟨ne.symm, .inl ⟨rfl, rfl⟩⟩
      · intro given
        rcases given with ⟨away, ⟨rfl, -⟩ | ⟨ne', old⟩⟩
        · rfl
        · exact absurd (unique ne' old) away
    next notAbove =>
      rw [s.position other]
      constructor
      · intro given
        rcases given with ⟨ne', old⟩
        refine ⟨?_, .inr ⟨ne', old⟩⟩
        intro same
        subst same
        exact notAbove (Option.some.inj (old.symm.trans there))
      · intro given
        rcases given with ⟨-, ⟨-, same⟩ | old⟩
        · exact absurd same notAbove
        · exact old
  · intro k'
    rw [s.mem]
    refine or_congr_right ⟨?_, ?_⟩
    · intro given
      rcases given with ⟨j', ne', old⟩
      by_cases same : j' = j
      · subst same
        cases there.symm.trans old
        exact ⟨i, ne.symm, at_.mpr (.inl ⟨rfl, rfl⟩)⟩
      · exact ⟨j', same, at_.mpr (.inr ⟨ne', old⟩)⟩
    · intro given
      rcases given with ⟨j', -, there'⟩
      rcases at_.mp there' with ⟨-, rfl⟩ | old
      · exact ⟨j, ne, there⟩
      · exact ⟨j', old⟩

/-! ## Sifting -/

/-- By induction over the positions passed, keys are moved down until the hole is filled. -/
theorem holds_siftUp (s : h.Sifting i k m) (done : siftUp less h k i = .ok h') :
    h'.Holds m := by
  induction i using Nat.strongRecOn generalizing h with
  | ind i ih =>
    unfold siftUp at done
    split at done
    next top =>
      subst top
      exact s.finish done
    next low =>
      obtain ⟨above, read, done⟩ := bind_eq_ok.mp done
      obtain ⟨yes, -, done⟩ := bind_eq_ok.mp done
      have lt : parent i < i := by
        unfold parent
        omega
      split at done
      · obtain ⟨h₁, written, done⟩ := bind_eq_ok.mp done
        exact ih (parent i) lt (s.move (key_eq_ok.mp read) (Nat.ne_of_lt lt) written) done
      · exact s.finish done

/-- By induction over the positions passed, keys are moved up until the hole is filled. -/
theorem holds_siftDown {bound : Nat} (s : h.Sifting i k m)
    (done : siftDown less bound h k i = .ok h') :
    h'.Holds m ∧ h'.keys.size = h.keys.size := by
  induction left : bound - i using Nat.strongRecOn generalizing h i with
  | ind d ih =>
    unfold siftDown at done
    split at done
    next inside =>
      obtain ⟨toRight, -, done⟩ := bind_eq_ok.mp done
      obtain ⟨below, read, done⟩ := bind_eq_ok.mp done
      obtain ⟨yes, -, done⟩ := bind_eq_ok.mp done
      have deeper : i < if toRight = true then right i else Heap.left i := by
        simp only [right, Heap.left]
        split <;> omega
      split at done
      · obtain ⟨h₁, written, done⟩ := bind_eq_ok.mp done
        have moved := s.move (key_eq_ok.mp read) (Nat.ne_of_gt deeper) written
        have closer : bound - (if toRight = true then right i else Heap.left i) < d := by
          simp only [Heap.left] at inside
          omega
        obtain ⟨holds, size⟩ := ih _ closer moved done rfl
        exact ⟨holds, size.trans (size_place written)⟩
      · exact ⟨s.finish done, size_place done⟩
    next => exact ⟨s.finish done, size_place done⟩

theorem holds_sink (w : h.Holds m) (done : h.sink less i = .ok h') :
    h'.Holds m ∧ h'.keys.size = h.keys.size := by
  obtain ⟨k, read, done⟩ := bind_eq_ok.mp done
  exact holds_siftDown (w.sifting (key_eq_ok.mp read)) done

omit [LawfulKey κ] [DecidableEq κ] in
/-- A key rises from where it stands. -/
theorem Holds.rise_cases (w : h.Holds m) (done : h.rise less k = .ok h') :
    ∃ i : Nat, h.keys[i]? = some k ∧ siftUp less h k i = .ok h' := by
  unfold rise at done
  split at done
  next i position =>
    obtain ⟨k', read, done⟩ := bind_eq_ok.mp done
    have there := (w.indexed k i).mp position
    cases there.symm.trans (key_eq_ok.mp read)
    exact ⟨i, there, done⟩
  next => cases done

theorem holds_rise (w : h.Holds m) (done : h.rise less k = .ok h') : h'.Holds m := by
  obtain ⟨i, there, done⟩ := w.rise_cases done
  exact holds_siftUp (w.sifting there) done

/-! ## Adding and taking out -/

omit [DenseKey κ] [LawfulKey κ] [DecidableEq κ] in
/-- What stands where, once a key has been put behind the others. -/
theorem getElem?_push {keys : Array κ} {k' : κ} :
    (keys.push k)[j]? = some k' ↔ (j = keys.size ∧ k' = k) ∨ keys[j]? = some k' := by
  rw [Array.getElem?_push]
  split
  next same =>
    subst same
    simp [eq_comm]
  next ne => simp [ne]

/-- A new key is put at the end, from where it rises. -/
theorem Holds.sifting_insert {keys : Array κ} {positions positions' : DenseMap κ (Option Nat)}
    (w : (⟨keys, positions⟩ : Heap κ).Holds m) (new : ¬m k)
    (written : (positions.reserve k none).set k (some keys.size) = .ok positions') :
    (⟨keys.push k, positions'⟩ : Heap κ).Sifting keys.size k fun k' => k' = k ∨ m k' := by
  have elsewhere : ∀ {j : Nat} {k' : κ}, keys[j]? = some k' → k' ≠ k ∧ j ≠ keys.size := by
    intro j k' there
    refine ⟨?_, Nat.ne_of_lt (Array.getElem?_eq_some_iff.mp there).1⟩
    intro same
    subst same
    exact new ((w.mem k').mpr ⟨j, there⟩)
  -- a key of the heap stands in front of the new one
  have old : ∀ {j : Nat} {k' : κ}, keys[j]? = some k' ↔
      j ≠ keys.size ∧ (keys.push k)[j]? = some k' := by
    intro j k'
    rw [getElem?_push]
    constructor
    · intro there
      exact ⟨(elsewhere there).2, .inr there⟩
    · intro given
      rcases given with ⟨ne, last | there⟩
      · exact absurd last.1 ne
      · exact there
  refine ⟨?_, ?_, ?_, ?_⟩
  · simp
  · intro j there
    rcases getElem?_push.mp there with last | there
    · exact last.1
    · exact absurd rfl (elsewhere there).1
  · intro j k' other
    rw [position?_set written, if_neg other, position?_reserve, w.indexed k' j]
    exact old
  · intro k'
    rw [w.mem]
    exact or_congr_right (exists_congr fun j => old)

omit [LawfulKey κ] [DecidableEq κ] in
theorem Holds.absent {keys : Array κ} {positions : DenseMap κ (Option Nat)}
    (w : (⟨keys, positions⟩ : Heap κ).Holds m) :
    contains ⟨keys, positions.reserve k none⟩ k = false ↔ ¬m k := by
  rw [← w.contains_iff]
  unfold contains
  rw [position?_reserve, Bool.not_eq_true]

/-- A new key rises from behind the others. -/
theorem Holds.insert_cases (w : h.Holds m) (done : h.insert less k = .ok h') :
    ∃ h₁ : Heap κ, h₁.keys = h.keys.push k ∧
      h₁.Sifting h.keys.size k (fun k' => k' = k ∨ m k') ∧
      siftUp less h₁ k h.keys.size = .ok h' := by
  obtain ⟨keys, positions⟩ := h
  obtain ⟨_, absent, done⟩ := bind_eq_ok.mp done
  obtain ⟨positions', written, done⟩ := bind_eq_ok.mp done
  have absent : contains ⟨keys, positions.reserve k none⟩ k = false := by
    simpa using ensure_eq_ok.mp absent
  exact ⟨_, rfl, w.sifting_insert (w.absent.mp absent) written, done⟩

theorem holds_insert (w : h.Holds m) (done : h.insert less k = .ok h') :
    h'.Holds fun k' => k' = k ∨ m k' := by
  obtain ⟨h₁, -, sifting, done⟩ := w.insert_cases done
  exact holds_siftUp sifting done

section Pop

variable {rest : Array κ} {first last : κ} {positions positions' : DenseMap κ (Option Nat)}

/-- Taking the only key out. -/
theorem Holds.vacate (w : (⟨#[first], positions⟩ : Heap κ).Holds m)
    (cleared : positions.set first none = .ok positions') :
    (⟨#[], positions'⟩ : Heap κ).Holds fun k => m k ∧ k ≠ first := by
  have only : ∀ k, m k → k = first := by
    intro k mem
    obtain ⟨j, there⟩ := (w.mem k).mp mem
    obtain ⟨inside, e⟩ := Array.getElem?_eq_some_iff.mp there
    have zero : j = 0 := by simpa using inside
    subst zero
    exact e.symm
  constructor
  · intro k j
    rw [position?_set cleared]
    split
    next => simp
    next other =>
      have absent : position? ⟨#[], positions⟩ k ≠ some j := by
        intro there
        exact other (only k ((w.mem k).mpr ⟨j, (w.indexed k j).mp there⟩))
      simpa using absent
  · intro k
    constructor
    · intro given
      rcases given with ⟨mem, other⟩
      exact absurd (only k mem) other
    · intro given
      rcases given with ⟨j, there⟩
      simp at there

/-- Taking the first key out leaves a hole, which the last key is to fill. -/
theorem Holds.behead (w : (⟨rest.push last, positions⟩ : Heap κ).Holds m)
    (top : rest[0]? = some first) (cleared : positions.set first none = .ok positions') :
    (⟨rest, positions'⟩ : Heap κ).Sifting 0 last fun k => m k ∧ k ≠ first := by
  have at_ : ∀ {j : Nat} {k : κ}, (rest.push last)[j]? = some k ↔
      (j = rest.size ∧ k = last) ∨ rest[j]? = some k := getElem?_push
  have lastAt := at_.mpr (.inl ⟨rfl, rfl⟩)
  have firstAt := at_.mpr (.inr top)
  have positive := (Array.getElem?_eq_some_iff.mp top).1
  refine ⟨positive, ?_, ?_, ?_⟩
  · intro j there
    have same : j = rest.size := w.unique (at_.mpr (.inr there)) lastAt
    have inside : j < rest.size := (Array.getElem?_eq_some_iff.mp there).1
    omega
  · intro j k other
    rw [position?_set cleared]
    split
    next same =>
      subst same
      constructor
      · intro none
        cases none
      · intro given
        rcases given with ⟨ne, there⟩
        exact absurd (w.unique (at_.mpr (.inr there)) firstAt) ne
    next notFirst =>
      change position? ⟨rest.push last, positions⟩ k = some j ↔ _
      rw [w.indexed k j]
      constructor
      · intro there
        refine ⟨?_, (at_.mp there).resolve_left fun e => other e.2⟩
        intro same
        subst same
        exact notFirst (Option.some.inj (there.symm.trans firstAt))
      · intro given
        rcases given with ⟨-, there⟩
        exact at_.mpr (.inr there)
  · intro k
    rw [w.mem]
    constructor
    · intro given
      rcases given with ⟨⟨j, there⟩, notFirst⟩
      rcases at_.mp there with ⟨-, same⟩ | inRest
      · exact .inl same
      · refine .inr ⟨j, ?_, inRest⟩
        intro same
        subst same
        exact notFirst (Option.some.inj (inRest.symm.trans top))
    · intro given
      rcases given with rfl | ⟨j, ne, there⟩
      · refine ⟨⟨_, lastAt⟩, ?_⟩
        intro same
        subst same
        have := w.unique lastAt firstAt
        omega
      · refine ⟨⟨j, at_.mpr (.inr there)⟩, ?_⟩
        intro same
        subst same
        exact ne (w.unique (at_.mpr (.inr there)) firstAt)

/-- The last key takes the place of the first one. -/
theorem Holds.refill {positions'' : DenseMap κ (Option Nat)}
    (w : (⟨rest.push last, positions⟩ : Heap κ).Holds m) (top : rest[0]? = some first)
    (cleared : positions.set first none = .ok positions')
    (moved : positions'.set last (some 0) = .ok positions'') :
    (⟨rest.setIfInBounds 0 last, positions''⟩ : Heap κ).Holds fun k => m k ∧ k ≠ first := by
  have positive : 0 < rest.size := (Array.getElem?_eq_some_iff.mp top).1
  have placed : place (⟨rest, positions'⟩ : Heap κ) 0 last =
      .ok ⟨rest.setIfInBounds 0 last, positions''⟩ := by
    simp [place, positive, moved, Array.setIfInBounds]
  exact (w.behead top cleared).finish placed

omit [DenseKey κ] [LawfulKey κ] [DecidableEq κ] in
/-- The last key of a row is put in front, and its own place is given up. -/
theorem pop_setFront (rest : Array κ) (last : κ) :
    ((rest.push last).setIfInBounds 0 last).pop = rest.setIfInBounds 0 last := by
  apply Array.ext'
  simp only [Array.toList_pop, Array.toList_setIfInBounds, Array.toList_push]
  cases rest.toList with
  | nil => rfl
  | cons a as =>
      change (last :: as ++ [last]).dropLast = last :: as
      exact List.dropLast_concat

/-- What popping does: nothing if there is no key, and otherwise the key on top is taken out.
The last key takes its place, from where it sinks unless it is alone. -/
theorem Holds.pop_cases {top : Option κ} (w : h.Holds m) (done : h.pop less = .ok (h', top)) :
    (h.keys = #[] ∧ h' = h ∧ top = none) ∨
      ∃ (k : κ) (h₁ : Heap κ), top = some k ∧ h.keys[0]? = some k ∧
        h₁.Holds (fun k' => m k' ∧ k' ≠ k) ∧ h₁.keys.size < h.keys.size ∧
        (∀ (i : Nat) (k' : κ), 0 < i → h₁.keys[i]? = some k' → h.keys[i]? = some k') ∧
        ((h₁.keys.size ≤ 1 ∧ h' = h₁) ∨ h₁.sink less 0 = .ok h') := by
  obtain ⟨keys, positions⟩ := h
  unfold pop at done
  simp only at done
  split at done
  next first last readFirst readLast =>
    obtain ⟨rest, rfl⟩ := Array.back?_eq_some_iff.mp readLast
    obtain ⟨positions', cleared, done⟩ := bind_eq_ok.mp done
    rw [pop_setFront] at done
    refine .inr ⟨first, ?_⟩
    split at done
    next vacant =>
      have none : rest = #[] := by simpa using vacant
      subst none
      cases done
      have same : last = first := by simpa using readFirst
      subst same
      exact ⟨_, rfl, readFirst, w.vacate cleared, Nat.zero_lt_one, by simp,
        .inl ⟨Nat.zero_le 1, rfl⟩⟩
    next occupied =>
      have positive : 0 < rest.size := by
        apply Nat.pos_of_ne_zero
        intro zero
        exact occupied (by simp [Array.eq_empty_of_size_eq_zero zero])
      have front : rest[0]? = some first := by
        rw [Array.getElem?_push, if_neg (Nat.ne_of_lt positive)] at readFirst
        exact readFirst
      obtain ⟨positions'', moved, done⟩ := bind_eq_ok.mp done
      have filled := w.refill front cleared moved
      have smaller : (rest.setIfInBounds 0 last).size < (rest.push last).size := by simp
      have kept : ∀ (i : Nat) (k' : κ), 0 < i → (rest.setIfInBounds 0 last)[i]? = some k' →
          (rest.push last)[i]? = some k' := by
        intro i k' behind there
        rw [Array.getElem?_setIfInBounds_ne (Nat.ne_of_lt behind)] at there
        rw [Array.getElem?_push_lt (Array.getElem?_eq_some_iff.mp there).1]
        exact congrArg some (Array.getElem?_eq_some_iff.mp there).2
      split at done
      next =>
        obtain ⟨h₁, sunk, done⟩ := bind_eq_ok.mp done
        cases done
        exact ⟨_, rfl, readFirst, filled, smaller, kept, .inr sunk⟩
      next single =>
        cases done
        exact ⟨_, rfl, readFirst, filled, smaller, kept, .inl ⟨Nat.not_lt.mp single, rfl⟩⟩
  next vacant =>
    cases done
    refine .inl ⟨Array.eq_empty_of_size_eq_zero ?_, rfl, rfl⟩
    apply Nat.eq_zero_of_not_pos
    intro positive
    refine vacant keys[0] keys[keys.size - 1] (Array.getElem?_eq_getElem positive) ?_
    rw [Array.back?_eq_getElem?]
    exact Array.getElem?_eq_getElem (Nat.sub_lt positive Nat.zero_lt_one)

/-- Popping takes the key out that it answers with, and answers with no key only if the
heap has none. -/
theorem holds_pop {top : Option κ} (w : h.Holds m) (done : h.pop less = .ok (h', top)) :
    (∀ k, top = some k → m k ∧ h'.Holds (fun k' => m k' ∧ k' ≠ k) ∧
      h'.keys.size < h.keys.size) ∧ (top = none → h' = h ∧ ∀ k, ¬m k) := by
  rcases w.pop_cases done with ⟨vacant, rfl, rfl⟩ |
    ⟨k, h₁, rfl, first, holds, smaller, -, ⟨-, rfl⟩ | sunk⟩
  · refine ⟨fun _ none => absurd none nofun, fun _ => ⟨rfl, fun k mem => ?_⟩⟩
    obtain ⟨j, there⟩ := (w.mem k).mp mem
    simp [vacant] at there
  · refine ⟨fun k' same => ?_, nofun⟩
    cases same
    exact ⟨(w.mem k).mpr ⟨0, first⟩, holds, smaller⟩
  · refine ⟨fun k' same => ?_, nofun⟩
    cases same
    obtain ⟨holds', size⟩ := holds_sink holds sunk
    exact ⟨(w.mem k).mpr ⟨0, first⟩, holds', size ▸ smaller⟩

end Pop

/-! ## Building -/

/-- The positions of the listed keys are forgotten. -/
theorem clearPositions_get {ks : List κ} {positions positions' : DenseMap κ (Option Nat)}
    (done : clearPositions positions ks = .ok positions') (k : κ) :
    position? ⟨#[], positions'⟩ k = if k ∈ ks then none else position? ⟨#[], positions⟩ k := by
  induction ks generalizing positions with
  | nil =>
      cases done
      simp
  | cons a ks ih =>
      obtain ⟨positions₁, cleared, done⟩ := bind_eq_ok.mp done
      rw [ih done, position?_set cleared]
      by_cases same : k = a <;> simp [same]

/-- Filling a heap with keys that it does not have. -/
theorem holds_fill {ks : List κ} (w : h.Holds m) (once : ks.Nodup)
    (new : ∀ k ∈ ks, ¬m k) (done : h.fill ks = .ok h') :
    h'.Holds fun k => m k ∨ k ∈ ks := by
  induction ks generalizing h m with
  | nil =>
      cases done
      simpa using w
  | cons a ks ih =>
      obtain ⟨keys, positions⟩ := h
      obtain ⟨positions', written, done⟩ := bind_eq_ok.mp done
      obtain ⟨away, once⟩ := List.nodup_cons.mp once
      have elsewhere : ∀ {j : Nat} {k : κ}, keys[j]? = some k → k ≠ a ∧ j ≠ keys.size := by
        intro j k there
        refine ⟨?_, Nat.ne_of_lt (Array.getElem?_eq_some_iff.mp there).1⟩
        intro same
        subst same
        exact new k List.mem_cons_self ((w.mem k).mpr ⟨j, there⟩)
      have at_ : ∀ {j : Nat} {k : κ}, (keys.push a)[j]? = some k ↔
          (j = keys.size ∧ k = a) ∨ keys[j]? = some k := getElem?_push
      have w' : (⟨keys.push a, positions'⟩ : Heap κ).Holds fun k => m k ∨ k = a := by
        constructor
        · intro k j
          change _ ↔ (keys.push a)[j]? = some k
          rw [position?_set written, at_]
          split
          next same =>
            subst same
            constructor
            · intro e
              exact .inl ⟨(Option.some.inj e).symm, rfl⟩
            · intro given
              rcases given with ⟨rfl, -⟩ | there
              · rfl
              · exact absurd rfl (elsewhere there).1
          next other =>
            rw [position?_reserve, w.indexed k j]
            simp [other]
        · intro k
          change _ ↔ ∃ j : Nat, (keys.push a)[j]? = some k
          rw [w.mem]
          constructor
          · intro given
            rcases given with ⟨j, there⟩ | rfl
            · exact ⟨j, at_.mpr (.inr there)⟩
            · exact ⟨_, at_.mpr (.inl ⟨rfl, rfl⟩)⟩
          · intro given
            rcases given with ⟨j, there⟩
            rcases at_.mp there with ⟨-, same⟩ | old
            · exact .inr same
            · exact .inl ⟨j, old⟩
      have filled := ih w' once ?_ done
      · simpa [or_assoc] using filled
      · intro k inside given
        rcases given with old | rfl
        · exact new k (List.mem_cons_of_mem _ inside) old
        · exact away inside

/-- By induction over the positions, from the last that has a key below it. -/
theorem holds_heapify {n : Nat} (w : h.Holds m) (done : h.heapify less n = .ok h') :
    h'.Holds m := by
  induction n generalizing h with
  | zero =>
      cases done
      exact w
  | succ n ih =>
      obtain ⟨h₁, sunk, done⟩ := bind_eq_ok.mp done
      exact ih (holds_sink w sunk).1 done

/-- Once the positions of all keys are forgotten, no key is left. -/
theorem Holds.cleared {positions : DenseMap κ (Option Nat)} (w : h.Holds m)
    (done : clearPositions h.positions h.keys.toList = .ok positions) :
    (⟨#[], positions⟩ : Heap κ).Holds fun _ => False := by
  constructor
  · intro k i
    have position := clearPositions_get done k
    constructor
    · intro there
      rw [position] at there
      split at there
      next => cases there
      next absent =>
        have key := (w.indexed k i).mp there
        exact absurd (Array.mem_toList_iff.mpr (Array.mem_of_getElem? key)) absent
    · intro there
      simp at there
  · intro k
    simp

/-- The given keys are put in a row, of which the first half sinks. -/
theorem Holds.build_cases {ks : List κ} (w : h.Holds m) (once : ks.Nodup)
    (done : h.build less ks = .ok h') :
    ∃ h₁ : Heap κ, h₁.Holds (· ∈ ks) ∧ h₁.heapify less (h₁.size / 2) = .ok h' := by
  obtain ⟨positions, cleared, done⟩ := bind_eq_ok.mp done
  obtain ⟨h₁, filled, done⟩ := bind_eq_ok.mp done
  have w₁ := holds_fill (w.cleared cleared) once (fun _ _ => id) filled
  simp only [false_or] at w₁
  exact ⟨h₁, w₁, done⟩

theorem holds_build {ks : List κ} (w : h.Holds m) (once : ks.Nodup)
    (done : h.build less ks = .ok h') : h'.Holds (· ∈ ks) := by
  obtain ⟨h₁, w₁, done⟩ := w.build_cases once done
  exact holds_heapify w₁ done

end Cdcl.Heap
