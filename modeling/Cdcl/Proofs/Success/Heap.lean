import Cdcl.Proofs.Heap
import Cdcl.Proofs.Success

/-!
# Heap operations that succeed

A heap operation fails only if a comparison of two keys does.  For this the recorded
positions have to cover the keys, `Roomy`, which they do in a heap at rest, and the keys
have to be comparable, `Comparable`.

* `failsOnly_siftUp`, `failsOnly_siftDown` — a hole that moves;
* `failsOnly_insert`, `failsOnly_rise`, `failsOnly_pop`, `failsOnly_build` — the operations.
-/

namespace Cdcl.Heap

variable {κ : Type} [DenseKey κ] {less : Less κ} {h h' : Heap κ} {m : κ → Prop}
  {i : Nat} {k : κ} {e : Fault → Prop}

/-- The recorded positions cover the keys of `m`. -/
def Roomy (h : Heap κ) (m : κ → Prop) : Prop := ∀ k, m k → DenseKey.toIndex k < h.positions.size

/-- Comparisons of the keys of `m` fail with faults of the given kind only. -/
def Comparable (e : Fault → Prop) (less : Less κ) (m : κ → Prop) : Prop :=
  ∀ a b, m a → m b → FailsOnly e (less a b)

/-- A position is recorded for every key, so that there is room for it. -/
theorem Holds.roomy (w : h.Holds m) : h.Roomy m := by
  intro k mem
  obtain ⟨i, there⟩ := (w.mem k).mp mem
  have position := (w.indexed k i).mpr there
  unfold position? at position
  rw [Option.join_eq_some_iff] at position
  exact (Array.getElem?_eq_some_iff.mp position).1

theorem Holds.mem_of_key (w : h.Holds m) (there : h.keys[i]? = some k) : m k :=
  (w.mem k).mpr ⟨i, there⟩

omit [DenseKey κ] in
theorem failsOnly_key (inside : i < h.keys.size) : FailsOnly e (h.key i) :=
  .of_eq (key_eq_ok.mpr (Array.getElem?_eq_getElem inside))

/-- A key that has room can be put at a position of the array. -/
theorem failsOnly_place (inside : i < h.keys.size)
    (room : DenseKey.toIndex k < h.positions.size) : FailsOnly e (h.place i k) := by
  obtain ⟨keys, positions⟩ := h
  have inside : i < keys.size := inside
  have room : DenseKey.toIndex k < positions.cells.size := room
  unfold place DenseMap.set
  simp only [inside, room, ↓reduceDIte]
  exact .ok _

/-- Placing a key takes no room away. -/
theorem Roomy.place (room : h.Roomy m) (written : h.place i k = .ok h') : h'.Roomy m := by
  obtain ⟨keys, positions⟩ := h
  unfold Heap.place at written
  simp only at written
  split at written
  · split at written
    next positions' set =>
      cases written
      intro k' mem
      exact (DenseMap.size_set set).symm ▸ room k' mem
    next => cases written
  · cases written

/-! ## Sifting -/

variable [LawfulKey κ] [DecidableEq κ]

/-- By induction over the positions passed, all comparisons are of keys of the heap. -/
theorem failsOnly_siftUp (s : h.Sifting i k m) (room : h.Roomy m)
    (comparable : Comparable e less m) : FailsOnly e (siftUp less h k i) := by
  induction i using Nat.strongRecOn generalizing h with
  | ind i ih =>
    have mem : m k := s.mem_self
    unfold siftUp
    split
    next => exact failsOnly_place s.inside (room k mem)
    next low =>
      have lt : parent i < i := by
        unfold parent
        omega
      refine .bind (failsOnly_key (Nat.lt_trans lt s.inside)) fun above read => ?_
      have there := key_eq_ok.mp read
      have memAbove : m above := s.mem_of_ne (Nat.ne_of_lt lt) there
      refine .bind (comparable k above mem memAbove) fun yes _ => ?_
      refine .ite (fun _ => ?_) fun _ => failsOnly_place s.inside (room k mem)
      refine .bind (failsOnly_place s.inside (room above memAbove)) fun h₁ written => ?_
      exact ih (parent i) lt (s.move there (Nat.ne_of_lt lt) written) (room.place written)

/-- By induction over the positions passed, of which none is beyond the bound. -/
theorem failsOnly_siftDown {bound : Nat} (s : h.Sifting i k m) (room : h.Roomy m)
    (comparable : Comparable e less m) (low : bound ≤ h.keys.size) :
    FailsOnly e (siftDown less bound h k i) := by
  induction away : bound - i using Nat.strongRecOn generalizing h i with
  | ind d ih =>
    have mem : m k := s.mem_self
    have below_ : ∀ {j : Nat} {b : κ}, i < j → h.key j = .ok b → m b := fun deeper read =>
      s.mem_of_ne (Nat.ne_of_gt deeper) (key_eq_ok.mp read)
    unfold siftDown
    split
    next inside =>
      have leftOf : i < left i := by
        unfold left
        omega
      have rightOf : left i < right i := by
        unfold left right
        omega
      have leftIn : left i < h.keys.size := Nat.lt_of_lt_of_le inside low
      have prefers : FailsOnly e (prefersRight less h i) := by
        refine .ite (fun rightIn => ?_) fun _ => .ok _
        refine .bind (failsOnly_key rightIn) fun a readA => ?_
        refine .bind (failsOnly_key leftIn) fun b readB => ?_
        exact comparable a b (below_ (Nat.lt_trans leftOf rightOf) readA) (below_ leftOf readB)
      refine .bind prefers fun toRight chosen => ?_
      have childIn : (if toRight = true then right i else left i) < h.keys.size := by
        split
        next yes =>
          subst yes
          unfold prefersRight at chosen
          split at chosen
          next rightIn => exact rightIn
          next => cases chosen
        next => exact leftIn
      have deeper : i < if toRight = true then right i else left i := by
        split
        · exact Nat.lt_trans leftOf rightOf
        · exact leftOf
      refine .bind (failsOnly_key childIn) fun below read => ?_
      have memBelow := below_ deeper read
      refine .bind (comparable below k memBelow mem) fun yes _ => ?_
      refine .ite (fun _ => ?_) fun _ => failsOnly_place s.inside (room k mem)
      refine .bind (failsOnly_place s.inside (room below memBelow)) fun h₁ written => ?_
      have moved := s.move (key_eq_ok.mp read) (Nat.ne_of_gt deeper) written
      have closer : bound - (if toRight = true then right i else left i) < d := by
        omega
      exact ih _ closer moved (room.place written) ((size_place written).symm ▸ low) rfl
    next => exact failsOnly_place s.inside (room k mem)

theorem failsOnly_sink (w : h.Holds m) (comparable : Comparable e less m)
    (inside : i < h.keys.size) : FailsOnly e (h.sink less i) :=
  .bind (failsOnly_key inside) fun _ read =>
    failsOnly_siftDown (w.sifting (key_eq_ok.mp read)) w.roomy comparable (Nat.le_refl _)

/-- A key of the heap can rise. -/
theorem failsOnly_rise (w : h.Holds m) (comparable : Comparable e less m) (mem : m k) :
    FailsOnly e (h.rise less k) := by
  obtain ⟨i, position⟩ := Option.isSome_iff_exists.mp (w.contains_iff.mpr mem)
  unfold rise
  rw [position]
  have there := (w.indexed k i).mp position
  refine .bind_ok (key_eq_ok.mpr there) ?_
  exact failsOnly_siftUp (w.sifting there) w.roomy comparable

/-! ## Adding and taking out -/

/-- A key that is not in the heap can be inserted, if it can be compared with those that are. -/
theorem failsOnly_insert (w : h.Holds m) (new : ¬m k)
    (comparable : Comparable e less fun k' => k' = k ∨ m k') : FailsOnly e (h.insert less k) := by
  obtain ⟨keys, positions⟩ := h
  have size := DenseMap.size_reserve positions k none
  refine .bind (.ensure ?_) fun _ _ => ?_
  · simp [w.absent.mpr new]
  refine .bind (DenseMap.failsOnly_set (by omega)) fun positions' written => ?_
  refine failsOnly_siftUp (w.sifting_insert new written) ?_ comparable
  intro k' mem
  change DenseKey.toIndex k' < positions'.size
  rw [DenseMap.size_set written, size]
  rcases mem with rfl | old
  · exact Nat.lt_of_lt_of_le (Nat.lt_succ_self _) (Nat.le_max_right _ _)
  · exact Nat.lt_of_lt_of_le (w.roomy k' old) (Nat.le_max_left _ _)

/-- Popping fails only as the comparisons of keys may. -/
theorem failsOnly_pop (w : h.Holds m) (comparable : Comparable e less m) :
    FailsOnly e (h.pop less) := by
  obtain ⟨keys, positions⟩ := h
  unfold pop
  simp only
  split
  next first last readFirst readLast =>
    obtain ⟨rest, rfl⟩ := Array.back?_eq_some_iff.mp readLast
    have roomFirst := w.roomy first (w.mem_of_key readFirst)
    have lastAt : (rest.push last)[rest.size]? = some last := by simp
    have roomLast := w.roomy last (w.mem_of_key lastAt)
    refine .bind (DenseMap.failsOnly_set roomFirst) fun positions' cleared => ?_
    rw [pop_setFront]
    refine .ite (fun _ => .ok _) fun occupied => ?_
    refine .bind (DenseMap.failsOnly_set ?_) fun positions'' moved => ?_
    · rw [DenseMap.size_set cleared]
      exact roomLast
    refine .ite (fun two => ?_) fun _ => .ok _
    have positive : 0 < rest.size := by
      have size : (rest.setIfInBounds 0 last).size = rest.size := Array.size_setIfInBounds
      exact size ▸ Nat.lt_trans Nat.zero_lt_one two
    have top : rest[0]? = some first := by
      rw [Array.getElem?_push, if_neg (Nat.ne_of_lt positive)] at readFirst
      exact readFirst
    have filled := w.refill top cleared moved
    refine .bind (failsOnly_sink filled ?_ (Nat.lt_trans Nat.zero_lt_one two)) fun _ _ => .ok _
    exact fun a b ha hb => comparable a b ha.1 hb.1
  next => exact .ok _

/-! ## Building -/

omit [LawfulKey κ] [DecidableEq κ] in
theorem failsOnly_clearPositions {positions : DenseMap κ (Option Nat)} {ks : List κ}
    (low : ∀ k ∈ ks, DenseKey.toIndex k < positions.size) :
    FailsOnly e (clearPositions positions ks) := by
  induction ks generalizing positions with
  | nil => exact .ok _
  | cons k ks ih =>
      refine .bind (DenseMap.failsOnly_set (low k List.mem_cons_self)) fun positions' written => ?_
      refine ih fun k' later => ?_
      rw [DenseMap.size_set written]
      exact low k' (List.mem_cons_of_mem k later)

omit [LawfulKey κ] [DecidableEq κ] in
theorem failsOnly_fill {ks : List κ} : FailsOnly e (h.fill ks) := by
  induction ks generalizing h with
  | nil => exact .ok _
  | cons k ks ih =>
      obtain ⟨keys, positions⟩ := h
      have size := DenseMap.size_reserve positions k none
      exact .bind (DenseMap.failsOnly_set (by omega)) fun positions' _ => ih

/-- By induction over the positions, every key sinks. -/
theorem failsOnly_heapify {n : Nat} (w : h.Holds m) (comparable : Comparable e less m)
    (low : n ≤ h.keys.size) : FailsOnly e (h.heapify less n) := by
  induction n generalizing h with
  | zero => exact .ok _
  | succ n ih =>
      refine .bind (failsOnly_sink w comparable low) fun h₁ sunk => ?_
      obtain ⟨w₁, size⟩ := holds_sink w sunk
      exact ih w₁ (by omega)

/-- A heap can be built of different keys that can be compared. -/
theorem failsOnly_build {ks : List κ} (w : h.Holds m) (once : ks.Nodup)
    (comparable : Comparable e less (· ∈ ks)) : FailsOnly e (h.build less ks) := by
  refine .bind (failsOnly_clearPositions fun k mem => ?_) fun positions cleared => ?_
  · obtain ⟨i, there⟩ := List.getElem?_of_mem mem
    rw [Array.getElem?_toList] at there
    exact w.roomy k (w.mem_of_key there)
  refine .bind failsOnly_fill fun h₁ filled => ?_
  have w₁ := holds_fill (w.cleared cleared) once (fun _ _ => id) filled
  simp only [false_or] at w₁
  exact failsOnly_heapify w₁ comparable (Nat.div_le_self _ _)

end Cdcl.Heap
