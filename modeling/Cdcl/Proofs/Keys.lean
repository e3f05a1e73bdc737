import Cdcl.DenseMap

/-!
# Lookup in maps over dense keys

A map over dense keys is an array, so a write is seen at all keys with the same
index.  Where keys with the same index are equal, which `LawfulKey` says, a write is
seen at its key and nowhere else, and the map behaves like a function.

* `DenseMap.get_set`, `DenseMap.get_insert_size` — what a write changes;
* `DenseMap.exists_get` — a key can be read if its index is below the size.
-/

namespace Cdcl

/-- Keys with the same index are equal. -/
class LawfulKey (κ : Type) [DenseKey κ] : Prop where
  eq_of_toIndex {a b : κ} : DenseKey.toIndex a = DenseKey.toIndex b → a = b

instance : LawfulKey Var := ⟨fun {a b} same => by cases a; cases b; exact congrArg _ same⟩

/-- Different literals have different codes. -/
theorem Lit.code_inj {a b : Lit} (same : a.code = b.code) : a = b := by
  obtain ⟨⟨v⟩, s⟩ := a
  obtain ⟨⟨w⟩, t⟩ := b
  unfold code at same
  cases s <;> cases t <;> simp_all <;> omega

instance : LawfulKey Lit := ⟨Lit.code_inj⟩

@[simp] theorem Var.toIndex_eq (v : Var) : DenseKey.toIndex v = v.index := rfl

@[simp] theorem Lit.toIndex_eq (l : Lit) : DenseKey.toIndex l = l.code := rfl

theorem Lit.neg_inj {a b : Lit} : -a = -b ↔ a = b :=
  ⟨fun same => by rw [← neg_neg a, same, neg_neg], fun same => same ▸ rfl⟩

/-- No literal is its own negation. -/
theorem Lit.neg_ne (l : Lit) : -l ≠ l := by
  intro same
  have sign := congrArg Lit.sign same
  cases l with
  | mk v s => cases s <;> cases sign

/-- Two literals of one variable are equal or opposite. -/
theorem Lit.eq_or_eq_neg {a b : Lit} (same : a.var = b.var) : a = b ∨ a = -b := by
  obtain ⟨v, s⟩ := a
  obtain ⟨w, t⟩ := b
  cases same
  cases s <;> cases t <;> simp [Neg.neg]

namespace DenseMap

variable {κ α : Type} [DenseKey κ]

/-- The keys that can be read are those below the size. -/
theorem exists_get {m : DenseMap κ α} {k : κ} :
    (∃ x, m.get k = .ok x) ↔ DenseKey.toIndex k < m.size := by
  simp only [get_eq_ok, size]
  rw [← Option.isSome_iff_exists]
  simp

theorem toIndex_lt {m : DenseMap κ α} {k : κ} {x : α} (h : m.get k = .ok x) :
    DenseKey.toIndex k < m.size :=
  exists_get.mp ⟨x, h⟩

/-- A value that is written is read at its key, and the others are as they were. -/
theorem get_set [LawfulKey κ] {m m' : DenseMap κ α} {k j : κ} {x : α}
    (h : m.set k x = .ok m') [Decidable (j = k)] :
    m'.get j = if j = k then .ok x else m.get j := by
  split
  next same => rw [same, get_set_self h]
  next other =>
    exact get_set_ne h fun same => other (LawfulKey.eq_of_toIndex same.symm)

/-- Writing at the first key that is not covered extends the map by that key. -/
theorem get_insert_size [LawfulKey κ] {m : DenseMap κ α} {k j : κ} {pad x : α}
    (fresh : DenseKey.toIndex k = m.size) [Decidable (j = k)] :
    (m.insert k pad x).get j = if j = k then .ok x else m.get j := by
  unfold size at fresh
  unfold insert reserve get
  simp only [fresh, Nat.lt_irrefl, if_false, Nat.add_sub_cancel_left]
  by_cases same : j = k
  · subst same
    simp [fresh]
  · have away : m.cells.size ≠ DenseKey.toIndex j := fun e =>
      same (LawfulKey.eq_of_toIndex (e.symm.trans fresh.symm))
    have kept : (m.cells ++ Array.replicate 1 pad)[DenseKey.toIndex j]? =
        m.cells[DenseKey.toIndex j]? := by
      rw [Array.getElem?_append]
      split
      next => rfl
      next high =>
        rw [Array.getElem?_eq_none (by simp; omega), Array.getElem?_eq_none (by omega)]
    simp only [Array.getElem?_setIfInBounds_ne away, kept, if_neg same]

theorem size_insert (m : DenseMap κ α) (k : κ) (pad x : α) :
    (m.insert k pad x).size = max m.size (DenseKey.toIndex k + 1) := by
  rw [← size_reserve m k pad]
  simp [insert, size]

/-- Reserving room for a key changes no value, and new cells hold the padding. -/
theorem get_reserve (m : DenseMap κ α) (k : κ) (pad : α) {j : κ} {x : α} :
    (m.reserve k pad).get j = .ok x ↔
      m.get j = .ok x ∨
        (x = pad ∧ m.size ≤ DenseKey.toIndex j ∧ DenseKey.toIndex j ≤ DenseKey.toIndex k) := by
  simp only [get_eq_ok, reserve, size]
  split
  next room =>
    refine ⟨.inl, fun h => ?_⟩
    rcases h with old | ⟨-, low, high⟩
    · exact old
    · omega
  next full =>
    by_cases low : DenseKey.toIndex j < m.cells.size
    · simp only [Array.getElem?_append_left low]
      refine ⟨.inl, fun h => ?_⟩
      rcases h with old | ⟨-, high, -⟩
      · exact old
      · omega
    · have right : m.cells.size ≤ DenseKey.toIndex j := by omega
      have none : m.cells[DenseKey.toIndex j]? = none := Array.getElem?_eq_none right
      rw [Array.getElem?_append_right right, none, Array.getElem?_replicate]
      simp only [reduceCtorEq, false_or]
      split
      next inside =>
        rw [Option.some.injEq]
        exact ⟨fun same => ⟨same.symm, right, by omega⟩, fun h => h.1.symm⟩
      next outside =>
        simp only [reduceCtorEq, false_iff, not_and]
        omega

theorem size_modify {m m' : DenseMap κ α} {k : κ} {f : α → α} (h : m.modify k f = .ok m') :
    m'.size = m.size := by
  obtain ⟨_, _, written⟩ := modify_eq_ok.mp h
  exact size_set written

theorem size_mapWithKey (m : DenseMap κ α) (f : κ → α → α) : (m.mapWithKey f).size = m.size := by
  simp [mapWithKey, size]

end DenseMap

end Cdcl
