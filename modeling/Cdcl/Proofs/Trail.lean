import Cdcl.Trail
import Cdcl.Proofs.Keys
import Mathlib.Data.List.Nodup

/-!
# Well-formed trails

The trail records an assignment in two ways: as the list of the literals made true,
and as a value for each variable.  `Trail.WF` says that the two agree, that no variable
is assigned twice, and that the level recorded for a literal is the one in which the
literal stands.

Levels are read off positions: `Trail.cut k` is where level `k` ends, and
`Trail.upTo k` is what was assigned by then.  A level that has not been opened ends
where the trail ends.

* `WF.holds_iff`, `WF.fails_iff` — the value of a literal is membership in the list;
* `WF.mem_upTo_iff` — a literal is in `upTo k` if its level is at most `k`;
* `WF.push`, `WF.openLevel`, `CutBack.wf`, `WF.addVar` — the operations keep trails
  well-formed.
-/

namespace Cdcl

theorem Truth.ofBool_ne_unknown (b : Bool) : Truth.ofBool b ≠ .unknown := by
  cases b <;> decide

theorem Truth.ofBool_inj {a b : Bool} : Truth.ofBool a = .ofBool b ↔ a = b := by
  cases a <;> cases b <;> decide

theorem Truth.eq_ofBool {t : Truth} (known : t ≠ .unknown) : ∃ b, t = .ofBool b := by
  cases t with
  | holds => exact ⟨true, rfl⟩
  | fails => exact ⟨false, rfl⟩
  | unknown => exact absurd rfl known

namespace Trail

/-- The position at which a level ends. -/
def cut (t : Trail) (k : Nat) : Nat := (t.marks[k]?).getD t.lits.size

/-- The literals assigned up to the end of a level. -/
def upTo (t : Trail) (k : Nat) : List Lit := t.lits.toList.take (t.cut k)

/-- The values are those of the literals on the list. -/
def Held (t : Trail) : Prop :=
  ∀ {v : Var} {b : Bool}, t.values.get v = .ok (.ofBool b) ↔ (⟨v, b⟩ : Lit) ∈ t.lits

/-- The list of literals, the values, the levels and the marks agree. -/
structure WF (t : Trail) : Prop where
  sizes : t.origins.size = t.values.size
  held : t.Held
  once : (t.lits.toList.map Lit.var).Nodup
  level : ∀ {i : Nat} {l : Lit} {o : Origin}, t.lits[i]? = some l →
    t.origins.get l.var = .ok o → ∀ k, o.level ≤ k ↔ i < t.cut k
  sorted : ∀ {j k : Nat}, j ≤ k → t.cut j ≤ t.cut k
  head : t.head ≤ t.lits.size

/-- The literals of the root level are those up to its end. -/
theorem root_eq (t : Trail) : t.root = t.upTo 0 := by
  unfold root upTo cut
  split
  next h => simp [h]
  next h => simp [h, ← Array.length_toList]

/-- A literal has the value of its variable, turned round if it is negative. -/
theorem litValue_eq_ok {t : Trail} {l : Lit} {x : Truth} :
    t.litValue l = .ok x ↔ ∃ y, t.values.get l.var = .ok y ∧ y.flipIf (!l.sign) = x := by
  simp [litValue, bind_eq_ok, Pure.pure, Except.pure]

theorem levelOf_eq_ok {t : Trail} {v : Var} {k : Nat} :
    t.levelOf v = .ok k ↔ ∃ o, t.origins.get v = .ok o ∧ o.level = k := by
  simp [levelOf, bind_eq_ok, Pure.pure, Except.pure]

theorem reasonOf_eq_ok {t : Trail} {v : Var} {r : Reason} :
    t.reasonOf v = .ok r ↔ ∃ o, t.origins.get v = .ok o ∧ o.reason = r := by
  simp [reasonOf, bind_eq_ok, Pure.pure, Except.pure]

/-- The current level ends where the trail ends, and so does any above it. -/
theorem cut_of_le {t : Trail} {k : Nat} (h : t.level ≤ k) : t.cut k = t.lits.size := by
  unfold cut
  rw [Array.getElem?_eq_none h]
  rfl

theorem upTo_of_le {t : Trail} {k : Nat} (h : t.level ≤ k) : t.upTo k = t.lits.toList := by
  unfold upTo
  rw [cut_of_le h]
  exact List.take_length

theorem mem_take {t : Trail} {n : Nat} {l : Lit} :
    l ∈ t.lits.toList.take n ↔ ∃ i, i < n ∧ t.lits[i]? = some l := by
  rw [List.mem_iff_getElem?]
  refine exists_congr fun i => ?_
  rw [List.getElem?_take, Array.getElem?_toList]
  split
  next low => simp [low]
  next high => simp [high]

/-- A literal is assigned up to the end of a level if its position is before the cut. -/
theorem mem_upTo {t : Trail} {k : Nat} {l : Lit} :
    l ∈ t.upTo k ↔ ∃ i, i < t.cut k ∧ t.lits[i]? = some l :=
  mem_take

theorem mem_of_mem_upTo {t : Trail} {k : Nat} {l : Lit} (h : l ∈ t.upTo k) : l ∈ t.lits :=
  Array.mem_toList_iff.mp (List.mem_of_mem_take h)

/-- The end of a level is recorded when the next level begins. -/
theorem levelEnd_eq_ok {t : Trail} {k i : Nat} :
    t.levelEnd k = .ok i ↔ k < t.level ∧ t.cut k = i := by
  unfold levelEnd cut level
  split
  next j found =>
    obtain ⟨inside, rfl⟩ := Array.getElem?_eq_some_iff.mp found
    simp [inside]
  next absent =>
    have outside := Array.getElem?_eq_none_iff.mp absent
    simp only [reduceCtorEq, false_iff, not_and]
    omega

namespace WF

variable {t t' : Trail} {l m : Lit} {i j k : Nat}

/-- The true literals are those on the list. -/
theorem holds_iff (w : t.WF) : t.litValue l = .ok .holds ↔ l ∈ t.lits := by
  obtain ⟨v, s⟩ := l
  rw [← w.held, litValue_eq_ok]
  cases s with
  | true => simp [Truth.ofBool]
  | false =>
      refine ⟨fun ⟨y, read, flipped⟩ => ?_, fun read => ⟨_, read, rfl⟩⟩
      cases y <;> first | exact read | cases flipped

/-- The false literals are those whose negation is on the list. -/
theorem fails_iff (w : t.WF) : t.litValue l = .ok .fails ↔ -l ∈ t.lits := by
  rw [← w.holds_iff, litValue_eq_ok, litValue_eq_ok]
  obtain ⟨v, s⟩ := l
  refine exists_congr fun y => and_congr_right fun _ => ?_
  cases s <;> cases y <;> simp [Truth.flipIf, Truth.negate]

/-- A literal without a value is not on the list, and neither is its negation. -/
theorem unknown (w : t.WF) (h : t.litValue l = .ok .unknown) : l ∉ t.lits ∧ -l ∉ t.lits := by
  rw [← w.holds_iff, ← w.fails_iff, h]
  simp

/-- A literal that can be read but has no value is assigned in neither sign. -/
theorem unknown_iff (w : t.WF) {x : Truth} (read : t.litValue l = .ok x) :
    x = .unknown ↔ l ∉ t.lits ∧ -l ∉ t.lits := by
  rw [← w.holds_iff, ← w.fails_iff, read]
  cases x <;> simp

/-- A variable has one position on the trail. -/
theorem index_unique (w : t.WF) (hl : t.lits[i]? = some l) (hm : t.lits[j]? = some m)
    (same : l.var = m.var) : i = j := by
  have hi : (t.lits.toList.map Lit.var)[i]? = some l.var := by simp [hl]
  have hj : (t.lits.toList.map Lit.var)[j]? = some l.var := by simp [hm, same]
  obtain ⟨ilt, -⟩ := List.getElem?_eq_some_iff.mp hi
  exact (List.getElem?_inj ilt w.once).mp (hi.trans hj.symm)

/-- A variable is assigned in one sign only. -/
theorem eq_of_var (w : t.WF) (hl : l ∈ t.lits) (hm : m ∈ t.lits) (same : l.var = m.var) :
    l = m := by
  obtain ⟨i, hi⟩ := Array.mem_iff_getElem?.mp hl
  obtain ⟨j, hj⟩ := Array.mem_iff_getElem?.mp hm
  have e := w.index_unique hi hj same
  rw [e, hj] at hi
  exact (Option.some.inj hi).symm

/-- A literal and its negation are not both assigned. -/
theorem not_both (w : t.WF) (h : l ∈ t.lits) : -l ∉ t.lits := fun neg =>
  Lit.neg_ne l (w.eq_of_var neg h rfl)

theorem cut_le (w : t.WF) : t.cut k ≤ t.lits.size := by
  rw [← cut_of_le (Nat.le_max_right k t.level)]
  exact w.sorted (Nat.le_max_left k t.level)

/-- Where a literal stands agrees with the level recorded for it. -/
theorem lt_cut_iff (w : t.WF) (hl : t.lits[i]? = some l) (hk : t.levelOf l.var = .ok j) :
    i < t.cut k ↔ j ≤ k := by
  obtain ⟨o, read, rfl⟩ := levelOf_eq_ok.mp hk
  exact (w.level hl read k).symm

/-- The literals up to the end of a level are those of the levels up to it. -/
theorem mem_upTo_iff (w : t.WF) (hl : l ∈ t.lits) (hj : t.levelOf l.var = .ok j) :
    l ∈ t.upTo k ↔ j ≤ k := by
  obtain ⟨i, at_⟩ := Array.mem_iff_getElem?.mp hl
  rw [← w.lt_cut_iff at_ hj, mem_upTo]
  refine ⟨fun ⟨i', low, at'⟩ => ?_, fun low => ⟨i, low, at_⟩⟩
  rwa [w.index_unique at_ at' rfl]

/-- The variables of assigned literals have a recorded origin. -/
theorem exists_origin (w : t.WF) (hl : l ∈ t.lits) : ∃ o, t.origins.get l.var = .ok o := by
  rw [DenseMap.exists_get, w.sizes]
  exact DenseMap.toIndex_lt (w.held.mpr hl)

theorem exists_level (w : t.WF) (hl : l ∈ t.lits) : ∃ j, t.levelOf l.var = .ok j := by
  obtain ⟨o, read⟩ := w.exists_origin hl
  exact ⟨o.level, levelOf_eq_ok.mpr ⟨o, read, rfl⟩⟩

/-- No literal is of a level that has not been opened. -/
theorem levelOf_le (w : t.WF) (hl : l ∈ t.lits) (hj : t.levelOf l.var = .ok j) :
    j ≤ t.level := by
  rw [← w.mem_upTo_iff hl hj, upTo_of_le (Nat.le_refl _)]
  exact Array.mem_toList_iff.mpr hl

end WF

/-- The trail without variables is well-formed. -/
theorem WF.empty : Trail.empty.WF where
  sizes := rfl
  held := by
    intro v b
    have unread : Trail.empty.values.get v ≠ .ok (.ofBool b) := by
      intro read
      exact absurd (DenseMap.toIndex_lt read) (Nat.not_lt_zero _)
    exact ⟨fun read => absurd read unread, fun inside => absurd inside (by simp [Trail.empty])⟩
  once := List.nodup_nil
  level at_ := absurd at_ (by simp [Trail.empty])
  sorted _ := by simp [Trail.empty, cut]
  head := Nat.le_refl 0

/-! ## Assigning -/

/-- Assigning succeeds if the literal has no value; it then stands last, with the current level as
its level. -/
theorem push_eq_ok {t t' : Trail} {p : Lit} {r : Reason} :
    t.push p r = .ok t' ↔ t.litValue p = .ok .unknown ∧ ∃ values origins,
      t.values.set p.var (.ofBool p.sign) = .ok values ∧
      t.origins.set p.var ⟨r, t.level⟩ = .ok origins ∧
      t' = { t with values, origins, lits := t.lits.push p } := by
  unfold push
  rw [bind_eq_ok]
  constructor
  · intro given
    rcases given with ⟨x, read, h⟩
    split at h
    next same =>
      subst same
      obtain ⟨values, hv, h⟩ := bind_eq_ok.mp h
      obtain ⟨origins, ho, h⟩ := bind_eq_ok.mp h
      cases h
      exact ⟨read, values, origins, hv, ho, rfl⟩
    next => cases h
  · intro given
    rcases given with ⟨read, values, origins, hv, ho, rfl⟩
    refine ⟨_, read, ?_⟩
    rw [if_pos rfl]
    exact bind_eq_ok.mpr ⟨values, hv, bind_eq_ok.mpr ⟨origins, ho, rfl⟩⟩

section Push

variable {t t' : Trail} {p : Lit} {r : Reason}

theorem lits_push (h : t.push p r = .ok t') : t'.lits = t.lits.push p := by
  obtain ⟨-, _, _, -, -, rfl⟩ := push_eq_ok.mp h
  rfl

theorem marks_push (h : t.push p r = .ok t') : t'.marks = t.marks := by
  obtain ⟨-, _, _, -, -, rfl⟩ := push_eq_ok.mp h
  rfl

theorem level_push (h : t.push p r = .ok t') : t'.level = t.level := by
  unfold level
  rw [marks_push h]

theorem head_push (h : t.push p r = .ok t') : t'.head = t.head := by
  obtain ⟨-, _, _, -, -, rfl⟩ := push_eq_ok.mp h
  rfl

theorem numVars_push (h : t.push p r = .ok t') : t'.numVars = t.numVars := by
  obtain ⟨-, _, _, hv, -, rfl⟩ := push_eq_ok.mp h
  exact DenseMap.size_set hv

/-- Only the origin of the variable that is assigned changes. -/
theorem origins_push (h : t.push p r = .ok t') (v : Var) :
    t'.origins.get v = if v = p.var then .ok ⟨r, t.level⟩ else t.origins.get v := by
  obtain ⟨-, _, _, -, ho, rfl⟩ := push_eq_ok.mp h
  exact DenseMap.get_set ho

/-- A literal is assigned at the current level. -/
theorem levelOf_push (h : t.push p r = .ok t') : t'.levelOf p.var = .ok t.level := by
  refine levelOf_eq_ok.mpr ⟨⟨r, t.level⟩, ?_, rfl⟩
  rw [origins_push h, if_pos rfl]

/-- The ends of lower levels stay, and the current level ends one position later. -/
theorem cut_push (h : t.push p r = .ok t') (k : Nat) :
    t'.cut k = if k < t.level then t.cut k else t.lits.size + 1 := by
  split
  next low =>
    unfold cut
    rw [marks_push h, Array.getElem?_eq_getElem low]
    rfl
  next high =>
    rw [cut_of_le (by rw [level_push h]; omega), lits_push h, Array.size_push]

theorem getElem?_push (h : t.push p r = .ok t') {i : Nat} {l : Lit} :
    t'.lits[i]? = some l ↔ t.lits[i]? = some l ∨ (i = t.lits.size ∧ l = p) := by
  rw [lits_push h, Array.getElem?_push]
  split
  next last =>
    subst last
    rw [Array.getElem?_eq_none (Nat.le_refl _)]
    simp [eq_comm]
  next other => simp [other]

/-- One literal is assigned, and the others are the same. -/
theorem mem_push (h : t.push p r = .ok t') {l : Lit} :
    l ∈ t'.lits ↔ l ∈ t.lits ∨ l = p := by
  rw [lits_push h, Array.mem_push]

theorem take_push (h : t.push p r = .ok t') {n : Nat} (low : n ≤ t.lits.size) :
    t'.lits.toList.take n = t.lits.toList.take n := by
  rw [lits_push h, Array.toList_push, List.take_append_of_le_length (by simpa using low)]

/-- What was assigned below the current level stays as it is. -/
theorem upTo_push (w : t.WF) (h : t.push p r = .ok t') {k : Nat} (low : k < t.level) :
    t'.upTo k = t.upTo k := by
  unfold upTo
  rw [cut_push h, if_pos low, take_push h w.cut_le]

/-- Whatever was assigned up to some level still is. -/
theorem upTo_push_subset (w : t.WF) (h : t.push p r = .ok t') {k : Nat} {l : Lit}
    (hl : l ∈ t.upTo k) : l ∈ t'.upTo k := by
  by_cases low : k < t.level
  · rwa [upTo_push w h low]
  · rw [upTo_of_le (by rw [level_push h]; omega), Array.mem_toList_iff, mem_push h]
    exact .inl (mem_of_mem_upTo hl)

/-- Assigning a literal keeps a trail well-formed. -/
theorem WF.push (w : t.WF) (h : t.push p r = .ok t') : t'.WF := by
  obtain ⟨read, values, origins, hv, ho, e⟩ := push_eq_ok.mp h
  obtain ⟨new, newNeg⟩ := w.unknown read
  have varNew : ∀ l ∈ t.lits, l.var ≠ p.var := fun l hl same =>
    (Lit.eq_or_eq_neg same).elim (fun e => new (e ▸ hl)) (fun e => newNeg (e ▸ hl))
  refine ⟨?_, ?_, ?_, ?_, ?_, ?_⟩
  · rw [e]
    exact (DenseMap.size_set ho).trans (w.sizes.trans (DenseMap.size_set hv).symm)
  · intro v b
    rw [mem_push h, ← w.held, e]
    simp only [DenseMap.get_set hv]
    split
    next same =>
      subst same
      have absent : t.values.get p.var ≠ .ok (.ofBool b) := fun read =>
        varNew _ (w.held.mp read) rfl
      simp only [Except.ok.injEq, Truth.ofBool_inj, absent, false_or]
      exact ⟨fun s => by rw [← s], fun s => by rw [← s]⟩
    next other =>
      refine ⟨.inl, fun h => h.elim id fun s => absurd (congrArg Lit.var s) other⟩
  · rw [lits_push h, Array.toList_push, List.map_append, List.nodup_append]
    refine ⟨w.once, List.nodup_singleton _, ?_⟩
    simp only [List.mem_map, Array.mem_toList_iff, List.map_cons, List.map_nil,
      List.mem_singleton]
    rintro v ⟨l, hl, rfl⟩ _ rfl
    exact varNew l hl
  · intro i l o at_ read' k
    rw [origins_push h] at read'
    rw [cut_push h]
    rcases (getElem?_push h).mp at_ with old | ⟨rfl, rfl⟩
    · have inside := (Array.getElem?_eq_some_iff.mp old).1
      rw [if_neg (varNew l (Array.mem_of_getElem? old))] at read'
      rw [w.level old read' k]
      split
      next => rfl
      next high => rw [cut_of_le (by omega)]; omega
    · rw [if_pos rfl] at read'
      cases read'
      have bound : t.cut k ≤ t.lits.size := w.cut_le
      split <;> simp only <;> omega
  · intro j k le
    rw [cut_push h, cut_push h]
    have bound : t.cut j ≤ t.lits.size := w.cut_le
    have step := w.sorted le
    split <;> split <;> omega
  · rw [head_push h, lits_push h, Array.size_push]
    exact Nat.le_succ_of_le w.head

end Push

/-- More is assigned at the current level, and nothing else has changed. -/
structure Grows (t t' : Trail) : Prop where
  marks : t'.marks = t.marks
  lits : ∀ {l}, l ∈ t.lits → l ∈ t'.lits
  size : t'.values.size = t.values.size
  unknown : ∀ {v}, t'.values.get v = .ok .unknown → t.values.get v = .ok .unknown

namespace Grows

variable {t t' t'' : Trail}

theorem refl (t : Trail) : t.Grows t := ⟨rfl, id, rfl, id⟩

theorem trans (a : t.Grows t') (b : t'.Grows t'') : t.Grows t'' where
  marks := b.marks.trans a.marks
  lits h := b.lits (a.lits h)
  size := b.size.trans a.size
  unknown h := a.unknown (b.unknown h)

theorem level (g : t.Grows t') : t'.level = t.level := by
  unfold Trail.level
  rw [g.marks]

theorem of_eq (same : t' = t) : t.Grows t' := same ▸ refl t

end Grows

/-- Assigning a literal lets the trail grow. -/
theorem grows_push {t t' : Trail} {p : Lit} {r : Reason} (h : t.push p r = .ok t') :
    t.Grows t' := by
  obtain ⟨-, values, origins, written, -, rfl⟩ := push_eq_ok.mp h
  refine ⟨rfl, fun hl => Array.mem_push.mpr (.inl hl), DenseMap.size_set written, ?_⟩
  intro v read
  rw [DenseMap.get_set written] at read
  split at read
  · exact absurd (Except.ok.inj read) (Truth.ofBool_ne_unknown p.sign)
  · exact read

/-! ## Opening levels -/

/-- The new level begins where the old one ends. -/
@[simp] theorem cut_openLevel (t : Trail) (k : Nat) : t.openLevel.cut k = t.cut k := by
  unfold cut openLevel
  simp only [Array.getElem?_push]
  split
  next last =>
    subst last
    rw [Array.getElem?_eq_none (Nat.le_refl _)]
    rfl
  next => rfl

@[simp] theorem level_openLevel (t : Trail) : t.openLevel.level = t.level + 1 := by
  simp [openLevel, level]

@[simp] theorem upTo_openLevel (t : Trail) (k : Nat) : t.openLevel.upTo k = t.upTo k := by
  unfold upTo
  rw [cut_openLevel]
  rfl

/-- Opening a level keeps a trail well-formed. -/
theorem WF.openLevel {t : Trail} (w : t.WF) : t.openLevel.WF where
  sizes := w.sizes
  held := w.held
  once := w.once
  level at_ read k := by rw [cut_openLevel]; exact w.level at_ read k
  sorted le := by simpa only [cut_openLevel] using w.sorted le
  head := w.head

/-- How far has been propagated matters only in that it is not beyond the end. -/
theorem WF.withHead {t : Trail} (w : t.WF) {i : Nat} (bound : i ≤ t.lits.size) :
    { t with head := i }.WF :=
  ⟨w.sizes, w.held, w.once, w.level, w.sorted, bound⟩

/-! ## Going back -/

/-- Taking the last literal off forgets the value of its variable, and nothing else. -/
theorem pop_eq_ok {t t' : Trail} {p : Lit} :
    t.pop = .ok (t', p) ↔ t.lits.back? = some p ∧ ∃ values,
      t.values.set p.var .unknown = .ok values ∧
      t' = { t with values, lits := t.lits.pop } := by
  unfold pop
  split
  next q last =>
    rw [bind_eq_ok]
    constructor
    · intro given
      rcases given with ⟨values, hv, h⟩
      cases h
      exact ⟨last, values, hv, rfl⟩
    · intro given
      rcases given with ⟨last', values, hv, rfl⟩
      cases last.symm.trans last'
      exact ⟨values, hv, rfl⟩
  next none => simp [none, throw, throwThe, MonadExceptOf.throw]

/-- The trail without its last literals; the marks and the head are as before. -/
structure Undone (t : Trail) (n : Nat) (t' : Trail) : Prop where
  bound : n ≤ t.lits.size
  lits : t'.lits.toList = t.lits.toList.take (t.lits.size - n)
  held : t'.Held
  sizes : t'.values.size = t.values.size
  origins : t'.origins = t.origins
  marks : t'.marks = t.marks
  head : t'.head = t.head

theorem Undone.refl {t : Trail} (w : t.WF) : t.Undone 0 t where
  bound := Nat.zero_le _
  lits := by simp [← Array.length_toList]
  held := w.held
  sizes := rfl
  origins := rfl
  marks := rfl
  head := rfl

theorem Undone.size {t t' : Trail} {n : Nat} (u : t.Undone n t') :
    t'.lits.size = t.lits.size - n := by
  rw [← Array.length_toList, u.lits, List.length_take, Array.length_toList]
  omega

/-- Taking off one more literal. -/
theorem Undone.pop {t t' t'' : Trail} {n : Nat} {p : Lit} (w : t.WF) (u : t.Undone n t')
    (h : t'.pop = .ok (t'', p)) : t.Undone (n + 1) t'' := by
  obtain ⟨last, values, hv, rfl⟩ := pop_eq_ok.mp h
  obtain ⟨rest, e⟩ := Array.back?_eq_some_iff.mp last
  have restList : t'.lits.toList = rest.toList ++ [p] := by rw [e, Array.toList_push]
  have once : (t'.lits.toList.map Lit.var).Nodup := by
    rw [u.lits, List.map_take]
    exact w.once.sublist (List.take_sublist _ _)
  rw [restList, List.map_append, List.nodup_append] at once
  have away : ∀ l ∈ rest, l.var ≠ p.var := fun l hl =>
    once.2.2 _ (List.mem_map_of_mem (Array.mem_toList_iff.mpr hl)) _ (List.mem_singleton_self _)
  have size : t'.lits.size = t.lits.size - n := u.size
  have positive : t'.lits.size = rest.size + 1 := by rw [e, Array.size_push]
  refine ⟨by omega, ?_, ?_, ?_, u.origins, u.marks, u.head⟩
  · have drop : t'.lits.pop.toList = t'.lits.toList.take (t'.lits.size - 1) := by
      rw [Array.toList_pop, List.dropLast_eq_take, Array.length_toList]
    rw [drop, u.lits, List.take_take]
    congr 1
    omega
  · intro v b
    rw [DenseMap.get_set hv, e, Array.pop_push]
    split
    next same =>
      subst same
      refine ⟨fun h => ?_, fun hl => (away ⟨p.var, b⟩ hl rfl).elim⟩
      exact absurd (Except.ok.inj h).symm (Truth.ofBool_ne_unknown b)
    next other =>
      rw [u.held, e, Array.mem_push]
      exact ⟨fun h => h.resolve_right fun s => other (congrArg Lit.var s), .inl⟩
  · exact (DenseMap.size_set hv).trans u.sizes

/-- The trail with the levels above one of its levels undone, and with nothing left to
propagate. -/
structure CutBack (t : Trail) (k : Nat) (t' : Trail) : Prop where
  below : k < t.level
  lits : t'.lits.toList = t.upTo k
  marks : t'.marks = t.marks.shrink k
  head : t'.head = t.cut k
  held : t'.Held
  sizes : t'.values.size = t.values.size
  origins : t'.origins = t.origins

/-- Once the literals above a level are off, and the marks with them, the trail is cut back to
that level. -/
theorem Undone.cutBack {t t' : Trail} {k : Nat} (w : t.WF) (below : k < t.level)
    (u : t.Undone (t.lits.size - t.cut k) t') :
    t.CutBack k { t' with marks := t'.marks.shrink k, head := t.cut k } where
  below := below
  lits := by
    have bound : t.cut k ≤ t.lits.size := w.cut_le
    rw [u.lits, Nat.sub_sub_self bound]
    rfl
  marks := by rw [u.marks]
  head := rfl
  held := u.held
  sizes := u.sizes
  origins := u.origins

namespace CutBack

variable {t t' : Trail} {k : Nat}

/-- The trail is at the level to which it was cut back. -/
theorem level (c : t.CutBack k t') : t'.level = k := by
  have := c.below
  unfold Trail.level at *
  rw [c.marks, Array.size_shrink]
  omega

/-- The trail ends where the level ended. -/
theorem size (w : t.WF) (c : t.CutBack k t') : t'.lits.size = t.cut k := by
  have bound : t.cut k ≤ t.lits.size := w.cut_le
  rw [← Array.length_toList, c.lits, upTo, List.length_take, Array.length_toList]
  omega

/-- The levels below end where they did, and all others where the trail does. -/
theorem cut (w : t.WF) (c : t.CutBack k t') (j : Nat) : t'.cut j = t.cut (min j k) := by
  by_cases low : j < k
  · have inside : j < t.marks.size := Nat.lt_trans low c.below
    rw [Nat.min_eq_left (Nat.le_of_lt low)]
    unfold Trail.cut
    rw [c.marks, ← Array.getElem?_toList, Array.toList_shrink, List.getElem?_take_of_lt low,
      Array.getElem?_toList, Array.getElem?_eq_getElem inside]
    rfl
  · rw [Nat.min_eq_right (by omega), cut_of_le (by rw [c.level]; omega), c.size w]

/-- The literals that are left stand where they stood. -/
theorem getElem? (c : t.CutBack k t') {i : Nat} {l : Lit} :
    t'.lits[i]? = some l ↔ i < t.cut k ∧ t.lits[i]? = some l := by
  rw [← Array.getElem?_toList, c.lits, upTo, List.getElem?_take, Array.getElem?_toList]
  split
  next low => simp [low]
  next high => simp [high]

/-- The literals up to the level are left, and no others. -/
theorem mem_iff (c : t.CutBack k t') {l : Lit} : l ∈ t'.lits ↔ l ∈ t.upTo k := by
  rw [← Array.mem_toList_iff, c.lits]

/-- What was assigned up to a lower level still is. -/
theorem upTo (w : t.WF) (c : t.CutBack k t') (j : Nat) :
    t'.upTo j = t.upTo (min j k) := by
  unfold Trail.upTo
  rw [c.cut w, c.lits, Trail.upTo, List.take_take, Nat.min_eq_left]
  exact w.sorted (Nat.min_le_right j k)

/-- Cutting back keeps a trail well-formed. -/
theorem wf (w : t.WF) (c : t.CutBack k t') : t'.WF where
  sizes := by rw [c.origins, c.sizes, w.sizes]
  held := c.held
  once := by
    rw [c.lits, Trail.upTo, List.map_take]
    exact w.once.sublist (List.take_sublist _ _)
  level at_ read j := by
    obtain ⟨low, old⟩ := c.getElem?.mp at_
    rw [c.origins] at read
    rw [c.cut w, w.level old read]
    have le := w.sorted (Nat.min_le_left j k)
    refine ⟨fun h => ?_, fun h => Nat.lt_of_lt_of_le h le⟩
    rcases Nat.le_total j k with left | right
    · rwa [Nat.min_eq_left left]
    · rwa [Nat.min_eq_right right]
  sorted le := by
    rw [c.cut w, c.cut w]
    exact w.sorted (by omega)
  head := Nat.le_of_eq (c.head.trans (c.size w).symm)

end CutBack

/-! ## Variables and reasons -/

/-- A new variable, without a value, keeps a trail well-formed. -/
theorem WF.addVar {t : Trail} {v : Var} (w : t.WF) (fresh : v.index = t.numVars) :
    (t.addVar v).WF := by
  have freshValue : DenseKey.toIndex v = t.values.size := fresh
  have freshOrigin : DenseKey.toIndex v = t.origins.size := freshValue.trans w.sizes.symm
  refine ⟨?_, ?_, w.once, ?_, w.sorted, w.head⟩
  · change (t.origins.insert v {} {}).size = (t.values.insert v .unknown .unknown).size
    rw [DenseMap.size_insert, DenseMap.size_insert, w.sizes]
  · intro u b
    change (t.values.insert v .unknown .unknown).get u = _ ↔ _ ∈ t.lits
    rw [DenseMap.get_insert_size freshValue]
    split
    next same =>
      subst same
      refine ⟨fun h => absurd (Except.ok.inj h).symm (Truth.ofBool_ne_unknown b), fun h => ?_⟩
      exact absurd (DenseMap.toIndex_lt (w.held.mpr h)) (by omega)
    next => exact w.held
  · intro i l o at_ read
    change (t.origins.insert v {} {}).get l.var = .ok o at read
    have old := DenseMap.toIndex_lt (w.held.mpr (Array.mem_of_getElem? at_))
    rw [DenseMap.get_insert_size freshOrigin, if_neg (by rintro rfl; omega)] at read
    exact w.level at_ read

@[simp] theorem upTo_addVar (t : Trail) (v : Var) (k : Nat) :
    (t.addVar v).upTo k = t.upTo k := rfl

@[simp] theorem level_addVar (t : Trail) (v : Var) : (t.addVar v).level = t.level := rfl

theorem numVars_addVar {t : Trail} {v : Var} (fresh : v.index = t.numVars) :
    (t.addVar v).numVars = t.numVars + 1 := by
  change (t.values.insert v .unknown .unknown).size = _
  rw [DenseMap.size_insert, Var.toIndex_eq, fresh]
  exact Nat.max_eq_right (Nat.le_succ _)

/-- The same trail, in which some reasons may have been forgotten. -/
structure Forgets (t t' : Trail) : Prop where
  values : t'.values = t.values
  lits : t'.lits = t.lits
  marks : t'.marks = t.marks
  head : t'.head = t.head
  sizes : t'.origins.size = t.origins.size
  origins : ∀ {v : Var} {o' : Origin}, t'.origins.get v = .ok o' →
    ∃ o, t.origins.get v = .ok o ∧ o'.level = o.level ∧
      (o'.reason = o.reason ∨ o'.reason = .decision)

namespace Forgets

variable {t t' t'' : Trail}

theorem refl (t : Trail) : t.Forgets t :=
  ⟨rfl, rfl, rfl, rfl, rfl, fun read => ⟨_, read, rfl, .inl rfl⟩⟩

theorem trans (a : t.Forgets t') (b : t'.Forgets t'') : t.Forgets t'' where
  values := b.values.trans a.values
  lits := b.lits.trans a.lits
  marks := b.marks.trans a.marks
  head := b.head.trans a.head
  sizes := b.sizes.trans a.sizes
  origins read := by
    obtain ⟨o', read', level', reason'⟩ := b.origins read
    obtain ⟨o, read, level, reason⟩ := a.origins read'
    refine ⟨o, read, level'.trans level, ?_⟩
    rcases reason' with e | e
    · rw [e]
      exact reason
    · exact .inr e

theorem level (f : t.Forgets t') : t'.level = t.level := by
  unfold Trail.level
  rw [f.marks]

theorem cut (f : t.Forgets t') (k : Nat) : t'.cut k = t.cut k := by
  unfold Trail.cut
  rw [f.marks, f.lits]

theorem upTo (f : t.Forgets t') (k : Nat) : t'.upTo k = t.upTo k := by
  unfold Trail.upTo
  rw [f.cut, f.lits]

/-- Forgetting reasons keeps a trail well-formed. -/
theorem wf (w : t.WF) (f : t.Forgets t') : t'.WF where
  sizes := by rw [f.sizes, f.values, w.sizes]
  held := by
    intro v b
    rw [f.values, f.lits]
    exact w.held
  once := by rw [f.lits]; exact w.once
  level at_ read k := by
    obtain ⟨o, read', level, -⟩ := f.origins read
    rw [f.lits] at at_
    rw [f.cut, level, w.level at_ read']
  sorted le := by rw [f.cut, f.cut]; exact w.sorted le
  head := by rw [f.head, f.lits]; exact w.head

end Forgets

/-- One reason is forgotten, and the level of its variable stays. -/
theorem forgets_forgetReason {t t' : Trail} {v : Var} (h : t.forgetReason v = .ok t') :
    t.Forgets t' := by
  obtain ⟨o, read, h⟩ := bind_eq_ok.mp h
  obtain ⟨origins, written, h⟩ := bind_eq_ok.mp h
  cases h
  refine ⟨rfl, rfl, rfl, rfl, DenseMap.size_set written, fun {u o'} read' => ?_⟩
  change origins.get u = .ok o' at read'
  rw [DenseMap.get_set written] at read'
  split at read'
  next same =>
    subst same
    cases read'
    exact ⟨o, read, rfl, .inr rfl⟩
  next => exact ⟨o', read', rfl, .inl rfl⟩

end Trail

end Cdcl
