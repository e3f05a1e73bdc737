import Cdcl.Solver.Intake
import Cdcl.Proofs.Faults
import Cdcl.Proofs.Learning

/-!
# Adding clauses

What is kept when a clause is added, at whatever level.

* `normalize_spec` — what is left of a clause, when it is not satisfied at the root
  level, has no variable twice and lacks only literals that are false there;
* `arrange_spec` — of the literals that come first, one is false only if those after it
  are true or were false before;
* `Inv.addClause` — the invariant is kept, for the formula with the clause.

A clause that implies its first literal may have a true literal behind the second
place.  Then the literal implied does not follow: `AssertsRightly` excludes this.
-/

namespace Cdcl.Solver

open Network (Regime)

variable {g : Regime} {s s' : Solver} {t : Trail} {k : Nat} {l : Lit}
  {all kept ls c d : List Lit}

/-! ## Values at the root level -/

/-- The value at the root level is that of the literal if it was assigned there, and unknown
otherwise. -/
theorem rootValue_eq_ok {x : Truth} : t.rootValue l = .ok x ↔ ∃ y j,
    t.litValue l = .ok y ∧ t.levelOf l.var = .ok j ∧ x = if j = 0 then y else .unknown := by
  constructor
  · intro h
    obtain ⟨y, value, h⟩ := bind_eq_ok.mp h
    obtain ⟨j, level, h⟩ := bind_eq_ok.mp h
    refine ⟨y, j, value, level, ?_⟩
    split at h <;> cases h <;> simp [*]
  · intro given
    rcases given with ⟨y, j, value, level, rfl⟩
    refine bind_eq_ok.mpr ⟨y, value, bind_eq_ok.mpr ⟨j, level, ?_⟩⟩
    split <;> rfl

theorem index_lt_of_rootValue {x : Truth} (h : t.rootValue l = .ok x) :
    l.var.index < t.numVars := by
  obtain ⟨y, j, value, -⟩ := rootValue_eq_ok.mp h
  obtain ⟨z, read, -⟩ := Trail.litValue_eq_ok.mp value
  exact DenseMap.toIndex_lt read

/-- A literal is true at the root level if it is a fact there. -/
theorem rootValue_holds_iff (w : t.WF) : t.rootValue l = .ok .holds ↔ l ∈ t.upTo 0 := by
  constructor
  · intro h
    obtain ⟨y, j, value, level, same⟩ := rootValue_eq_ok.mp h
    split at same
    next root =>
      subst same root
      exact (w.mem_upTo_iff (w.holds_iff.mp value) level).mpr (Nat.le_refl 0)
    next => cases same
  · intro h
    have true_ := Trail.mem_of_mem_upTo h
    obtain ⟨j, level⟩ := w.exists_level true_
    have root := (w.mem_upTo_iff true_ level).mp h
    refine rootValue_eq_ok.mpr ⟨_, j, w.holds_iff.mpr true_, level, ?_⟩
    rw [if_pos (Nat.le_zero.mp root)]

/-- A literal is false at the root level if its negation is a fact there. -/
theorem rootValue_fails_iff (w : t.WF) : t.rootValue l = .ok .fails ↔ -l ∈ t.upTo 0 := by
  constructor
  · intro h
    obtain ⟨y, j, value, level, same⟩ := rootValue_eq_ok.mp h
    split at same
    next root =>
      subst same root
      exact (w.mem_upTo_iff (w.fails_iff.mp value) level).mpr (Nat.le_refl 0)
    next => cases same
  · intro h
    have false_ := Trail.mem_of_mem_upTo h
    obtain ⟨j, level⟩ := w.exists_level false_
    have root := (w.mem_upTo_iff false_ level).mp h
    refine rootValue_eq_ok.mpr ⟨_, j, w.fails_iff.mpr false_, level, ?_⟩
    rw [if_pos (Nat.le_zero.mp root)]

/-! ## Dropping literals -/

/-- What is left of a clause: no variable occurs twice, and the literals that are false
at the root level are missing. -/
structure Kept (t : Trail) (all c : List Lit) : Prop where
  once : (c.map Lit.var).Nodup
  mem : ∀ l ∈ c, l ∈ all
  free : ∀ l ∈ c, -l ∉ t.upTo 0
  dropped : ∀ l ∈ all, l ∈ c ∨ -l ∈ t.upTo 0

/-- What dropping literals comes to. -/
def Normalized (t : Trail) (all : List Lit) : Normal → Prop
  | .satisfied _ => (∃ l ∈ all, l ∈ t.upTo 0) ∨ ∃ l ∈ all, -l ∈ all ∧ l.var.index < t.numVars
  | .clause c => Kept t all c

/-- What holds between the literals kept and those to come. -/
structure Keeping (t : Trail) (all kept ls : List Lit) : Prop where
  increasing : kept.Pairwise fun a b => b.var.index < a.var.index
  sorted : ls.Pairwise fun a b => a.code ≤ b.code
  below : ∀ a, kept.head? = some a → ∀ l ∈ ls, a.code ≤ l.code
  mem : ∀ l, l ∈ kept ∨ l ∈ ls → l ∈ all
  free : ∀ l ∈ kept, -l ∉ t.upTo 0
  dropped : ∀ l ∈ all, l ∈ kept ∨ l ∈ ls ∨ -l ∈ t.upTo 0

/-- Literals in the order of their codes are of the same variable or in its order. -/
theorem index_lt_of_code_le {a b : Lit} (le : a.code ≤ b.code) (ne : b ≠ a) (neg : a ≠ -b) :
    a.var.index < b.var.index := by
  have apart : a.var.index ≠ b.var.index := by
    intro same
    have var : b.var = a.var := congrArg Var.mk same.symm
    rcases Lit.eq_or_eq_neg var with e | e
    · exact ne e
    · exact neg (by rw [e, Lit.neg_neg])
  have low : a.sign.toNat ≤ 1 := Bool.toNat_le a.sign
  have high : b.sign.toNat ≤ 1 := Bool.toNat_le b.sign
  unfold Lit.code at le
  omega

/-- A literal that is kept already, or false at the root level, may be dropped. -/
theorem Keeping.skip (h : Keeping t all kept (l :: ls))
    (gone : l ∈ kept ∨ -l ∈ t.upTo 0) : Keeping t all kept ls where
  increasing := h.increasing
  sorted := h.sorted.of_cons
  below a top m hm := h.below a top m (List.mem_cons_of_mem _ hm)
  mem m hm := h.mem m (hm.imp_right (List.mem_cons_of_mem _))
  free := h.free
  dropped m hm := by
    rcases h.dropped m hm with old | next_ | false_
    · exact .inl old
    · rcases List.mem_cons.mp next_ with rfl | later
      · exact gone.imp_right .inr
      · exact .inr (.inl later)
    · exact .inr (.inr false_)

/-- A literal that is not false at the root level is kept, if neither it nor its negation was the
last one kept. -/
theorem Keeping.keep (h : Keeping t all kept (l :: ls)) (free : -l ∉ t.upTo 0)
    (ne : kept.head? ≠ some l) (neg : kept.head? ≠ some (-l)) :
    Keeping t all (l :: kept) ls where
  increasing := by
    rw [List.pairwise_cons]
    refine ⟨fun b hb => ?_, h.increasing⟩
    cases kept with
    | nil => cases hb
    | cons a rest =>
        have first : a.var.index < l.var.index := by
          apply index_lt_of_code_le (h.below a rfl l List.mem_cons_self)
          · intro same
            subst same
            exact ne rfl
          · intro same
            subst same
            exact neg rfl
        rcases List.mem_cons.mp hb with rfl | hb
        · exact first
        · exact Nat.lt_trans ((List.pairwise_cons.mp h.increasing).1 b hb) first
  sorted := h.sorted.of_cons
  below a top m hm := by
    cases top
    exact (List.pairwise_cons.mp h.sorted).1 m hm
  mem m hm := by
    apply h.mem
    simp only [List.mem_cons] at hm ⊢
    tauto
  free m hm := by
    rcases List.mem_cons.mp hm with rfl | hm
    · exact free
    · exact h.free m hm
  dropped m hm := by
    have := h.dropped m hm
    simp only [List.mem_cons] at this ⊢
    tauto

/-- By induction along the sorted clause, in which equal and opposite literals stand side by
side. -/
theorem normalizeFrom_spec {r : Normal} (w : t.WF) (h : normalizeFrom t kept ls = .ok r)
    (keeping : Keeping t all kept ls) : Normalized t all r := by
  induction ls generalizing kept with
  | nil =>
      cases h
      refine ⟨?_, fun l hl => keeping.mem l (.inl (List.mem_reverse.mp hl)),
        fun l hl => keeping.free l (List.mem_reverse.mp hl), fun l hl => ?_⟩
      · rw [List.map_reverse, List.nodup_reverse, List.Nodup, List.pairwise_map]
        refine keeping.increasing.imp fun lt same => ?_
        rw [same] at lt
        exact Nat.lt_irrefl _ lt
      · rcases keeping.dropped l hl with old | none | false_
        · exact .inl (List.mem_reverse.mpr old)
        · cases none
        · exact .inr false_
  | cons l ls ih =>
      obtain ⟨value, read, h⟩ := bind_eq_ok.mp h
      have here : l ∈ all := keeping.mem l (.inr List.mem_cons_self)
      split at h
      next sat =>
        cases h
        simp only [Bool.or_eq_true, decide_eq_true_eq] at sat
        rcases sat with rfl | neg
        · exact .inl ⟨l, here, (rootValue_holds_iff w).mp read⟩
        · have opposite : -l ∈ all := keeping.mem _ (.inl (List.mem_of_mem_head? neg))
          exact .inr ⟨l, here, opposite, index_lt_of_rootValue read⟩
      next open_ =>
        simp only [Bool.or_eq_true, decide_eq_true_eq, not_or] at open_
        split at h
        next new =>
          simp only [Bool.and_eq_true, decide_eq_true_eq] at new
          have free : -l ∉ t.upTo 0 := by
            intro false_
            rw [(rootValue_fails_iff w).mpr false_] at read
            exact new.1 (Except.ok.inj read).symm
          exact ih h (keeping.keep free new.2 open_.2)
        next old =>
          simp only [Bool.and_eq_true, decide_eq_true_eq, not_and_or, not_not] at old
          refine ih h (keeping.skip ?_)
          rcases old with rfl | doubled
          · exact .inr ((rootValue_fails_iff w).mp read)
          · exact .inl (List.mem_of_mem_head? doubled)

/-- What is neither empty nor a single literal has two. -/
theorem exists_two (none_ : c = [] → False) (single : ∀ l, c = [l] → False) :
    ∃ p q rest, c = p :: q :: rest := by
  match c, none_, single with
  | [], none_, _ => exact (none_ rfl).elim
  | [l], _, single => exact (single l rfl).elim
  | p :: q :: rest, _, _ => exact ⟨p, q, rest, rfl⟩

theorem sort_perm (lits : List Lit) : (Lit.sort lits).Perm lits := List.mergeSort_perm _ _

theorem sort_sorted (lits : List Lit) :
    (Lit.sort lits).Pairwise fun a b => a.code ≤ b.code := by
  have trans : ∀ a b c : Lit, Decidable.decide (a.code ≤ b.code) = true →
      Decidable.decide (b.code ≤ c.code) = true → Decidable.decide (a.code ≤ c.code) = true := by
    simp only [decide_eq_true_eq]
    exact fun _ _ _ => Nat.le_trans
  have total : ∀ a b : Lit,
      (Decidable.decide (a.code ≤ b.code) || Decidable.decide (b.code ≤ a.code)) = true := by
    simp only [Bool.or_eq_true, decide_eq_true_eq]
    exact fun a b => Nat.le_total a.code b.code
  exact (List.pairwise_mergeSort trans total lits).imp fun le => decide_eq_true_eq.mp le

/-- Dropping literals from a clause that is sorted first. -/
theorem normalize_spec {r : Normal} (w : t.WF)
    (h : normalize t (Lit.sort all) = .ok r) : Normalized t all r := by
  refine normalizeFrom_spec w h
    ⟨.nil, sort_sorted all, ?_, fun l hl => ?_, by simp, fun l hl => ?_⟩
  · intro a top
    cases top
  · exact (sort_perm all).mem_iff.mp (hl.resolve_left (by simp))
  · exact .inr (.inl ((sort_perm all).mem_iff.mpr hl))

/-! ## Choosing the watched literals -/

/-- A literal comes before another if it has no value and the other has one, or if it was
assigned later; the code decides if neither is so. -/
theorem Ranked.le_iff {a b : Ranked} : a.le b = true ↔
    (a.value = .unknown ∧ (b.value ≠ .unknown ∨ a.lit.code ≤ b.lit.code)) ∨
      (a.value ≠ .unknown ∧ b.value ≠ .unknown ∧
        (b.level < a.level ∨ (a.level = b.level ∧ a.lit.code ≤ b.lit.code))) := by
  unfold Ranked.le
  by_cases first : a.value = .unknown
  · simp [first]
  · by_cases second : b.value = .unknown
    · simp [first, second]
    · by_cases same : a.level = b.level
      · simp [first, second, same]
      · simp [first, second, same]

/-- The order of ranked literals is transitive. -/
theorem Ranked.le_trans (a b c : Ranked) (ab : a.le b = true) (bc : b.le c = true) :
    a.le c = true := by
  rw [Ranked.le_iff] at *
  rcases ab with ⟨a₀, ab⟩ | ⟨a₁, b₁, ab⟩
  · rcases bc with ⟨b₀, bc⟩ | ⟨-, c₁, -⟩
    · rcases ab with b₁ | ab
      · exact absurd b₀ b₁
      · exact .inl ⟨a₀, bc.imp_right (Nat.le_trans ab)⟩
    · exact .inl ⟨a₀, .inl c₁⟩
  · rcases bc with ⟨b₀, -⟩ | ⟨-, c₁, bc⟩
    · exact absurd b₀ b₁
    · exact .inr ⟨a₁, c₁, by omega⟩

theorem Ranked.le_total (a b : Ranked) : (a.le b || b.le a) = true := by
  rw [Bool.or_eq_true, Ranked.le_iff, Ranked.le_iff]
  by_cases first : a.value = .unknown
  · by_cases second : b.value = .unknown
    · rcases Nat.le_total a.lit.code b.lit.code with le | le
      · exact .inl (.inl ⟨first, .inr le⟩)
      · exact .inr (.inl ⟨second, .inr le⟩)
    · exact .inl (.inl ⟨first, .inl second⟩)
  · by_cases second : b.value = .unknown
    · exact .inr (.inl ⟨second, .inl first⟩)
    · have either : (b.level < a.level ∨ (a.level = b.level ∧ a.lit.code ≤ b.lit.code)) ∨
          (a.level < b.level ∨ (b.level = a.level ∧ b.lit.code ≤ a.lit.code)) := by omega
      rcases either with le | le
      · exact .inl (.inr ⟨first, second, le⟩)
      · exact .inr (.inr ⟨second, first, le⟩)

/-- A literal that comes first has no value, or was assigned at least as late as one
that comes after it. -/
theorem Ranked.first_cases {a b : Ranked} (h : a.le b = true) :
    a.value = .unknown ∨ b.value ≠ .unknown ∧ b.level ≤ a.level := by
  rcases Ranked.le_iff.mp h with ⟨unknown, -⟩ | ⟨-, known, later⟩
  · exact .inl unknown
  · exact .inr ⟨known, by omega⟩

/-- What arranging the literals comes to. -/
structure Arranged (t : Trail) (c : List Lit) (rs : List Ranked) : Prop where
  perm : (rs.map (·.lit)).Perm c
  value : ∀ r ∈ rs, t.litValue r.lit = .ok r.value
  level : ∀ r ∈ rs, t.levelOf r.lit.var = .ok r.level
  sorted : rs.Pairwise fun a b => a.le b = true

/-- What a literal is ranked by has been looked up on the trail. -/
theorem rank_eq_ok {r : Ranked} (h : rank t l = .ok r) :
    r.lit = l ∧ t.litValue r.lit = .ok r.value ∧ t.levelOf r.lit.var = .ok r.level := by
  obtain ⟨value, looked, h⟩ := bind_eq_ok.mp h
  obtain ⟨level, levelOf, h⟩ := bind_eq_ok.mp h
  cases h
  exact ⟨rfl, looked, levelOf⟩

/-- Arranging sorts the literals, with what the trail says of them. -/
theorem arrange_spec {rs : List Ranked} (h : arrange t c = .ok rs) : Arranged t c rs := by
  obtain ⟨ranked, looked, h⟩ := bind_eq_ok.mp h
  cases h
  have perm := List.mergeSort_perm ranked Ranked.le
  have same : ranked.map (·.lit) = c := by
    have pairs := mapM_eq_ok looked
    clear h looked perm
    induction pairs with
    | nil => rfl
    | cons ranks _ ih => rw [List.map_cons, ih, (rank_eq_ok ranks).1]
  have each : ∀ r ∈ ranked.mergeSort Ranked.le,
      t.litValue r.lit = .ok r.value ∧ t.levelOf r.lit.var = .ok r.level := by
    intro r hr
    obtain ⟨l, -, ranks⟩ := mapM_mem_right looked (perm.mem_iff.mp hr)
    exact (rank_eq_ok ranks).2
  have sorted : (ranked.mergeSort Ranked.le).Pairwise fun a b => a.le b = true :=
    List.pairwise_mergeSort Ranked.le_trans Ranked.le_total ranked
  exact ⟨same ▸ perm.map _, fun r hr => (each r hr).1, fun r hr => (each r hr).2, sorted⟩

/-- What the choice of a level to go back to tells of the first two literals. -/
theorem Retreat.of_stay {a b : Ranked} (le : a.le b = true) (h : Retreat.of a b = .stay) :
    (a.value = .fails → b.value = .holds ∧ b.level ≤ a.level) ∧
      (b.value = .fails → a.value = .holds ∧ a.level ≤ b.level) := by
  have order := Ranked.first_cases le
  unfold Retreat.of at h
  split at h
  next second =>
    split at h
    next => cases h
    next apart =>
      split at h
      next => cases h
      next late =>
        rw [not_or, Nat.not_lt] at late
        have above : b.level ≤ a.level := (order.resolve_left late.1).2
        have first : a.value ≠ .fails := fun false_ => apart ⟨false_, Nat.le_antisymm late.2 above⟩
        refine ⟨fun false_ => absurd false_ first, fun _ => ⟨?_, late.2⟩⟩
        cases v : a.value with
        | holds => rfl
        | fails => exact absurd v first
        | unknown => exact absurd v late.1
  next second =>
    refine ⟨fun false_ => ?_, fun false_ => absurd false_ second⟩
    rcases order with unknown | ⟨known, above⟩
    · exact absurd (false_.symm.trans unknown) nofun
    · refine ⟨?_, above⟩
      cases v : b.value with
      | holds => rfl
      | fails => exact absurd v second
      | unknown => exact absurd v known

/-- The solver goes below a level if the first two literals are false there. -/
theorem Retreat.of_below {a b : Ranked} (h : Retreat.of a b = .below k) :
    a.value = .fails ∧ b.value = .fails ∧ a.level = k ∧ b.level = k := by
  unfold Retreat.of at h
  split at h
  next false_ =>
    split at h
    next both =>
      cases h
      exact ⟨both.1, false_, both.2, rfl⟩
    next => split at h <;> cases h
  next => cases h

/-- The solver goes to the level of the second literal if the first one has no value there. -/
theorem Retreat.of_assertAt {a b : Ranked} (h : Retreat.of a b = .assertAt k) :
    b.value = .fails ∧ b.level = k ∧ (a.value = .unknown ∨ k < a.level) := by
  unfold Retreat.of at h
  split at h
  next false_ =>
    split at h
    next => cases h
    next =>
      split at h
      next asserts =>
        cases h
        exact ⟨false_, rfl, asserts⟩
      next => cases h
  next => cases h

section Arranged

variable {a b r : Ranked} {rest rs : List Ranked}

theorem Arranged.true_ (h : Arranged t c rs) (w : t.WF) (hr : r ∈ rs)
    (e : r.value = .holds) : r.lit ∈ t.lits := w.holds_iff.mp (e ▸ h.value r hr)

theorem Arranged.false_ (h : Arranged t c rs) (w : t.WF) (hr : r ∈ rs)
    (e : r.value = .fails) : -r.lit ∈ t.lits := w.fails_iff.mp (e ▸ h.value r hr)

/-- A literal that is false at a level was false before the current one. -/
theorem Arranged.fails (h : Arranged t c rs) (w : t.WF) (hr : r ∈ rs)
    (inside : -r.lit ∈ t.lits) : r.value = .fails :=
  Except.ok.inj ((h.value r hr).symm.trans (w.fails_iff.mpr inside))

/-- A literal ranked as false is false from its level on. -/
theorem Arranged.upTo_iff (h : Arranged t c rs) (w : t.WF) (hr : r ∈ rs)
    (e : r.value = .fails) : -r.lit ∈ t.upTo k ↔ r.level ≤ k :=
  w.mem_upTo_iff (h.false_ w hr e) (h.level r hr)

/-- What is false was made so above the root level, unless it is false there. -/
theorem Arranged.deep (h : Arranged t c rs) (w : t.WF) (free : ∀ l ∈ c, -l ∉ t.upTo 0)
    (hr : r ∈ rs) (e : r.value = .fails) : 0 < r.level := by
  apply Nat.pos_of_ne_zero
  intro root
  have inside := (h.upTo_iff w hr e).mpr (Nat.le_of_eq root)
  exact free r.lit (h.perm.mem_iff.mp (List.mem_map_of_mem hr)) inside

/-- If nothing has to be undone, a watched literal that is false was made so no earlier
than the other became true. -/
theorem Arranged.guarded {body : Clause} (h : Arranged t c (a :: b :: rest)) (w : t.WF)
    (stay : Retreat.of a b = .stay) (first : body.first = a.lit) (second : body.second = b.lit)
    (j : Nat) : body.Guarded (t.upTo j) (t.upTo j) := by
  have ha : a ∈ a :: b :: rest := List.mem_cons_self
  have hb : b ∈ a :: b :: rest := List.mem_cons_of_mem _ List.mem_cons_self
  have le : a.le b = true := (List.pairwise_cons.mp h.sorted).1 b List.mem_cons_self
  obtain ⟨firstFalse, secondFalse⟩ := Retreat.of_stay le stay
  intro x watched inside
  rcases watched with rfl | rfl
  · rw [first] at inside
    have e := h.fails w ha (Trail.mem_of_mem_upTo inside)
    obtain ⟨holds, late⟩ := firstFalse e
    have low := (h.upTo_iff w ha e).mp inside
    refine ⟨b.lit, second ▸ body.second_mem, ?_⟩
    exact (w.mem_upTo_iff (h.true_ w hb holds) (h.level b hb)).mpr (Nat.le_trans late low)
  · rw [second] at inside
    have e := h.fails w hb (Trail.mem_of_mem_upTo inside)
    obtain ⟨holds, late⟩ := secondFalse e
    have low := (h.upTo_iff w hb e).mp inside
    refine ⟨a.lit, first ▸ body.first_mem, ?_⟩
    exact (w.mem_upTo_iff (h.true_ w ha holds) (h.level a ha)).mpr (Nat.le_trans late low)

/-- What inserting a clause comes to. -/
structure Inserted (g : Regime) (s : Solver) (lits : List Lit) (s' : Solver) : Prop where
  inv : s'.Inv g s'.pending none
  descends : s.Descends s'
  ok : s'.ok = s.ok
  stored : ∃ id body, s'.net.body? id = some body ∧ body.learnt = false ∧ body.lits = lits

/-- Before a clause is inserted, the solver may have gone back. -/
theorem Inserted.after {s₁ : Solver} {lits : List Lit} (h : Inserted g s₁ lits s')
    (r : Retreats g s k s₁) : Inserted g s lits s' where
  inv := h.inv
  descends := r.descends.trans h.descends
  ok := h.ok.trans r.ok
  stored := h.stored

/-- Two literals that are not false can be watched at once. -/
theorem Inv.storeOpen {n : Network} {id : ClauseId} (i : s.Inv g s.pending none)
    (h : s.net.addClause c false = .ok (n, id)) (once : (c.map Lit.var).Nodup)
    (entailed : g.sound → Entails g.formula c)
    (guarded : ∀ body : Clause, body.lits = c → ∀ j,
      body.Guarded (s.net.trail.upTo j) (s.net.trail.upTo j)) :
    Inserted g s c { s with net := n } := by
  obtain ⟨body, lits, learnt, stores⟩ := Network.stores h
  have fits : n.Fits (g.during s.ok) n.Lists (fun _ _ => s.pending.isSome = true) := by
    refine stores.fits i.net (lits ▸ once) (fun on => lits ▸ entailed on)
      (fun _ j _ _ => guarded body lits j) (fun due => due) fun _ x watched inside => ?_
    have whole := guarded body lits s.net.trail.level x watched
    rw [Trail.upTo_of_le (Nat.le_refl _)] at whole
    obtain ⟨y, hy, true_⟩ := whole (Array.mem_toList_iff.mpr inside)
    exact .inr ⟨y, hy, Array.mem_toList_iff.mp true_⟩
  have level : n.trail.level = s.level := congrArg Trail.level stores.trail
  refine ⟨i.grown (.of_eq stores.trail) (fun stored => stores.body_old stored) fits,
    .of_eq level rfl, rfl, id, body, stores.body_new, learnt, lits⟩

/-- Behind a false literal stand literals that were assigned no later. -/
theorem Arranged.later (h : Arranged t c (a :: b :: rest)) (false_ : b.value = .fails) :
    ∀ r ∈ b :: rest, r.value ≠ .unknown ∧ r.level ≤ b.level := by
  intro r hr
  rcases List.mem_cons.mp hr with rfl | hr
  · rw [false_]
    exact ⟨nofun, Nat.le_refl _⟩
  · have le := (List.pairwise_cons.mp h.sorted.of_cons).1 r hr
    rcases Ranked.first_cases le with none | assigned
    · rw [false_] at none
      cases none
    · exact assigned

/-- If all literals are false, the solver goes back to where the first two are not. -/
theorem Inv.storeBelow {s₁ : Solver} {n : Network} {id : ClauseId}
    (arr : Arranged s.net.trail c (a :: b :: rest)) (w : s.net.trail.WF)
    (once : (((a :: b :: rest).map (·.lit)).map Lit.var).Nodup)
    (entailed : g.sound → Entails g.formula ((a :: b :: rest).map (·.lit)))
    (below : Retreat.of a b = .below (1 + k)) (retreats : Retreats g s k s₁)
    (h : s₁.net.addClause ((a :: b :: rest).map (·.lit)) false = .ok (n, id)) :
    Inserted g s ((a :: b :: rest).map (·.lit)) { s₁ with net := n } := by
  obtain ⟨aFails, bFails, aLevel, bLevel⟩ := Retreat.of_below below
  have gone : ∀ r ∈ a :: b :: rest, r.value = .fails → r.level = 1 + k →
      -r.lit ∉ s₁.net.trail.lits := by
    intro r hr e high inside
    have low := (arr.upTo_iff w hr e).mp (retreats.mem.mp inside)
    omega
  refine (retreats.inv.storeOpen h once entailed fun body lits j => ?_).after retreats
  obtain ⟨(first : body.first = a.lit), (second : body.second = b.lit), -⟩ :=
    Network.parts_of_lits lits
  intro x watched inside
  have inside := Trail.mem_of_mem_upTo inside
  rcases watched with rfl | rfl
  · rw [first] at inside
    exact absurd inside (gone a List.mem_cons_self aFails aLevel)
  · rw [second] at inside
    exact absurd inside (gone b (List.mem_cons_of_mem _ List.mem_cons_self) bFails bLevel)

/-- If all literals but the first are assigned and the second is false, the solver goes
back to where the clause implies its first literal. -/
theorem Inv.storeAsserting {s₁ : Solver} {n₁ n : Network} {id : ClauseId} {c' : Clause}
    (arr : Arranged s.net.trail c (a :: b :: rest)) (w : s.net.trail.WF)
    (once : (((a :: b :: rest).map (·.lit)).map Lit.var).Nodup)
    (entailed : g.sound → Entails g.formula ((a :: b :: rest).map (·.lit)))
    (asserts : Retreat.of a b = .assertAt k)
    (rightly : g.sound → ∀ r ∈ rest, r.value ≠ .holds)
    (retreats : Retreats g s k s₁)
    (h : s₁.net.addClause ((a :: b :: rest).map (·.lit)) false = .ok (n₁, id))
    (read : n₁.clause id = .ok c')
    (assigned : n₁.enqueue a.lit (Network.reasonFrom id c') = .ok n) :
    Inserted g s ((a :: b :: rest).map (·.lit)) { s₁ with net := n } := by
  obtain ⟨body, lits, learnt, stores⟩ := Network.stores h
  have e := Network.enqueued assigned
  have here : n₁.body? id = some c'.body := Arena.body?_of_get read
  rw [stores.body_new] at here
  cases here
  have lits : c'.lits = (a :: b :: rest).map (·.lit) := lits
  obtain ⟨(first : c'.first = a.lit), (second : c'.second = b.lit), premises⟩ :=
    Network.parts_of_lits lits
  obtain ⟨bFails, bLevel, -⟩ := Retreat.of_assertAt asserts
  have mem : ∀ r ∈ b :: rest, r ∈ a :: b :: rest := fun r => List.mem_cons_of_mem a
  have later := arr.later bFails
  rw [bLevel] at later
  have isFalse : ∀ r ∈ b :: rest, r.value = .fails → -r.lit ∈ s₁.net.trail.lits := by
    intro r hr e
    exact retreats.mem.mpr ((arr.upTo_iff w (mem r hr) e).mpr (later r hr).2)
  have known : ∀ r ∈ b :: rest, ∃ m ∈ s₁.net.trail.lits, m.var = r.lit.var := by
    intro r hr
    cases e : r.value with
    | unknown => exact absurd e (later r hr).1
    | fails => exact ⟨-r.lit, isFalse r hr e, rfl⟩
    | holds =>
        have true_ := arr.true_ w (mem r hr) e
        have low := (w.mem_upTo_iff true_ (arr.level r (mem r hr))).mpr (later r hr).2
        exact ⟨r.lit, retreats.mem.mpr low, rfl⟩
  have bare : ∀ q ∈ c'.premises, ∃ r ∈ b :: rest, r.lit = q := by
    intro q hq
    rw [premises] at hq
    exact List.mem_map.mp hq
  have false_ : g.sound → ∀ q ∈ c'.premises, -q ∈ s₁.net.trail.lits := by
    intro on q hq
    obtain ⟨r, hr, rfl⟩ := bare q hq
    apply isFalse r hr
    cases v : r.value with
    | fails => rfl
    | unknown => exact absurd v (later r hr).1
    | holds =>
        rcases List.mem_cons.mp hr with rfl | hr
        · exact absurd (bFails.symm.trans v) nofun
        · exact absurd v (rightly on r hr)
  have assigned_ : ∀ q ∈ c'.premises, ∃ m ∈ s₁.net.trail.lits, m.var = q.var := by
    intro q hq
    obtain ⟨r, hr, rfl⟩ := bare q hq
    exact known r hr
  have late : ∀ j, j < s₁.level → -c'.second ∉ s₁.net.trail.upTo j := by
    intro j low inside
    have below : j < k := by
      have bound : s₁.level = min k s.level := retreats.level
      omega
    rw [second, retreats.upTo j (Nat.le_of_lt below)] at inside
    have high := (arr.upTo_iff w (mem b List.mem_cons_self) bFails).mp inside
    omega
  rw [← first] at e
  obtain ⟨inv, level⟩ := retreats.inv.storeImplying stores (.refl n₁) e (lits ▸ once)
    (fun on => lits ▸ entailed on) false_ assigned_ fun _ j low _ => late j low
  have inserted : Inserted g s₁ ((a :: b :: rest).map (·.lit)) { s₁ with net := n } :=
    ⟨inv, .of_eq level rfl, rfl, id, c'.body, (e.body _).trans stores.body_new, learnt, lits⟩
  exact inserted.after retreats

/-- A clause that is arranged, and implies rightly, is inserted with the invariant kept. -/
theorem Inv.insertArranged (i : s.Inv g s.pending none)
    (arr : Arranged s.net.trail c (a :: b :: rest)) (once : (c.map Lit.var).Nodup)
    (entailed : g.sound → Entails g.formula c)
    (rightly : g.sound → ∀ k, Retreat.of a b = .assertAt k → ∀ r ∈ rest, r.value ≠ .holds)
    (settled : (g.during s.ok).paced → s'.level < s.level → g.settled s'.level)
    (h : s.insertArranged a b ((a :: b :: rest).map (·.lit)) = .ok s') :
    Inserted g s ((a :: b :: rest).map (·.lit)) s' := by
  have w := i.net.wf.trail
  have once : (((a :: b :: rest).map (·.lit)).map Lit.var).Nodup :=
    ((arr.perm.map Lit.var).nodup_iff).mpr once
  have entailed : g.sound → Entails g.formula ((a :: b :: rest).map (·.lit)) := fun on =>
    (entailed on).mono fun l hl => arr.perm.mem_iff.mpr hl
  -- storing a clause and assigning a literal leave the level that was gone back to
  have landing : ∀ {s₁ : Solver} {n : Network}, n.trail.level = s₁.level →
      s' = { s₁ with net := n } →
      (g.during s.ok).paced → s₁.level < s.level → g.settled s₁.level := by
    intro s₁ n level same
    subst same
    rw [← level]
    exact settled
  unfold Solver.insertArranged at h
  split at h
  next stay =>
    obtain ⟨⟨n, id⟩, added, h⟩ := bind_eq_ok.mp h
    cases h
    refine i.storeOpen added once entailed fun body lits j => ?_
    obtain ⟨first, second, -⟩ := Network.parts_of_lits lits
    exact arr.guarded w stay first second j
  next level below =>
    obtain ⟨k, counted, h⟩ := bind_eq_ok.mp h
    obtain ⟨s₁, cancelled, h⟩ := bind_eq_ok.mp h
    obtain ⟨⟨n, id⟩, added, h⟩ := bind_eq_ok.mp h
    have same : level = 1 + k := checkedSub_eq_ok.mp counted
    obtain ⟨_, _, _, stores⟩ := Network.stores added
    have retreats := i.retreats
      (landing (congrArg Trail.level stores.trail) (Except.ok.inj h).symm) cancelled
    cases h
    exact Inv.storeBelow arr w once entailed (same ▸ below) retreats added
  next level asserts =>
    obtain ⟨s₁, cancelled, h⟩ := bind_eq_ok.mp h
    obtain ⟨⟨n₁, id⟩, added, h⟩ := bind_eq_ok.mp h
    obtain ⟨c', read, h⟩ := bind_eq_ok.mp h
    obtain ⟨n, assigned, h⟩ := bind_eq_ok.mp h
    obtain ⟨_, _, _, stores⟩ := Network.stores added
    have pushed := Trail.level_push (Network.enqueued assigned).trail
    have retreats := i.retreats (landing (pushed.trans (congrArg Trail.level stores.trail))
      (Except.ok.inj h).symm) cancelled
    cases h
    exact Inv.storeAsserting arr w once entailed asserts (fun on => rightly on _ asserts)
      retreats added read assigned

end Arranged

/-! ## Adding a clause -/

/-- Literals false at the root level can be left out of a clause that follows. -/
theorem Kept.entails {n : Network} {f : List (List Lit)} (h : Kept n.trail d c)
    (sound : n.Sound f) (entailed : Entails f d) : Entails f c :=
  entailed.drop fun l hl => (h.dropped l hl).imp_right sound.root

/-- Making a literal a fact of the root level. -/
theorem Inv.assertUnit {b : Bool} (i : s.Inv g none none) (root : s.level = 0)
    (ok : s.ok = true) (fact : g.sound → Entails g.formula [l])
    (h : s.assertUnit l = .ok (s', b)) : s'.Inv g none none ∧ s'.pending = s.pending ∧
      s'.level = 0 ∧ s'.ok = b ∧ l ∈ s'.net.trail.lits := by
  obtain ⟨s₁, assigned, h⟩ := bind_eq_ok.mp h
  obtain ⟨n, enqueued, rfl⟩ := updateNet_eq_ok.mp assigned
  have e := Network.enqueued enqueued
  obtain ⟨i₁, same⟩ := i.enqueueFact root fact e
  obtain ⟨⟨s₂, conflict⟩, propagated, h⟩ := bind_eq_ok.mp h
  obtain ⟨advance, i₂⟩ := i₁.propagateAll propagated
  have here : l ∈ s₂.net.trail.lits :=
    advance.grows.lits ((Trail.mem_push e.trail).mpr (.inr rfl))
  have level : s₂.level = 0 := advance.level.trans (same.trans root)
  have pending : s₂.pending = s.pending := by rw [advance.rest]
  cases conflict with
  | none =>
      cases h
      have ok : s'.ok = true := by
        rw [advance.rest]
        exact ok
      exact ⟨i₂, pending, level, ok, here⟩
  | some id =>
      cases h
      exact ⟨i₂.fail (i₂.unsatisfiable level) (.inl rfl), pending, level, rfl, here⟩

/-- What adding a clause comes to. -/
structure Added (g : Regime) (s : Solver) (d : List Lit) (s' : Solver) (b : Bool) : Prop where
  inv : s'.Inv (g.more [d]) s'.pending none
  descends : s.Descends s'
  answer : s'.ok = b

/-- The formula has grown, and the clause is not stored yet. -/
theorem Inv.extend (i : s.Inv g s.pending none) (d : List Lit) :
    s.Inv { g with formula := g.formula ++ [d] } s.pending none :=
  i.formula fun _ entailed => entailed.append [d]

theorem Inserted.added {lits : List Lit}
    (h : Inserted { g with formula := g.formula ++ [d] } s lits s')
    (sub : ∀ l ∈ lits, l ∈ d) (ok : s.ok = true) : Added g s d s' true := by
  obtain ⟨id, body, stored, learnt, rfl⟩ := h.stored
  exact ⟨h.inv.represented fun _ => .inr (.inr ⟨id, body, stored, learnt, sub⟩), h.descends,
    h.ok.trans ok⟩

/-- A clause that is satisfied whatever happens need not be stored. -/
theorem Inv.addSatisfied (i : s.Inv g s.pending none) (ok : s.ok = true)
    (satisfied : Normalized s.net.trail d (.satisfied kept)) : Added g s d s true :=
  ⟨(i.extend d).represented fun _ => satisfied.imp_right .inl, .of_eq rfl rfl, ok⟩

/-- A clause of which nothing is left refutes the formula. -/
theorem Inv.addEmpty (i : s.Inv g s.pending none) (kept : Kept s.net.trail d []) :
    Added g s d { s with ok := false } false := by
  have unsatisfiable : g.sound → Unsatisfiable (g.formula ++ [d]) := fun on =>
    unsatisfiable_iff_entails_nil.mpr
      (kept.entails ((i.extend d).net.sound on) (entails_of_mem (by simp)))
  exact ⟨((i.extend d).fail unsatisfiable (.inr rfl)).represented nofun, .of_eq rfl rfl, rfl⟩

/-- A clause of one literal is a fact from now on. -/
theorem Inv.addUnit {b : Bool} (i : s.Inv g s.pending none) (idle : s.pending = none)
    (root : s.level = 0) (ok : s.ok = true) (mem : l ∈ d)
    (fact : g.sound → Entails (g.formula ++ [d]) [l]) (h : s.assertUnit l = .ok (s', b)) :
    Added g s d s' b ∧ s'.level = 0 := by
  have i₁ := i.extend d
  rw [idle] at i₁
  obtain ⟨inv, pending, level, answer, here⟩ := i₁.assertUnit root ok fact h
  have descends : s.Descends s' := .of_eq (level.trans root.symm) pending
  rw [idle] at pending
  refine ⟨⟨pending ▸ inv.represented fun _ => .inl ⟨l, mem, ?_⟩, descends, answer⟩, level⟩
  rw [Trail.upTo_of_le (Nat.le_of_eq level)]
  exact Array.mem_toList_iff.mpr here

/-- Adding a clause at the root level. -/
theorem Inv.addAtRoot {b : Bool} {left : List Lit} (i : s.Inv g s.pending none)
    (idle : s.pending = none) (root : s.level = 0) (ok : s.ok = true)
    (h : s.addAtRoot d = .ok (s', b, left)) : Added g s d s' b := by
  obtain ⟨normal, normalized, h⟩ := bind_eq_ok.mp h
  have spec := normalize_spec i.net.wf.trail normalized
  have entailed : Entails (g.formula ++ [d]) d := entails_of_mem (by simp)
  split at h
  next kept =>
    cases h
    exact i.addSatisfied ok spec
  next =>
    cases h
    exact i.addEmpty spec
  next l =>
    have kept : Kept s.net.trail d [l] := spec
    obtain ⟨⟨s₁, answer⟩, asserted, h⟩ := bind_eq_ok.mp h
    cases h
    have fact : g.sound → Entails (g.formula ++ [d]) [l] := fun on =>
      kept.entails ((i.extend d).net.sound on) entailed
    exact (i.addUnit idle root ok (kept.mem l List.mem_cons_self) fact asserted).1
  next lits _ _ =>
    have kept : Kept s.net.trail d lits := spec
    obtain ⟨⟨n, id⟩, added, h⟩ := bind_eq_ok.mp h
    cases h
    have inserted := (i.extend d).storeOpen added kept.once
      (fun on => kept.entails ((i.extend d).net.sound on) entailed) fun body lits j => ?_
    · exact inserted.added kept.mem ok
    · -- at the root level no literal that is kept is false
      intro x watched inside
      have inside := Trail.mem_of_mem_upTo inside
      rw [← Array.mem_toList_iff, ← Trail.upTo_of_le (Nat.le_of_eq root)] at inside
      refine absurd inside (kept.free x ?_)
      rw [← lits]
      rcases watched with rfl | rfl
      · exact body.first_mem
      · exact body.second_mem

/-- The literals behind the second place of a clause that is to be stored so that it
implies its first literal. -/
def behindImplied (s : Solver) (d : List Lit) : List Ranked :=
  match normalize s.net.trail (Lit.sort d) with
  | .ok (.clause c) =>
      match arrange s.net.trail c with
      | .ok (a :: b :: rest) =>
          match Retreat.of a b with
          | .assertAt _ => rest
          | _ => []
      | _ => []
  | _ => []

/-- If the clause is stored to imply its first literal, no literal behind the second
place is true. -/
def AssertsRightly (s : Solver) (d : List Lit) : Prop :=
  ∀ r ∈ s.behindImplied d, r.value ≠ .holds

theorem behindImplied_of_assertAt {a b : Ranked} {rest : List Ranked}
    (normalized : normalize s.net.trail (Lit.sort d) = .ok (.clause c))
    (arranged : arrange s.net.trail c = .ok (a :: b :: rest))
    (asserts : Retreat.of a b = .assertAt k) : s.behindImplied d = rest := by
  simp only [behindImplied, normalized, arranged, asserts]

/-- A clause of which one literal is left takes the solver back to the root level. -/
theorem Inv.addUnitAboveRoot {b : Bool} {s₁ : Solver} (i : s.Inv g s.pending none)
    (high : 0 < s.level) (ok : s.ok = true)
    (settled : (g.during s'.ok).paced → s'.level < s.level → g.settled s'.level) (mem : l ∈ d)
    (fact : g.sound → Entails (g.formula ++ [d]) [l]) (cancelled : s.cancelUntil 0 = .ok s₁)
    (h : s₁.assertUnit l = .ok (s', b)) : Added g s d s' b := by
  have loose := i.unpaced.retreats (fun on => on.1.elim) cancelled
  have root : s₁.level = 0 := loose.level.trans (Nat.zero_min _)
  have idle : s₁.pending = none :=
    loose.descends.idle (fun zero => absurd zero (Nat.ne_of_gt high)) root
  have ok₁ : s₁.ok = true := loose.ok.trans ok
  obtain ⟨added, level⟩ := loose.inv.addUnit idle root ok₁ mem fact h
  -- whether the root level has to be settled shows in the answer
  cases b with
  | false =>
      have inv : s'.Inv { g.more [d] with paced := False } s'.pending none := added.inv
      exact ⟨inv.paced added.answer, loose.descends.trans added.descends, added.answer⟩
  | true =>
      have settled : (g.during s.ok).paced → s₁.level < s.level → g.settled s₁.level := by
        intro on _
        rw [root, ← level]
        exact settled ⟨on.1, added.answer⟩ (level ▸ high)
      have retreats := i.retreats settled cancelled
      obtain ⟨added, -⟩ := retreats.inv.addUnit idle root ok₁ mem fact h
      exact ⟨added.inv, retreats.descends.trans added.descends, added.answer⟩

/-- Adding a clause above the root level. -/
theorem Inv.addAboveRoot {b : Bool} {left : List Lit} (i : s.Inv g s.pending none)
    (high : 0 < s.level) (ok : s.ok = true) (rightly : g.sound → s.AssertsRightly d)
    (settled : (g.during s'.ok).paced → s'.level < s.level → g.settled s'.level)
    (h : s.addAboveRoot d = .ok (s', b, left)) : Added g s d s' b := by
  obtain ⟨normal, normalized, h⟩ := bind_eq_ok.mp h
  have spec := normalize_spec i.net.wf.trail normalized
  have entailed : Entails (g.formula ++ [d]) d := entails_of_mem (by simp)
  split at h
  next kept =>
    cases h
    exact i.addSatisfied ok spec
  next =>
    cases h
    exact i.addEmpty spec
  next l =>
    have kept : Kept s.net.trail d [l] := spec
    obtain ⟨s₁, cancelled, h⟩ := bind_eq_ok.mp h
    obtain ⟨⟨s₂, answer⟩, asserted, h⟩ := bind_eq_ok.mp h
    cases h
    exact i.addUnitAboveRoot high ok settled (kept.mem l List.mem_cons_self)
      (fun on => kept.entails ((i.extend d).net.sound on) entailed) cancelled asserted
  next lits _ _ =>
    have kept : Kept s.net.trail d lits := spec
    obtain ⟨rs, arranged, h⟩ := bind_eq_ok.mp h
    split at h
    next a b rest =>
      obtain ⟨s₁, insertion, h⟩ := bind_eq_ok.mp h
      cases h
      have arr := arrange_spec arranged
      have falseBehind : g.sound → ∀ k, Retreat.of a b = .assertAt k →
          ∀ r ∈ rest, r.value ≠ .holds := by
        intro on k asserts
        rw [← behindImplied_of_assertAt normalized arranged asserts]
        exact rightly on
      -- inserting does not change the flag
      have loose := (i.unpaced.extend d).insertArranged arr kept.once
        (fun on => kept.entails ((i.extend d).net.sound on) entailed)
        falseBehind (fun on => on.1.elim) insertion
      have inserted := (i.extend d).insertArranged arr kept.once
        (fun on => kept.entails ((i.extend d).net.sound on) entailed)
        falseBehind (fun on => settled ⟨on.1, loose.ok.trans ok⟩) insertion
      exact inserted.added (fun l hl => kept.mem l (arr.perm.mem_iff.mp hl)) ok
    next => cases h

/-- Adding a clause keeps the invariant, for the formula with the clause. -/
theorem Inv.addClause {b : Bool} {left : List Lit} (i : s.Inv g s.pending none)
    (idle : s.level = 0 → s.pending = none)
    (rightly : g.sound → s.ok = true → 0 < s.level → s.AssertsRightly d)
    (settled : (g.during s'.ok).paced → s'.level < s.level → g.settled s'.level)
    (h : s.addClauseReporting d = .ok (s', b, left)) : Added g s d s' b := by
  unfold addClauseReporting at h
  split at h
  next failed =>
    cases h
    have failed : s.ok = false := by simpa using failed
    exact ⟨(i.extend d).represented fun ok => absurd (failed.symm.trans ok) nofun,
      .of_eq rfl rfl, failed⟩
  next fine =>
    have ok : s.ok = true := by simpa using fine
    split at h
    next root =>
      have logged : (s.log (.addAtRoot d)).Inv g (s.log (.addAtRoot d)).pending none :=
        (kin_log rfl s).inv i
      have added := logged.addAtRoot (idle root) root ok h
      exact ⟨added.inv, ⟨added.descends.level, added.descends.pending⟩, added.answer⟩
    next high =>
      have logged :
          (s.log (.addAtLevel d s.level)).Inv g (s.log (.addAtLevel d s.level)).pending none :=
        (kin_log rfl s).inv i
      have high : 0 < s.level := Nat.pos_of_ne_zero high
      have added := logged.addAboveRoot high ok (fun on => rightly on ok high) settled h
      exact ⟨added.inv, ⟨added.descends.level, added.descends.pending⟩, added.answer⟩

/-! ## Implying rightly -/

variable {a b : Ranked} {rest : List Ranked}

/-- Literals are looked at only if two or more are left and the solver goes to where the clause
implies its first. -/
theorem mem_behindImplied {r : Ranked} (h : r ∈ s.behindImplied d) : ∃ c a b rest k,
    normalize s.net.trail (Lit.sort d) = .ok (.clause c) ∧
      arrange s.net.trail c = .ok (a :: b :: rest) ∧ Retreat.of a b = .assertAt k ∧
      r ∈ rest := by
  unfold behindImplied at h
  split at h
  next c normalized =>
    split at h
    next a b rest arranged =>
      split at h
      next k asserts => exact ⟨c, a, b, rest, k, normalized, arranged, asserts, h⟩
      next => cases h
    next => cases h
  next => cases h

/-- A clause of which two literals or more are left is inserted. -/
theorem insertArranged_of_addAboveRoot {answer : Bool} {left : List Lit}
    (normalized : normalize s.net.trail (Lit.sort d) = .ok (.clause c))
    (arranged : arrange s.net.trail c = .ok (a :: b :: rest))
    (h : s.addAboveRoot d = .ok (s', answer, left)) :
    answer = true ∧ s.insertArranged a b ((a :: b :: rest).map (·.lit)) = .ok s' := by
  have length : 2 ≤ c.length := by
    rw [← (arrange_spec arranged).perm.length_eq, List.length_map]
    exact Nat.le_add_left 2 _
  obtain ⟨normal, normalized', h⟩ := bind_eq_ok.mp h
  have same : normal = .clause c := Except.ok.inj (normalized'.symm.trans normalized)
  subst same
  split at h
  next stands => cases stands
  next stands => cases stands; simp at length
  next stands => cases stands; simp at length
  next lits _ _ stands =>
    cases stands
    obtain ⟨rs, arranged', h⟩ := bind_eq_ok.mp h
    have same : rs = a :: b :: rest := Except.ok.inj (arranged'.symm.trans arranged)
    subst same
    obtain ⟨s₁, insertion, h⟩ := bind_eq_ok.mp h
    cases h
    exact ⟨rfl, insertion⟩

/-- A literal that is true behind the second place stays true when the clause is stored,
so the reason made of the clause does not hold. -/
theorem Inv.not_justified {r : Ranked} (i : s.Inv g s.pending none) (high : 0 < s.level)
    (kept : Kept s.net.trail d c) (arr : Arranged s.net.trail c (a :: b :: rest))
    (asserts : Retreat.of a b = .assertAt k) (mem : r ∈ rest) (true_ : r.value = .holds)
    (h : s.insertArranged a b ((a :: b :: rest).map (·.lit)) = .ok s')
    (w' : s'.net.trail.WF) : ¬s'.net.Justified := by
  intro justified
  have w := i.net.wf.trail
  obtain ⟨bFails, bLevel, -⟩ := Retreat.of_assertAt asserts
  have hb : b ∈ a :: b :: rest := List.mem_cons_of_mem _ List.mem_cons_self
  have hr : r ∈ a :: b :: rest := List.mem_cons_of_mem _ (List.mem_cons_of_mem _ mem)
  -- the clause implies its first literal above the root level
  have above : 0 < k := bLevel ▸ arr.deep w kept.free hb bFails
  unfold Solver.insertArranged at h
  rw [asserts] at h
  obtain ⟨s₁, cancelled, h⟩ := bind_eq_ok.mp h
  obtain ⟨⟨n₁, id⟩, added, h⟩ := bind_eq_ok.mp h
  obtain ⟨c', read, h⟩ := bind_eq_ok.mp h
  obtain ⟨n, assigned, h⟩ := bind_eq_ok.mp h
  cases h
  obtain ⟨body, lits, -, stores⟩ := Network.stores added
  have e := Network.enqueued assigned
  have here : n₁.body? id = some c'.body := Arena.body?_of_get read
  have same : body = c'.body := Option.some.inj (stores.body_new.symm.trans here)
  subst same
  have lits : c'.lits = (a :: b :: rest).map (·.lit) := lits
  obtain ⟨(first : c'.first = a.lit), -, premises⟩ := Network.parts_of_lits lits
  have retreats := i.unpaced.retreats (fun on => on.1.elim) cancelled
  have trail : n₁.trail = s₁.net.trail := stores.trail
  have level : s₁.net.trail.level = min k s.level := retreats.level
  have deep : 0 < n₁.trail.level := by
    rw [trail, level]
    omega
  have new := e.assigned_new (trail ▸ retreats.inv.net.wf.trail) deep
  have implied := Network.behind_reasonFrom here
  have behind : n.Behind c'.first c'.premises (Network.reasonFrom id c') := e.behind.mpr implied
  rw [first] at behind
  have premise : r.lit ∈ c'.premises := by
    rw [premises]
    exact List.mem_map.mpr ⟨r, List.mem_cons_of_mem _ mem, rfl⟩
  have false_ : -r.lit ∈ n.trail.lits := justified new behind r.lit premise
  -- but the literal was true at a level that has been kept
  have low : r.level ≤ k := by
    have later := (arr.later bFails r (List.mem_cons_of_mem _ mem)).2
    omega
  have before := arr.true_ w hr true_
  have stays : r.lit ∈ s₁.net.trail.lits :=
    retreats.mem.mpr ((w.mem_upTo_iff before (arr.level r hr)).mpr low)
  have still : r.lit ∈ n.trail.lits := (Trail.mem_push e.trail).mpr (.inl (trail.symm ▸ stays))
  exact w'.not_both still false_

/-- Above the root level, the reasons hold after a clause has been added only if the
clause implied rightly. -/
theorem Inv.assertsRightly_of_justified {answer : Bool} {left : List Lit}
    (i : s.Inv g s.pending none) (ok : s.ok = true) (high : 0 < s.level)
    (w' : s'.net.trail.WF) (h : s.addClauseReporting d = .ok (s', answer, left))
    (justified : s'.net.Justified) : s.AssertsRightly d := by
  intro r mem true_
  obtain ⟨c, a, b, rest, k, normalized, arranged, asserts, hr⟩ := mem_behindImplied mem
  have kept : Kept s.net.trail d c := normalize_spec i.net.wf.trail normalized
  have arr := arrange_spec arranged
  have logged :
      (s.log (.addAtLevel d s.level)).Inv g (s.log (.addAtLevel d s.level)).pending none :=
    (kin_log rfl s).inv i
  unfold addClauseReporting at h
  rw [if_neg (by simp [ok]), if_neg (Nat.ne_of_gt high)] at h
  obtain ⟨-, insertion⟩ := insertArranged_of_addAboveRoot (s := s.log (.addAtLevel d s.level))
    normalized arranged h
  exact Inv.not_justified logged high kept arr asserts hr true_ insertion w' justified

end Cdcl.Solver
