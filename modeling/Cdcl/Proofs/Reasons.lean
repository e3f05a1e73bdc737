import Cdcl.Proofs.Refutation
import Cdcl.Proofs.Watching

/-!
# Trail and reasons

What the trail of a solver says of itself is so in every state that calls lead to.

* `Trail.Ordered` — the list of literals, the values, the marks and the levels agree;
* `Network.Explained` — a literal above the root level is the first one of its level, or
  has a reason: a stored clause all of whose other literals became false before;
* `trail_explained` — the theorem about runs that add their clauses at the root level.
-/

namespace Cdcl

/-! ## The trail -/

/-- The list of literals, the values, the marks and the levels agree. -/
structure Trail.Ordered (t : Trail) : Prop where
  once : (t.lits.toList.map Lit.var).Nodup
  value : ∀ v b, t.value v = .ok (.ofBool b) ↔ (⟨v, b⟩ : Lit) ∈ t.lits
  free : ∀ v : Var, v.index < t.numVars →
    (t.value v = .ok .unknown ↔ ∀ l ∈ t.lits, l.var ≠ v)
  sorted : t.marks.toList.Pairwise (· ≤ ·)
  bounded : ∀ m ∈ t.marks.toList, m ≤ t.lits.size
  head : t.head ≤ t.lits.size
  level : ∀ {i l}, t.lits[i]? = some l →
    t.levelOf l.var = .ok (t.marks.toList.countP (· ≤ i))

/-- The marks at or before a position are those before the first one behind it. -/
theorem countP_le_iff {marks : List Nat} {size i k : Nat} (sorted : marks.Pairwise (· ≤ ·))
    (low : i < size) : marks.countP (· ≤ i) ≤ k ↔ i < (marks[k]?).getD size := by
  induction marks generalizing k with
  | nil => simpa using low
  | cons m marks ih =>
      obtain ⟨first, rest⟩ := List.pairwise_cons.mp sorted
      rw [List.countP_cons]
      by_cases inside : m ≤ i
      · rw [if_pos (decide_eq_true inside)]
        cases k with
        | zero => simpa using inside
        | succ k => simpa using ih rest
      · have none_ : marks.countP (· ≤ i) = 0 :=
          List.countP_eq_zero.mpr fun x hx => by
            have := first x hx
            simp only [decide_eq_true_eq]
            omega
        rw [if_neg (by simpa using inside), none_]
        cases k with
        | zero => simpa using inside
        | succ k => simpa using (ih rest).mp (none_ ▸ Nat.zero_le k)

theorem Trail.cut_eq_getD (t : Trail) (k : Nat) :
    t.cut k = (t.marks.toList[k]?).getD t.lits.size := by
  rw [cut, Array.getElem?_toList]

theorem Trail.WF.pairwise_marks {t : Trail} (w : t.WF) : t.marks.toList.Pairwise (· ≤ ·) :=
  List.pairwise_iff_getElem.mpr fun i j hi hj before => by
    have le := w.sorted (Nat.le_of_lt before)
    rwa [cut_eq_getD, cut_eq_getD, List.getElem?_eq_getElem hi,
      List.getElem?_eq_getElem hj] at le

/-- A well-formed trail is in order. -/
theorem Trail.WF.ordered {t : Trail} (w : t.WF) : t.Ordered where
  once := w.once
  value _ _ := w.held
  free v known := by
    obtain ⟨x, read⟩ := (DenseMap.exists_get (m := t.values) (k := v)).mpr known
    constructor
    · rintro unknown ⟨u, b⟩ inside rfl
      exact Truth.ofBool_ne_unknown b
        (Except.ok.inj ((w.held.mpr inside).symm.trans unknown))
    · intro none_
      by_cases free : x = .unknown
      · exact free ▸ read
      · obtain ⟨b, rfl⟩ := Truth.eq_ofBool free
        exact absurd rfl (none_ _ (w.held.mp read))
  sorted := w.pairwise_marks
  bounded m inside := by
    obtain ⟨k, here, rfl⟩ := List.mem_iff_getElem.mp inside
    have le := w.cut_le (k := k)
    rwa [cut_eq_getD, List.getElem?_eq_getElem here] at le
  head := w.head
  level {i l} here := by
    obtain ⟨o, origin⟩ := w.exists_origin (Array.mem_of_getElem? here)
    have low : i < t.lits.size := (Array.getElem?_eq_some_iff.mp here).1
    have sorted := w.pairwise_marks
    have same : ∀ k, o.level ≤ k ↔ t.marks.toList.countP (· ≤ i) ≤ k := fun k => by
      rw [w.level here origin, countP_le_iff sorted low, cut_eq_getD]
    have le := (same _).mpr (Nat.le_refl _)
    have ge := (same _).mp (Nat.le_refl _)
    exact levelOf_eq_ok.mpr ⟨o, origin, Nat.le_antisymm le ge⟩

/-- A mark at the place of a literal is the one with which its level begins. -/
theorem Trail.WF.mark_of_level {t : Trail} (w : t.WF) {i j k : Nat} {l : Lit}
    (here : t.lits[i]? = some l) (mark : t.marks[j]? = some i)
    (level : t.levelOf l.var = .ok k) : ∃ j, k = j + 1 ∧ t.marks[j]? = some i := by
  have place : t.cut j = i := by rw [cut, mark]; rfl
  have after : j < k := by
    rw [← Nat.not_le, ← w.lt_cut_iff here level, place]
    exact Nat.lt_irrefl i
  obtain ⟨m, rfl⟩ : ∃ m, k = m + 1 := ⟨k - 1, by omega⟩
  have low : m < t.marks.size := w.levelOf_le (Array.mem_of_getElem? here) level
  have before : t.cut m ≤ i := by
    rw [← Nat.not_lt, w.lt_cut_iff here level]
    exact Nat.not_succ_le_self m
  have behind := w.sorted (Nat.le_of_lt_succ after)
  refine ⟨m, rfl, ?_⟩
  rw [cut, Array.getElem?_eq_getElem low, Option.getD_some] at before
  rw [place, cut, Array.getElem?_eq_getElem low, Option.getD_some] at behind
  rw [Array.getElem?_eq_getElem low, Nat.le_antisymm before behind]

/-! ## Reasons -/

namespace Network

/-- How a literal came to its place on the trail, above the root level: it is the first
literal of its level, or it is implied by a stored clause whose other literals have become
false before. -/
inductive Explained (n : Network) (i : Nat) (l : Lit) : Prop
  | first {k : Nat} : n.trail.reasonOf l.var = .ok .decision →
      n.trail.levelOf l.var = .ok (k + 1) → n.trail.marks[k]? = some i → n.Explained i l
  | implied {r : Reason} {ps : List Lit} {id : ClauseId} {c : Clause} :
      n.trail.reasonOf l.var = .ok r → r ≠ .decision → n.premises r = .ok ps →
      (∀ q ∈ ps, n.trail.litValue q = .ok .fails ∧ ∃ j < i, n.trail.lits[j]? = some (-q)) →
      id ∈ n.ids → n.clause id = .ok c → c.lits.Perm (l :: ps) →
      (∀ id', r = .clause id' → id' = id ∧ c.first = l) → n.Explained i l

variable {n : Network} {i : Nat} {l : Lit} {r : Reason} {ps : List Lit} {f : List (List Lit)}

theorem premises_of_behind (behind : n.Behind l ps r) : n.premises r = .ok ps := by
  cases r with
  | decision => exact behind.elim
  | binary a => exact congrArg _ behind.symm
  | ternary a b => exact congrArg _ behind.symm
  | clause id =>
      obtain ⟨c, stored, -, rfl⟩ := behind
      obtain ⟨d, read, rfl⟩ := exists_clause stored
      exact bind_eq_ok.mpr ⟨d, read, rfl⟩

/-- A reason is a stored clause. -/
theorem exists_reason (g : n.view.Grounded) (a : n.Assigned i l r) (behind : n.Behind l ps r) :
    ∃ id c, n.body? id = some c ∧ c.lits.Perm (l :: ps) ∧
      ∀ id', r = .clause id' → id' = id ∧ c.first = l := by
  cases r with
  | decision => exact behind.elim
  | binary q =>
      cases behind
      obtain ⟨id, c, stored, -, perm⟩ := g.sourced a rfl
      exact ⟨id, c, stored, perm, nofun⟩
  | ternary q q' =>
      cases behind
      obtain ⟨id, c, stored, -, perm⟩ := g.sourced a rfl
      exact ⟨id, c, stored, perm, nofun⟩
  | clause id =>
      obtain ⟨c, stored, rfl, rfl⟩ := behind
      exact ⟨id, c, stored, .refl _, fun id' same => ⟨(Reason.clause.inj same).symm, rfl⟩⟩

/-- Each literal above the root level of a sturdy network is explained. -/
theorem explained (w : n.WF n.Lists) (sound : n.Sound f) (s : n.view.Sturdy)
    (here : n.trail.lits[i]? = some l) (above : n.trail.levelOf l.var ≠ .ok 0) :
    n.Explained i l := by
  have inside := Array.mem_of_getElem? here
  obtain ⟨k, level⟩ := w.trail.exists_level inside
  obtain ⟨o, origin⟩ := w.trail.exists_origin inside
  have reason : n.trail.reasonOf l.var = .ok o.reason := Trail.reasonOf_eq_ok.mpr ⟨o, origin, rfl⟩
  have high : n.trail.cut 0 ≤ i := by
    rw [← Nat.not_lt, w.trail.lt_cut_iff here level, Nat.le_zero]
    rintro rfl
    exact above level
  have assigned : n.Assigned i l o.reason := ⟨here, high, reason⟩
  by_cases decided : o.reason = .decision
  · rw [decided] at assigned reason
    obtain ⟨j, mark⟩ := s.grounded.led assigned
    obtain ⟨j, rfl, mark⟩ := w.trail.mark_of_level here mark level
    exact .first reason level mark
  · obtain ⟨ps, behind, earlier⟩ := w.reasons assigned decided
    obtain ⟨false_, -⟩ := sound.reasons assigned behind
    obtain ⟨id, c, stored, perm, named⟩ := exists_reason s.grounded assigned behind
    obtain ⟨d, read, rfl⟩ := exists_clause stored
    refine .implied reason decided (premises_of_behind behind) (fun q hq => ?_)
      ((mem_ids s.indexed).mpr ⟨_, stored⟩) read perm named
    refine ⟨w.trail.fails_iff.mpr (false_ q hq), ?_⟩
    obtain ⟨j, m, before, there, same⟩ := earlier q hq
    have eq : m = -q := w.trail.eq_of_var (Array.mem_of_getElem? there) (false_ q hq) same
    exact ⟨j, before, eq ▸ there⟩

end Network

/-! ## Runs -/

namespace Solver

variable {options : Options} {calls : List Call} {s : Solver}

/-- If clauses are added at the root level, then the trail is in order and each literal
above the root level is explained, even if levels were begun before everything was
propagated. -/
theorem Reaches.trail_explained (run : Reaches options AddsAtRoot calls s) :
    s.net.trail.Ordered ∧ ∀ {i l}, s.net.trail.lits[i]? = some l →
      s.net.trail.levelOf l.var ≠ .ok 0 → s.net.Explained i l := by
  have net := (run.mono AddsAtRoot.rightly).ready.inv.net
  exact ⟨net.wf.trail.ordered, Network.explained net.wf (net.sound trivial) run.sane.sturdy⟩

/-- Two levels, of which the first is begun before the other, and then a long clause and
a short one that imply literals. -/
def laggingLevels : List Call :=
  [.newVar {}, .newVar {}, .newVar {}, .newVar {}, .newVar {}, .newVar {},
    .addClause [⟨⟨0⟩, false⟩, ⟨⟨2⟩, true⟩],
    .addClause [⟨⟨0⟩, false⟩, ⟨⟨1⟩, false⟩, ⟨⟨2⟩, false⟩, ⟨⟨3⟩, true⟩],
    .decide ⟨⟨0⟩, true⟩, .decide ⟨⟨1⟩, true⟩, .propagate]

/-- The literal that a long clause implies at the second level has two levels of premises. -/
theorem lagging_levels_explained : ∃ s, Reaches {} AddsAtRoot laggingLevels s ∧
    s.net.trail.lits = #[⟨⟨0⟩, true⟩, ⟨⟨1⟩, true⟩, ⟨⟨2⟩, true⟩, ⟨⟨3⟩, true⟩] ∧
    s.net.trail.Ordered ∧ s.net.Explained 3 ⟨⟨3⟩, true⟩ := by
  have found : ∃ s ∈ (create {} false none).toOption,
      ∃ s' ∈ s.playAll AddsAtRoot laggingLevels,
        s'.net.trail.lits = #[⟨⟨0⟩, true⟩, ⟨⟨1⟩, true⟩, ⟨⟨2⟩, true⟩, ⟨⟨3⟩, true⟩] ∧
          s'.net.trail.levelOf ⟨3⟩ = .ok 2 := by
    decide +kernel
  obtain ⟨s, run, lits, level⟩ := exists_played found
  obtain ⟨ordered, explained⟩ := run.trail_explained
  refine ⟨s, run, lits, ordered, explained (by rw [lits]; rfl) ?_⟩
  rw [level]
  exact fun same => nomatch Except.ok.inj same

end Solver

end Cdcl
