import Cdcl.Proofs.Rehearsing
import Cdcl.Proofs.Success.Inserting
import Cdcl.Proofs.Watching

/-!
# What a clause requires above the root level

A clause that is added above the root level should move the solver only as far as it must to
be watched.  What it must do is told by the values of the literals that are left of it and by
the levels of the false ones; the order in which they are written or watched plays no part.

The solver judges by the first two literals once they are arranged.  A true literal behind
these is passed over: the solver moves, although the clause requires nothing.  Else it does
what is required.

* `Requires` — what a clause requires; it is one thing, `Requires.unique`;
* `requires_arranged` — what it is, told from the arranged literals;
* `addClause_requires` — adding a clause does this, or passes a true literal over.
-/

namespace Cdcl.Solver

open Network (Regime)

variable {s s' : Solver} {t : Trail} {c d : List Lit} {a b r : Ranked} {rest : List Ranked}
  {p q : Lit} {m m' : Move}

/-! ## Requirements -/

/-- What is left of a clause without repetitions and the literals that are false at the root
level. -/
def remaining (t : Trail) (d : List Lit) : List Lit :=
  (d.filter fun l => -l ∉ t.upTo 0).dedup

/-- A clause of created variables that is no tautology and not satisfied at the root level,
and of which at least two literals are left. -/
@[mk_iff]
structure Unsettled (t : Trail) (d : List Lit) : Prop where
  known : ∀ l ∈ d, l.var.index < t.numVars
  consistent : ∀ l ∈ d, -l ∉ d
  open_ : ∀ l ∈ d, l ∉ t.upTo 0
  two : 2 ≤ (remaining t d).length

instance : Decidable (Unsettled t d) := decidable_of_iff' _ (unsettled_iff t d)

/-- All literals of the clause are false. -/
def Falsified (t : Trail) (c : List Lit) : Prop := ∀ l ∈ c, t.litValue l = .ok .fails

/-- The literal is the only one of the clause that is not false. -/
structure Sole (t : Trail) (c : List Lit) (p : Lit) : Prop where
  mem : p ∈ c
  open_ : t.litValue p ≠ .ok .fails
  others : ∀ l ∈ c, l ≠ p → t.litValue l = .ok .fails

/-- The greatest level of the literals of the clause other than `p`. -/
structure LatestBut (t : Trail) (c : List Lit) (p : Lit) (k : Nat) : Prop where
  le : ∀ l ∈ c, l ≠ p → ∃ j, t.levelOf l.var = .ok j ∧ j ≤ k
  reached : ∃ l ∈ c, l ≠ p ∧ t.levelOf l.var = .ok k

/-- What a clause requires of the solver. -/
inductive Requires (t : Trail) (c : List Lit) : Move → Prop
  /-- Two literals are not false. -/
  | open_ {p q : Lit} : p ∈ c → q ∈ c → p ≠ q → t.litValue p ≠ .ok .fails →
      t.litValue q ≠ .ok .fails → Requires t c .stay
  /-- One literal only is not false, and it became true before the last of the others became
  false, or with it. -/
  | satisfied {p : Lit} {j k : Nat} : Sole t c p → LatestBut t c p k →
      t.litValue p = .ok .holds → t.levelOf p.var = .ok j → j ≤ k → Requires t c .stay
  /-- One literal only is not false, and it has no value or became true later. -/
  | unit {p : Lit} {k : Nat} : Sole t c p → LatestBut t c p k →
      (t.litValue p = .ok .unknown ∨ ∃ j, t.levelOf p.var = .ok j ∧ k < j) →
      Requires t c (.imply p k)
  /-- All literals are false, and one became so later than the others. -/
  | falsified {p : Lit} {j k : Nat} : Falsified t c → p ∈ c → t.levelOf p.var = .ok j →
      LatestBut t c p k → k < j → Requires t c (.imply p k)
  /-- All literals are false, and two of them became so at the last level. -/
  | tied {p q : Lit} {k : Nat} : Falsified t c → p ∈ c → q ∈ c → p ≠ q →
      t.levelOf p.var = .ok k → t.levelOf q.var = .ok k →
      (∀ l ∈ c, ∃ j, t.levelOf l.var = .ok j ∧ j ≤ k) → Requires t c (.retreat (k - 1))

/-! ## A clause requires one thing -/

theorem Sole.eq (h : Sole t c p) (mem : q ∈ c) (open_ : t.litValue q ≠ .ok .fails) : q = p := by
  by_contra other
  exact open_ (h.others q mem other)

/-- There is one greatest level. -/
theorem LatestBut.unique {j k : Nat} (h : LatestBut t c p j) (h' : LatestBut t c p k) : j = k := by
  obtain ⟨l, mem, other, level⟩ := h.reached
  obtain ⟨l', mem', other', level'⟩ := h'.reached
  obtain ⟨i, at_, le⟩ := h'.le l mem other
  obtain ⟨i', at', le'⟩ := h.le l' mem' other'
  cases level.symm.trans at_
  cases level'.symm.trans at'
  exact Nat.le_antisymm le le'

/-- The others are false, and the literal has no value or was assigned after them. -/
structure Outlasts (t : Trail) (c : List Lit) (p : Lit) (k : Nat) : Prop where
  mem : p ∈ c
  others : ∀ l ∈ c, l ≠ p → t.litValue l = .ok .fails
  latest : LatestBut t c p k
  late : t.litValue p = .ok .unknown ∨ ∃ j, t.levelOf p.var = .ok j ∧ k < j

/-- A literal that is not false, or was assigned after the others, is the one that
outlasts them. -/
theorem Outlasts.eq {k : Nat} (h : Outlasts t c p k) (mem : q ∈ c)
    (late : t.litValue q ≠ .ok .fails ∨ ∃ j, t.levelOf q.var = .ok j ∧ k < j) : q = p := by
  by_contra other
  rcases late with open_ | ⟨j, level, late⟩
  · exact open_ (h.others q mem other)
  · obtain ⟨i, level', le⟩ := h.latest.le q mem other
    cases level.symm.trans level'
    omega

/-- A literal that is to be implied outlasts the others. -/
theorem Requires.outlasts {k : Nat} (h : Requires t c (.imply p k)) : Outlasts t c p k := by
  cases h with
  | unit sole latest late => exact ⟨sole.mem, sole.others, latest, late⟩
  | falsified all mem level latest late =>
      exact ⟨mem, fun l hl _ => all l hl, latest, .inr ⟨_, level, late⟩⟩

/-- Where a literal is to be implied, staying will not do. -/
theorem Requires.not_stay_of_imply {k : Nat} (h : Requires t c (.imply p k)) :
    ¬Requires t c .stay := by
  have out := h.outlasts
  intro stay
  cases stay with
  | open_ hp hq ne op oq => exact ne ((out.eq hp (.inl op)).trans (out.eq hq (.inl oq)).symm)
  | satisfied sole latest true_ level le =>
      obtain rfl := out.eq sole.mem (.inl sole.open_)
      rcases out.late with unknown | ⟨j, level', late⟩
      · cases true_.symm.trans unknown
      · cases level.symm.trans level'
        have same := latest.unique out.latest
        omega

/-- Where all literals are false, staying will not do. -/
theorem Requires.not_stay_of_falsified (all : Falsified t c) : ¬Requires t c .stay := by
  intro stay
  cases stay with
  | open_ hp _ _ op => exact op (all _ hp)
  | satisfied sole => exact sole.open_ (all _ sole.mem)

/-- One literal at most outlasts the others. -/
theorem Outlasts.unique {j k : Nat} (h : Outlasts t c p k) (h' : Outlasts t c q j) :
    p = q ∧ k = j := by
  have same : q = p := by
    rcases h'.late with unknown | ⟨i, level, late⟩
    · refine h.eq h'.mem (.inl ?_)
      rw [unknown]
      nofun
    · by_contra other
      obtain ⟨i', level', le'⟩ := h.latest.le q h'.mem other
      cases level.symm.trans level'
      -- the second is later than the first, which therefore is not later than the second
      refine other (h'.eq h.mem ?_).symm
      rcases h.late with unknown | ⟨l, level₁, late₁⟩
      · exact .inl (by rw [unknown]; nofun)
      · exact .inr ⟨l, level₁, by omega⟩
  subst same
  exact ⟨rfl, h.latest.unique h'.latest⟩

/-- All literals are false, and two of them became so at the greatest level. -/
structure Ties (t : Trail) (c : List Lit) (k : Nat) : Prop where
  all : Falsified t c
  two : ∃ p ∈ c, ∃ q ∈ c, p ≠ q ∧ t.levelOf p.var = .ok k ∧ t.levelOf q.var = .ok k
  le : ∀ l ∈ c, ∃ j, t.levelOf l.var = .ok j ∧ j ≤ k

/-- The solver has to retreat only if two literals are tied. -/
theorem Requires.ties {j : Nat} (h : Requires t c (.retreat j)) : ∃ k, j = k - 1 ∧ Ties t c k := by
  cases h with
  | tied all hp hq ne lp lq le => exact ⟨_, rfl, all, ⟨_, hp, _, hq, ne, lp, lq⟩, le⟩

/-- There is one level at which literals are tied. -/
theorem Ties.unique {j k : Nat} (h : Ties t c j) (h' : Ties t c k) : j = k := by
  obtain ⟨p, hp, -, -, -, lp, -⟩ := h.two
  obtain ⟨q, hq, -, -, -, lq, -⟩ := h'.two
  obtain ⟨i, at_, le⟩ := h'.le p hp
  obtain ⟨i', at', le'⟩ := h.le q hq
  cases lp.symm.trans at_
  cases lq.symm.trans at'
  exact Nat.le_antisymm le le'

/-- No literal outlasts the others if two are tied. -/
theorem Ties.not_outlasts {j k : Nat} (h : Ties t c k) : ¬Outlasts t c p j := by
  intro out
  obtain ⟨q, hq, r, hr, ne, lq, lr⟩ := h.two
  have above : j < k := by
    rcases out.late with unknown | ⟨i, level, late⟩
    · cases unknown.symm.trans (h.all p out.mem)
    · obtain ⟨i', level', le⟩ := h.le p out.mem
      cases level.symm.trans level'
      omega
  exact ne ((out.eq hq (.inr ⟨k, lq, above⟩)).trans (out.eq hr (.inr ⟨k, lr, above⟩)).symm)

/-- A clause requires one thing. -/
theorem Requires.unique (h : Requires t c m) (h' : Requires t c m') : m = m' := by
  cases m with
  | stay =>
      cases m' with
      | stay => rfl
      | retreat j =>
          obtain ⟨k, -, ties⟩ := h'.ties
          exact absurd h (not_stay_of_falsified ties.all)
      | imply p k => exact absurd h h'.not_stay_of_imply
  | retreat j =>
      obtain ⟨k, rfl, ties⟩ := h.ties
      cases m' with
      | stay => exact absurd h' (not_stay_of_falsified ties.all)
      | retreat j' =>
          obtain ⟨k', rfl, ties'⟩ := h'.ties
          rw [ties.unique ties']
      | imply p k' => exact absurd h'.outlasts ties.not_outlasts
  | imply p k =>
      cases m' with
      | stay => exact absurd h' h.not_stay_of_imply
      | retreat j =>
          obtain ⟨k', -, ties⟩ := h'.ties
          exact absurd h.outlasts ties.not_outlasts
      | imply q k' =>
          obtain ⟨rfl, rfl⟩ := h.outlasts.unique h'.outlasts
          rfl

/-! ## What the arranged literals tell -/

/-- What a clause requires, told from its literals as they are arranged. -/
def wanted (a b : Ranked) (rest : List Ranked) : Move :=
  if ∃ r ∈ rest, r.value = .holds then .stay else (Retreat.of a b).move a.lit

section Arranged

variable {rs : List Ranked}

theorem Arranged.mem_iff (arr : Arranged t c rs) : p ∈ c ↔ ∃ r ∈ rs, r.lit = p := by
  rw [← arr.perm.mem_iff, List.mem_map]

theorem Arranged.open_ (arr : Arranged t c rs) (mem : r ∈ rs) (h : r.value ≠ .fails) :
    t.litValue r.lit ≠ .ok .fails := by
  rw [arr.value r mem]
  exact fun same => h (Except.ok.inj same)

/-- Behind a literal that has a value are such that were assigned no later. -/
theorem Arranged.behind_first (arr : Arranged t c (a :: rs)) (known : a.value ≠ .unknown) :
    ∀ r ∈ a :: rs, r.value ≠ .unknown ∧ r.level ≤ a.level := by
  intro r mem
  rcases List.mem_cons.mp mem with rfl | behind
  · exact ⟨known, Nat.le_refl _⟩
  · exact (Ranked.first_cases ((List.pairwise_cons.mp arr.sorted).1 r behind)).resolve_left known

/-- Nothing is required of a clause with a true literal if the first one is false. -/
theorem Arranged.requires_stay (arr : Arranged t c (a :: rs)) (first : a.value = .fails)
    (mem : r ∈ rs) (true_ : r.value = .holds) : Requires t c .stay := by
  have mem : r ∈ a :: rs := List.mem_cons_of_mem a mem
  have head : a ∈ a :: rs := List.mem_cons_self
  have top := arr.behind_first (by rw [first]; nofun)
  have open_ : r.value ≠ .fails := by rw [true_]; nofun
  by_cases other : ∃ r' ∈ a :: rs, r'.value ≠ .fails ∧ r'.lit ≠ r.lit
  · obtain ⟨r', mem', open', ne⟩ := other
    exact .open_ (arr.mem_iff.mpr ⟨r', mem', rfl⟩) (arr.mem_iff.mpr ⟨r, mem, rfl⟩) ne
      (arr.open_ mem' open') (arr.open_ mem open_)
  · have sole : Sole t c r.lit := by
      refine ⟨arr.mem_iff.mpr ⟨r, mem, rfl⟩, arr.open_ mem open_, fun l hl ne => ?_⟩
      obtain ⟨r', mem', rfl⟩ := arr.mem_iff.mp hl
      have false_ : r'.value = .fails := by
        by_contra open'
        exact other ⟨r', mem', open', ne⟩
      rw [arr.value r' mem', false_]
    have apart : a.lit ≠ r.lit := by
      intro same
      have value := arr.value a head
      rw [same, arr.value r mem, true_, first] at value
      cases value
    have latest : LatestBut t c r.lit a.level := by
      refine ⟨fun l hl _ => ?_, a.lit, arr.mem_iff.mpr ⟨a, head, rfl⟩, apart, arr.level a head⟩
      obtain ⟨r', mem', rfl⟩ := arr.mem_iff.mp hl
      exact ⟨r'.level, arr.level r' mem', (top r' mem').2⟩
    exact .satisfied sole latest (true_ ▸ arr.value r mem) (arr.level r mem) (top r mem).2

theorem Arranged.apart (arr : Arranged t c (a :: rs)) (once : c.Nodup) :
    ∀ r ∈ rs, a.lit ≠ r.lit := by
  intro r hr same
  have nodup := arr.perm.nodup_iff.mpr once
  exact (List.nodup_cons.mp nodup).1 (List.mem_map.mpr ⟨r, hr, same.symm⟩)

/-- Behind a false literal that comes second all are false, if none is true. -/
theorem Arranged.others_false (arr : Arranged t c (a :: b :: rest)) (second : b.value = .fails)
    (none_ : ∀ r ∈ rest, r.value ≠ .holds) : ∀ l ∈ c, l ≠ a.lit →
      t.litValue l = .ok .fails ∧ ∃ j, t.levelOf l.var = .ok j ∧ j ≤ b.level := by
  intro l hl ne
  obtain ⟨r, hr, rfl⟩ := arr.mem_iff.mp hl
  have behind : r ∈ b :: rest := (List.mem_cons.mp hr).resolve_left fun same => ne (same ▸ rfl)
  obtain ⟨known, le⟩ := arr.later second r behind
  refine ⟨?_, r.level, arr.level r hr, le⟩
  rw [arr.value r hr]
  cases v : r.value with
  | fails => rfl
  | unknown => exact absurd v known
  | holds =>
      rcases List.mem_cons.mp behind with rfl | last
      · exact absurd (second.symm.trans v) nofun
      · exact absurd v (none_ r last)

/-- If the second literal is false and none behind it is true, the first two tell what is
required. -/
theorem Arranged.requires_move (arr : Arranged t c (a :: b :: rest)) (once : c.Nodup)
    (second : b.value = .fails) (none_ : ∀ r ∈ rest, r.value ≠ .holds) :
    Requires t c ((Retreat.of a b).move a.lit) := by
  have ha : a ∈ a :: b :: rest := List.mem_cons_self
  have hb : b ∈ a :: b :: rest := List.mem_cons_of_mem a List.mem_cons_self
  have first_mem : a.lit ∈ c := arr.mem_iff.mpr ⟨a, ha, rfl⟩
  have second_mem : b.lit ∈ c := arr.mem_iff.mpr ⟨b, hb, rfl⟩
  have ne : a.lit ≠ b.lit := arr.apart once b List.mem_cons_self
  have others := arr.others_false second none_
  have latest : LatestBut t c a.lit b.level :=
    ⟨fun l hl other => (others l hl other).2, b.lit, second_mem, ne.symm, arr.level b hb⟩
  have sole : a.value ≠ .fails → Sole t c a.lit := fun open_ =>
    ⟨first_mem, arr.open_ ha open_, fun l hl other => (others l hl other).1⟩
  have all : a.value = .fails → Falsified t c := by
    intro first l hl
    by_cases same : l = a.lit
    · rw [same, arr.value a ha, first]
    · exact (others l hl same).1
  cases choice : Retreat.of a b with
  | stay =>
      have le : a.le b = true := (List.pairwise_cons.mp arr.sorted).1 b List.mem_cons_self
      obtain ⟨true_, early⟩ := (Retreat.of_stay le choice).2 second
      exact .satisfied (sole (by rw [true_]; nofun)) latest (true_ ▸ arr.value a ha)
        (arr.level a ha) early
  | below k =>
      obtain ⟨first, -, rfl, tie⟩ := Retreat.of_below choice
      rw [tie] at others
      refine .tied (all first) first_mem second_mem ne (arr.level a ha) (tie ▸ arr.level b hb)
        fun l hl => ?_
      by_cases same : l = a.lit
      · exact ⟨a.level, same ▸ arr.level a ha, Nat.le_refl _⟩
      · exact (others l hl same).2
  | assertAt k =>
      obtain ⟨-, rfl, late⟩ := Retreat.of_assertAt choice
      by_cases first : a.value = .fails
      · have late := late.resolve_left (by rw [first]; nofun)
        exact .falsified (all first) first_mem (arr.level a ha) latest late
      · refine .unit (sole first) latest (late.imp (fun unknown => ?_) fun above => ?_)
        · rw [arr.value a ha, unknown]
        · exact ⟨a.level, arr.level a ha, above⟩

/-- What is required of a clause shows in its arranged literals. -/
theorem requires_arranged (arr : Arranged t c (a :: b :: rest)) (once : c.Nodup) :
    Requires t c (wanted a b rest) := by
  have ha : a ∈ a :: b :: rest := List.mem_cons_self
  -- a literal that is not false stands beside the first one, or this one is false
  have beside : ∀ r ∈ b :: rest, r.value ≠ .fails → a.value ≠ .fails → Requires t c .stay := by
    intro r hr open_ first
    have hr' : r ∈ a :: b :: rest := List.mem_cons_of_mem a hr
    exact .open_ (arr.mem_iff.mpr ⟨a, ha, rfl⟩) (arr.mem_iff.mpr ⟨r, hr', rfl⟩)
      (arr.apart once r hr) (arr.open_ ha first) (arr.open_ hr' open_)
  unfold wanted
  split
  next overlooked =>
    obtain ⟨r, hr, true_⟩ := overlooked
    have hr : r ∈ b :: rest := List.mem_cons_of_mem b hr
    by_cases first : a.value = .fails
    · exact arr.requires_stay first hr true_
    · exact beside r hr (by rw [true_]; nofun) first
  next none_ =>
    by_cases second : b.value = .fails
    · exact arr.requires_move once second fun r hr true_ => none_ ⟨r, hr, true_⟩
    · have stay : Retreat.of a b = .stay := if_neg second
      have le : a.le b = true := (List.pairwise_cons.mp arr.sorted).1 b List.mem_cons_self
      rw [stay]
      by_cases first : a.value = .fails
      · obtain ⟨true_, -⟩ := (Retreat.of_stay le stay).1 first
        exact arr.requires_stay first List.mem_cons_self true_
      · exact beside b List.mem_cons_self second first

end Arranged

/-! ## What the solver does -/

/-- The solver has moved so, and if a literal became true the others are false. -/
structure Meets (s : Solver) (c : List Lit) (m : Move) (s' : Solver) : Prop where
  makes : s.Makes s' m
  below : ∀ j, j < s'.level → s'.net.trail.upTo j = s.net.trail.upTo j
  others : ∀ p k, m = .imply p k → ∀ q ∈ c, q ≠ p → s'.litValue q = .ok .fails

/-- A clause that makes the solver move leaves another trail. -/
theorem Inserts.trail_ne {lits : List Lit} (w : s.net.trail.WF)
    (open_ : ∀ l ∈ c, -l ∉ s.net.trail.upTo 0)
    (arr : Arranged s.net.trail c (a :: b :: rest))
    (inserts : s.Inserts lits ((Retreat.of a b).move a.lit) s') (moves : Retreat.of a b ≠ .stay) :
    s'.net.trail ≠ s.net.trail := by
  intro same
  have hb : b ∈ a :: b :: rest := List.mem_cons_of_mem a List.mem_cons_self
  have level : s'.level = s.level := congrArg Trail.level same
  have makes := inserts.makes
  cases choice : Retreat.of a b with
  | stay => exact moves choice
  | below k =>
      obtain ⟨-, false_, -, rfl⟩ := Retreat.of_below choice
      rw [choice] at makes
      have lower : s'.level = b.level - 1 := makes.1
      have high := arr.deep w open_ hb false_
      have low : b.level ≤ s.level := arr.level_le w false_
      omega
  | assertAt k =>
      rw [choice] at makes
      obtain ⟨here, lits, -⟩ := makes
      have top : s.net.trail.level ≤ k := Nat.le_of_eq (level.symm.trans here)
      rw [same, Trail.upTo_of_le top] at lits
      exact List.cons_ne_nil a.lit [] (List.append_right_eq_self.mp lits.symm)

/-- Inserting a clause does what is required, if no true literal is passed over. -/
theorem Inserts.meets {lits : List Lit} (w : s.net.trail.WF) (w' : s'.net.trail.WF)
    (arr : Arranged s.net.trail c (a :: b :: rest))
    (inserts : s.Inserts lits ((Retreat.of a b).move a.lit) s')
    (right : Retreat.of a b = .stay ∨ ∀ r ∈ rest, r.value ≠ .holds) :
    s.Meets c (wanted a b rest) s' := by
  have wants : wanted a b rest = (Retreat.of a b).move a.lit := by
    unfold wanted
    split
    next overlooked =>
      obtain ⟨r, hr, true_⟩ := overlooked
      have stay := right.resolve_right fun none_ => none_ r hr true_
      rw [stay]
      rfl
    next => rfl
  have makes := inserts.makes
  rw [wants]
  refine ⟨makes, inserts.below, fun p k implies q hq ne => ?_⟩
  obtain ⟨asserts, rfl⟩ := Retreat.move_eq_imply implies
  have none_ := right.resolve_left (by rw [asserts]; nofun)
  obtain ⟨second, rfl, -⟩ := Retreat.of_assertAt asserts
  obtain ⟨false_, j, level, le⟩ := arr.others_false second none_ q hq ne
  rw [asserts] at makes
  obtain ⟨-, lits, -⟩ := makes
  have before : -q ∈ s.net.trail.upTo b.level :=
    (w.mem_upTo_iff (w.fails_iff.mp false_) level).mpr le
  refine w'.fails_iff.mpr ?_
  rw [← Array.mem_toList_iff, lits]
  exact List.mem_append_left _ before

/-- The literals of a clause that are left when it is added, as they are arranged. -/
def arrangement (s : Solver) (d : List Lit) : Except Fault (List Ranked) := do
  match ← normalize s.net.trail (Lit.sort d) with
  | .satisfied _ => return []
  | .clause c => arrange s.net.trail c

/-- The arrangement, with sorts that evaluate. -/
def arrangementInOrder (s : Solver) (d : List Lit) : Except Fault (List Ranked) := do
  match ← normalize s.net.trail (d.insertionSort Lit.Le) with
  | .satisfied _ => return []
  | .clause c => arrangeSorted s.net.trail c

theorem arrangement_eq : s.arrangement d = s.arrangementInOrder d := by
  unfold arrangement arrangementInOrder
  simp only [Lit.sort_eq_insertionSort, arrange_eq]

/-- The true literals behind the second place, if the first two make the solver move. -/
def passedOver : List Ranked → List Ranked
  | a :: b :: rest => if Retreat.of a b = .stay then [] else rest.filter (·.value = .holds)
  | _ => []

/-- The true literals of a clause that are passed over when it makes the solver move. -/
def overlooked (s : Solver) (d : List Lit) : List Ranked :=
  match s.arrangement d with
  | .ok rs => passedOver rs
  | .error _ => []

theorem overlooked_eq {rs : List Ranked} (h : s.arrangement d = .ok rs) :
    s.overlooked d = passedOver rs := by
  simp only [overlooked, h]

/-- No true literal is passed over if nothing moves, or if none is true. -/
theorem passedOver_eq_nil_iff : passedOver (a :: b :: rest) = [] ↔
    Retreat.of a b = .stay ∨ ∀ r ∈ rest, r.value ≠ .holds := by
  rw [passedOver]
  split
  next stay => simp [stay]
  next moves => simp [moves, List.filter_eq_nil_iff]

/-- Of a clause that is not settled two literals or more are kept. -/
theorem normalize_unsettled (w : t.WF) (u : Unsettled t d) :
    ∃ c, normalize t (Lit.sort d) = .ok (.clause c) ∧ Kept t d c ∧ c.Perm (remaining t d) := by
  have known : ∀ l ∈ Lit.sort d, l.var.index < t.numVars := fun l hl =>
    u.known l ((sort_perm d).mem_iff.mp hl)
  obtain ⟨normal, normalized⟩ := (failsOnly_normalizeFrom w known).exists_ok
  have spec := normalize_spec w normalized
  cases normal with
  | satisfied kept =>
      rcases spec with ⟨l, hl, fact⟩ | ⟨l, hl, neg, -⟩
      · exact absurd fact (u.open_ l hl)
      · exact absurd neg (u.consistent l hl)
  | clause c =>
      have k : Kept t d c := spec
      have once : c.Nodup := List.Nodup.of_map Lit.var k.once
      refine ⟨c, normalized, k, (List.perm_ext_iff_of_nodup once (List.nodup_dedup _)).mpr ?_⟩
      intro l
      rw [List.mem_dedup, List.mem_filter, decide_eq_true_eq]
      exact ⟨fun hl => ⟨k.mem l hl, k.free l hl⟩,
        fun ⟨hl, free⟩ => (k.dropped l hl).resolve_right free⟩

section Run

variable {options : Options} {allowed : Solver → Call → Prop} {calls : List Call}

/-- Adding a clause of which two literals or more are left makes the move that the first two
of its arrangement call for. -/
theorem Reaches.inserts {answer : Bool} (run : Reaches options allowed calls s)
    (deep : 0 < s.level) (ok : s.ok = true)
    (normalized : normalize s.net.trail (Lit.sort d) = .ok (.clause c))
    (arranged : arrange s.net.trail c = .ok (a :: b :: rest))
    (h : s.addClause d = .ok (s', answer)) : answer = true ∧ s'.ok = true ∧
      s.Inserts ((a :: b :: rest).map (·.lit)) ((Retreat.of a b).move a.lit) s' ∧
      s'.net.trail.WF ∧ s'.net.WatchesExactly := by
  obtain ⟨⟨_, _, _⟩, added, h⟩ := bind_eq_ok.mp h
  cases h
  obtain ⟨⟨inv, -, answers⟩, x⟩ := run.added added
  unfold addClauseReporting at added
  rw [if_neg (by simp [ok]), if_neg (Nat.ne_of_gt deep)] at added
  obtain ⟨rfl, inserted⟩ := insertArranged_of_addAboveRoot (s := s.log (.addAtLevel d s.level))
    normalized arranged added
  have r := run.standing
  have inserts := insertArranged_inserts (s := s.log (.addAtLevel d s.level)) r.inv.core.trail
    r.inv.covers (arrange_spec arranged) inserted
  exact ⟨rfl, answers, inserts.told, inv.core.trail, inv.net.wf.watchesExactly x.sturdy.indexed⟩

/-- Above the root level of a run, a clause of which two literals or more are left requires
one move.  It is stored and watched without a fault, and the solver makes this move, with all
but the literal that is implied false, unless it passes over a true literal: then it moves,
and nothing is required. -/
theorem addClause_requires (run : Reaches options allowed calls s) (deep : 0 < s.level)
    (ok : s.ok = true) (u : Unsettled s.net.trail d) :
    ∃ m, Requires s.net.trail (remaining s.net.trail d) m ∧
      (∀ m', Requires s.net.trail (remaining s.net.trail d) m' → m' = m) ∧
      (∀ f, s.addClause d = .error f → f.Excused) ∧
      ∀ s' b, s.addClause d = .ok (s', b) → b = true ∧ s'.ok = true ∧
        (∃ c, c.Perm (remaining s.net.trail d) ∧ s.net.Gains c s'.net) ∧
        s'.net.WatchesExactly ∧
        (s.overlooked d = [] → s.Meets (remaining s.net.trail d) m s') ∧
        (s.overlooked d ≠ [] → m = .stay ∧ s'.net.trail ≠ s.net.trail) := by
  have w := run.standing.inv.core.trail
  obtain ⟨c, normalized, k, perm⟩ := normalize_unsettled w u
  obtain ⟨rs, arranged⟩ := (failsOnly_arrange w (index_lt_of_normalize normalized)).exists_ok
  have arr : Arranged s.net.trail (remaining s.net.trail d) rs := by
    have spec := arrange_spec arranged
    exact ⟨spec.perm.trans perm, spec.value, spec.level, spec.sorted⟩
  obtain ⟨a, b, rest, rfl⟩ := arr.first_two u.two
  have requires := requires_arranged arr (List.nodup_dedup _)
  refine ⟨wanted a b rest, requires, fun m' other => other.unique requires, fun f failed => ?_,
    fun s' answer h => ?_⟩
  · have adds := run.failsOnly_addClause (fun _ excused => excused) u.known
    exact adds.bind (fun _ _ => .ok _) f failed
  obtain ⟨answers, ok', inserts, w', watches⟩ := run.inserts deep ok normalized arranged h
  have places : s.arrangement d = .ok (a :: b :: rest) := bind_eq_ok.mpr ⟨_, normalized, arranged⟩
  rw [overlooked_eq places]
  refine ⟨answers, ok', ⟨_, arr.perm, inserts.gains⟩, watches, fun none_ => ?_, fun some_ => ?_⟩
  · exact inserts.meets w w' arr (passedOver_eq_nil_iff.mp none_)
  have moves := mt passedOver_eq_nil_iff.mpr some_
  simp only [not_or, not_forall, not_not, exists_prop] at moves
  obtain ⟨moves, true_⟩ := moves
  have open_ : ∀ l ∈ remaining s.net.trail d, -l ∉ s.net.trail.upTo 0 := fun l hl =>
    of_decide_eq_true (List.mem_filter.mp (List.mem_dedup.mp hl)).2
  exact ⟨if_pos true_, inserts.trail_ne w open_ arr moves⟩

end Run

/-- Two decisions, each at a level of its own. -/
def twoDecisions : List Call :=
  [.newVar {}, .newVar {}, .newVar {}, .decide ⟨⟨1⟩, true⟩, .propagate,
    .decide ⟨⟨0⟩, true⟩, .propagate]

/-- A clause of an open literal and the negations of both decisions. -/
def contradicted : List Lit := [⟨⟨2⟩, true⟩, ⟨⟨0⟩, false⟩, ⟨⟨1⟩, false⟩]

/-- A clause of an open literal, the negation of the last decision, and the first decision. -/
def satisfiedFirst : List Lit := [⟨⟨2⟩, true⟩, ⟨⟨0⟩, false⟩, ⟨⟨1⟩, true⟩]

/-- A clause that both decisions contradict implies its third literal.  If only the last one
contradicts it, nothing is required; but its open literal comes first and the false one
second, so the one that is true is passed over. -/
theorem clause_of_decided_required : ∃ (s s₁ s₂ : Solver) (m : Move),
    Reaches {} (fun _ _ => True) twoDecisions s ∧ 0 < s.level ∧ s.ok = true ∧
      (Unsettled s.net.trail contradicted ∧
        s.addClause contradicted = .ok (s₁, true) ∧
        s.Meets (remaining s.net.trail contradicted) m s₁ ∧
        s₁.litValue ⟨⟨2⟩, true⟩ = .ok .holds) ∧
      (Unsettled s.net.trail satisfiedFirst ∧
        s.addClause satisfiedFirst = .ok (s₂, true) ∧
        Requires s.net.trail (remaining s.net.trail satisfiedFirst) .stay ∧
        s₂.litValue ⟨⟨2⟩, true⟩ = .ok .holds) := by
  have found : ∃ s ∈ (create {} false none).toOption,
      ∃ s' ∈ s.playAll (fun _ _ => True) twoDecisions, 0 < s'.level ∧ s'.ok = true ∧
        (Unsettled s'.net.trail contradicted ∧
          (∃ rs ∈ (s'.arrangementInOrder contradicted).toOption, passedOver rs = []) ∧
          ∃ r ∈ (s'.addInOrder contradicted).toOption,
            r.2.1 = true ∧ (r.1.litValue ⟨⟨2⟩, true⟩).toOption = some .holds) ∧
        (Unsettled s'.net.trail satisfiedFirst ∧
          (∃ rs ∈ (s'.arrangementInOrder satisfiedFirst).toOption, passedOver rs ≠ []) ∧
          ∃ r ∈ (s'.addInOrder satisfiedFirst).toOption,
            r.2.1 = true ∧ (r.1.litValue ⟨⟨2⟩, true⟩).toOption = some .holds) := by
    set_option synthInstance.maxSize 512 in decide +kernel
  obtain ⟨s, run, deep, ok, ⟨u₁, ⟨rs₁, places₁, none_⟩, ⟨s₁, _, _⟩, added₁, rfl, holds₁⟩,
    u₂, ⟨rs₂, places₂, some_⟩, ⟨s₂, _, _⟩, added₂, rfl, holds₂⟩ := exists_played found
  have places₁ := overlooked_eq (arrangement_eq.trans (eq_ok_of_toOption places₁))
  have places₂ := overlooked_eq (arrangement_eq.trans (eq_ok_of_toOption places₂))
  have added₁ := addClause_eq_ok (eq_ok_of_toOption added₁)
  have added₂ := addClause_eq_ok (eq_ok_of_toOption added₂)
  obtain ⟨m, -, -, -, does⟩ := addClause_requires run deep ok u₁
  obtain ⟨-, -, -, -, meets, -⟩ := does s₁ _ added₁
  obtain ⟨m', requires, -, -, does⟩ := addClause_requires run deep ok u₂
  obtain ⟨-, -, -, -, -, passes⟩ := does s₂ _ added₂
  obtain ⟨rfl, -⟩ := passes (places₂ ▸ some_)
  exact ⟨s, s₁, s₂, m, run, deep, ok,
    ⟨u₁, added₁, meets (places₁.trans none_), eq_ok_of_toOption holds₁⟩,
    u₂, added₂, requires, eq_ok_of_toOption holds₂⟩

end Cdcl.Solver
