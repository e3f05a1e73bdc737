import Cdcl.Proofs.Lessons
import Cdcl.Proofs.Models
import Cdcl.Proofs.Success.Levels

/-!
# Propagation computes a closure

Which clauses are visited, in which order, and which of their literals are watched does
not matter for what is propagated: it is what naive unit propagation derives from the
trail.

* `Exhausts` — naive propagation, which adds literals one by one until none is left to add;
* `Exhausts.mem_iff` — unless a clause becomes false, it comes to the closure;
* `propagate_inferred` — a propagation adds nothing that is not in the closure;
* `Network.Complete` — nothing of the closure is missing once everything has been
  propagated;
* `propagates_closure` — the theorem about runs.
-/

namespace Cdcl

/-! ## Naive propagation -/

section Naive

variable {f : List (List Lit)} {lits lits' : List Lit} {l : Lit}

/-- A literal without a value joins, because all other literals of a clause are false. -/
inductive NaiveStep (f : List (List Lit)) (lits : List Lit) : List Lit → Prop
  | unit {c : List Lit} {l : Lit} : c ∈ f → l ∈ c → (∀ m ∈ c, m ≠ l → -m ∈ lits) →
      l ∉ lits → -l ∉ lits → NaiveStep f lits (l :: lits)

/-- Literals join until none is left that could. -/
structure Exhausts (f : List (List Lit)) (lits lits' : List Lit) : Prop where
  steps : Relation.ReflTransGen (NaiveStep f) lits lits'
  last : ∀ more, ¬NaiveStep f lits' more

/-- What joins is in the closure. -/
theorem Exhausts.sound (h : Exhausts f lits lits') :
    ∀ l ∈ lits', UnitClosure f (· ∈ lits) l := by
  obtain ⟨steps, -⟩ := h
  induction steps with
  | refl => exact fun l => .start
  | tail _ step ih =>
      cases step with
      | unit inside hl others =>
          intro m hm
          rcases List.mem_cons.mp hm with rfl | old
          · exact .unit inside hl fun k hk ne => ih _ (others k hk ne)
          · exact ih m old

/-- What was there stays. -/
theorem Exhausts.sub (h : Exhausts f lits lits') : ∀ l ∈ lits, l ∈ lits' := by
  obtain ⟨steps, -⟩ := h
  induction steps with
  | refl => exact fun _ => id
  | tail _ step ih =>
      cases step with
      | unit => exact fun l hl => List.mem_cons_of_mem _ (ih l hl)

/-- If no clause becomes false, everything in the closure joins. -/
theorem Exhausts.mem_iff (h : Exhausts f lits lits')
    (open_ : ¬∃ c ∈ f, ∀ l ∈ c, -l ∈ lits') : l ∈ lits' ↔ UnitClosure f (· ∈ lits) l := by
  refine ⟨h.sound l, fun derived => ?_⟩
  induction derived with
  | start given => exact h.sub _ given
  | @unit c l inside hl _ others =>
      by_contra out
      refine h.last (l :: lits') (.unit inside hl others out fun refuted => ?_)
      -- then the clause is false
      refine open_ ⟨c, inside, fun m hm => ?_⟩
      by_cases same : m = l
      · exact same ▸ refuted
      · exact others m hm same

end Naive

namespace Network

variable {n₀ n n' : Network} {p : Lit} {w : Watcher} {id : ClauseId} {c c' : Clause}
  {conflict : Option ClauseId} {count count' : Nat}

/-- The contents are the literals of the stored clauses. -/
theorem mem_contents (x : n.view.Indexed) {lits : List Lit} :
    lits ∈ n.contents ↔ ∃ id c, n.body? id = some c ∧ c.lits = lits := by
  constructor
  · intro inside
    obtain ⟨id, -, found⟩ := List.mem_filterMap.mp inside
    obtain ⟨c, stored, same⟩ := Option.map_eq_some_iff.mp found
    exact ⟨id, c, stored, same⟩
  · rintro ⟨id, c, stored, rfl⟩
    exact mem_contents_of ((mem_ids x).mpr ⟨c, stored⟩) stored

/-- The literal can be derived from the trail, each literal on the way because all other
literals of a stored clause are false.  A literal may be derived although it is false
already; then so is the clause that derives it. -/
def Derives (n : Network) (l : Lit) : Prop := UnitClosure n.contents (· ∈ n.trail.lits) l

/-- A stored clause is false once everything has been derived. -/
def Clashes (n : Network) : Prop := ∃ c ∈ n.contents, ∀ l ∈ c, n.Derives (-l)

/-! ## Nothing but the closure -/

/-- The network has the clauses of another one, with their literals in some order, and
what is on its trail can be derived there. -/
structure Inferred (n₀ n : Network) : Prop where
  clauses : ∀ {id c}, n.body? id = some c →
    ∃ c₀, n₀.body? id = some c₀ ∧ c.lits.Perm c₀.lits
  lits : ∀ l ∈ n.trail.lits, n₀.Derives l

namespace Inferred

theorem refl (n : Network) : n.Inferred n :=
  ⟨fun stored => ⟨_, stored, .refl _⟩, fun _ => .start⟩

/-- Rearranging a clause adds nothing to what has been derived. -/
theorem rearranged (i : n₀.Inferred n) (r : n.Rearranged id c c' n') : n₀.Inferred n' where
  clauses stored := by
    rcases r.body_cases stored with ⟨rfl, rfl⟩ | old
    · obtain ⟨c₀, stored₀, perm⟩ := i.clauses r.stored
      exact ⟨c₀, stored₀, r.perm.trans perm⟩
    · exact i.clauses old
  lits := r.trail ▸ i.lits

/-- What a clause implies can be derived. -/
theorem implied {r : Reason} (i : n₀.Inferred n) (x : n₀.view.Indexed)
    (stored : n.body? id = some c) (false_ : ∀ l ∈ c.premises, -l ∈ n.trail.lits)
    (e : n.Enqueued c.first r n') : n₀.Inferred n' where
  clauses stored' := i.clauses ((e.body _).symm.trans stored')
  lits l hl := by
    rcases (Trail.mem_push e.trail).mp hl with old | rfl
    · exact i.lits l old
    · obtain ⟨c₀, stored₀, perm⟩ := i.clauses stored
      refine .unit ((mem_contents x).mpr ⟨id, c₀, stored₀, rfl⟩)
        (perm.mem_iff.mp c.first_mem) fun m hm ne => ?_
      rcases List.mem_cons.mp (perm.mem_iff.mpr hm) with same | premise
      · exact absurd same ne
      · exact i.lits _ (false_ m premise)

/-- A visit assigns a literal only if a clause implies it. -/
theorem visited {v : Visit} (i : n₀.Inferred n) (x : n₀.view.Indexed)
    (h : n.Visited p w n' v) : n₀.Inferred n' := by
  cases h with
  | blocked => exact i
  | satisfied t => exact i.rearranged t.toRearranged
  | conflict t => exact i.rearranged t.toRearranged
  | moved r _ _ _ watching =>
      obtain ⟨-, e⟩ := watch_eq_ok watching
      obtain ⟨clauses, lits⟩ := i.rearranged r
      rw [e]
      exact ⟨clauses, lits⟩
  | unit t false_ e =>
      exact (i.rearranged t.toRearranged).implied x t.body_self (t.trail ▸ false_) e

end Inferred

theorem core_visit {v : Visit} (core : n.Core) (true_ : p ∈ n.trail.lits)
    (h : n.visit p w = .ok (n', v)) : n'.Core := by
  have here : Function.update n.watchers p [w] p = [] ++ w :: [] := Function.update_self ..
  obtain ⟨_, chain, -⟩ := visit_chain n.row core true_ h here fun l other =>
    Function.update_of_ne other ..
  exact View.Chain.core chain core

/-- By induction along the list. -/
theorem scan_inferred {kept kept' : Array Watcher} {ws : List Watcher} (x : n₀.view.Indexed)
    (i : n₀.Inferred n) (core : n.Core) (true_ : p ∈ n.trail.lits)
    (h : n.scan p kept ws = .ok (n', kept', conflict)) : n₀.Inferred n' := by
  induction ws generalizing n kept with
  | nil =>
      cases h
      exact i
  | cons w ws ih =>
      obtain ⟨⟨n₁, v⟩, visit, h⟩ := bind_eq_ok.mp h
      have i₁ := i.visited x (visited core.trail core.distinct true_ visit)
      have core₁ := core_visit core true_ visit
      have true₁ := (visit_grows core true_ visit).lits true_
      cases v with
      | keep w' => exact ih i₁ core₁ true₁ h
      | moved => exact ih i₁ core₁ true₁ h
      | conflict w' =>
          cases h
          exact i₁

theorem visitAll_inferred (x : n₀.view.Indexed) (i : n₀.Inferred n) (core : n.Core)
    (true_ : p ∈ n.trail.lits) (h : n.visitAll p = .ok (n', conflict)) : n₀.Inferred n' := by
  obtain ⟨list, watches, n₁, kept, _, watches', -, -, scanned, -, -, -, rfl⟩ := visitAll_eq_ok h
  have start : n₀.Inferred { n with watches } := ⟨i.clauses, i.lits⟩
  obtain ⟨clauses, lits⟩ := scan_inferred x start ⟨core.trail, core.distinct⟩ true_ scanned
  exact ⟨clauses, lits⟩

/-- By induction over the steps of a propagation. -/
theorem drain_inferred {fuel : Nat} (x : n₀.view.Indexed) (i : n₀.Inferred n) (core : n.Core)
    (h : drain fuel n count = .ok (n', conflict, count')) : n₀.Inferred n' := by
  induction fuel generalizing n count with
  | zero =>
      unfold drain at h
      split at h
      · cases h
        exact i
      · cases h
  | succ fuel ih =>
      unfold drain at h
      split at h
      next =>
        cases h
        exact i
      next p here =>
        have low := (Array.getElem?_eq_some_iff.mp here).1
        have core₁ : (n.withHead (n.trail.head + 1)).Core := (withHead_step low).core core
        have true_ : p ∈ (n.withHead (n.trail.head + 1)).trail.lits :=
          Array.mem_of_getElem? here
        have start : n₀.Inferred (n.withHead (n.trail.head + 1)) := ⟨i.clauses, i.lits⟩
        obtain ⟨⟨n₁, found⟩, visited_, h⟩ := bind_eq_ok.mp h
        have i₁ := visitAll_inferred x start core₁ true_ visited_
        cases found with
        | some id =>
            cases h
            exact ⟨i₁.clauses, i₁.lits⟩
        | none =>
            obtain ⟨chain, -⟩ := visitAll_chain core₁ true_ visited_
            exact ih i₁ (View.Chain.core chain core₁) h

/-- A propagation adds nothing that cannot be derived. -/
theorem propagate_inferred (x : n.view.Indexed) (core : n.Core)
    (h : n.propagate = .ok (n', conflict, count)) : n.Inferred n' :=
  drain_inferred x (.refl n) core h

/-! ## The whole closure -/

/-- Each clause has a true literal, or literals of two variables without a value. -/
def Complete (n : Network) : Prop :=
  ∀ c ∈ n.contents, (∃ l ∈ c, n.trail.litValue l = .ok .holds) ∨
    ∃ l ∈ c, ∃ m ∈ c, l.var ≠ m.var ∧ n.trail.litValue l = .ok .unknown ∧
      n.trail.litValue m = .ok .unknown

/-- When nothing is due and everything is propagated, no clause waits for a literal. -/
theorem Fits.complete {g : Regime} (fits : n.Fits g n.Lists noneDue) (on : g.paced)
    (quiet : n.trail.head = n.trail.lits.size) (x : n.view.Indexed) : n.Complete := by
  intro lits inside
  obtain ⟨id, c, stored, rfl⟩ := (mem_contents x).mp inside
  have unknown : ∀ {l : Lit}, n.trail.value l.var = .ok .unknown →
      n.trail.litValue l = .ok .unknown := fun read =>
    Trail.litValue_eq_ok.mpr ⟨_, read, Truth.flipIf_eq_unknown.mpr rfl⟩
  rcases fits.stored_settles on quiet stored with ⟨l, hl, true_⟩ | ⟨first, second⟩
  · exact .inl ⟨l, hl, fits.wf.trail.holds_iff.mpr true_⟩
  · exact .inr ⟨c.first, c.first_mem, c.second, c.second_mem,
      c.var_first_ne (fits.wf.distinct stored), unknown first, unknown second⟩

/-- A clause of which all literals but one are false makes that one true. -/
theorem Complete.unit {lits : List Lit} {l : Lit} (complete : n.Complete) (w : n.trail.WF)
    (inside : lits ∈ n.contents) (others : ∀ m ∈ lits, m ≠ l → -m ∈ n.trail.lits) :
    l ∈ n.trail.lits := by
  rcases complete lits inside with ⟨m, hm, true_⟩ | ⟨a, ha, b, hb, ne, freeA, freeB⟩
  · by_cases same : m = l
    · exact same ▸ w.holds_iff.mp true_
    · exact absurd (others m hm same) (w.not_both (w.holds_iff.mp true_))
  · by_cases same : a = l
    · have other : b ≠ l := fun same' => ne (by rw [same, same'])
      exact absurd (others b hb other) (w.unknown freeB).2
    · exact absurd (others a ha same) (w.unknown freeA).2

/-- The clauses of a network are those that it started with. -/
theorem Inferred.perm_contents (i : n₀.Inferred n) (x₀ : n₀.view.Indexed)
    (x : n.view.Indexed) (ids : n.ids = n₀.ids) {lits : List Lit} (inside : lits ∈ n₀.contents) :
    ∃ lits' ∈ n.contents, lits'.Perm lits := by
  obtain ⟨id, c₀, stored₀, rfl⟩ := (mem_contents x₀).mp inside
  have named : id ∈ n.ids := ids ▸ (mem_ids x₀).mpr ⟨c₀, stored₀⟩
  obtain ⟨c, stored⟩ := (mem_ids x).mp named
  obtain ⟨c₁, stored₁, perm⟩ := i.clauses stored
  cases stored₀.symm.trans stored₁
  exact ⟨c.lits, mem_contents_of named stored, perm⟩

/-- What a propagation comes to, in terms of what can be derived. -/
structure Closes (n : Network) (conflict : Option ClauseId) (n' : Network) : Prop where
  clashes : n.Clashes ↔ conflict ≠ none
  complete : conflict = none → n'.Complete
  derived : conflict = none → ∀ l, l ∈ n'.trail.lits ↔ n.Derives l
  refutes : n'.Refutes conflict

/-- A propagation derives everything that can be derived, unless a clause is false. -/
theorem propagate_closes {g : Regime} (fits : n.Fits g n.Lists noneDue) (on : g.paced)
    (s : n.view.Sturdy) (h : n.propagate = .ok (n', conflict, count)) :
    n.Closes conflict n' := by
  obtain ⟨chain, row, grows⟩ := propagate_chain fits.wf.core h
  obtain ⟨done, quiet⟩ := propagate_fits h fits
  have x' : n'.view.Indexed := (View.Chain.sturdy chain fits.wf.core s).indexed
  have inferred := propagate_inferred s.indexed fits.wf.core h
  have ids : n'.ids = n.ids := congrArg₂ (· ++ ·) (congrFun row false) (congrFun row true)
  have w' := done.fits.wf.trail
  cases conflict with
  | some id =>
      obtain ⟨c, stored, false_⟩ := done.refutes rfl
      obtain ⟨c₀, stored₀, perm⟩ := inferred.clauses stored
      have clash : n.Clashes := ⟨c₀.lits, (mem_contents s.indexed).mpr ⟨id, c₀, stored₀, rfl⟩,
        fun l hl => inferred.lits _ (false_ l (perm.mem_iff.mpr hl))⟩
      exact ⟨iff_of_true clash nofun, nofun, nofun, done.refutes⟩
  | none =>
      have idle : n'.Fits g n'.Lists noneDue := done.fits.weaken fun due => absurd due nofun
      have complete := idle.complete on quiet x'
      have derived : ∀ l, l ∈ n'.trail.lits ↔ n.Derives l := by
        refine fun l => ⟨inferred.lits l, fun derivation => ?_⟩
        induction derivation with
        | start given => exact grows.lits given
        | @unit lits l inside _ _ others =>
            obtain ⟨lits', inside', perm⟩ := inferred.perm_contents s.indexed x' ids inside
            exact complete.unit w' inside' fun m hm => others m (perm.mem_iff.mp hm)
      refine ⟨iff_of_false ?_ (· rfl), fun _ => complete, fun _ => derived, done.refutes⟩
      rintro ⟨lits, inside, false_⟩
      obtain ⟨lits', inside', perm⟩ := inferred.perm_contents s.indexed x' ids inside
      have refuted : ∀ l ∈ lits', -l ∈ n'.trail.lits := fun l hl =>
        (derived _).mpr (false_ l (perm.mem_iff.mp hl))
      -- the first literal would have to be true as well
      obtain ⟨id, c, -, rfl⟩ := (mem_contents x').mp inside'
      have true_ := complete.unit (l := c.first) w' inside' fun m hm _ => refuted m hm
      exact w'.not_both true_ (refuted _ c.first_mem)

/-- Naive propagation makes a clause false if and only if one is false in the closure, and
otherwise it comes to the closure. -/
theorem exhausts_iff {lits : List Lit} (h : Exhausts n.contents n.trail.lits.toList lits) :
    (n.Clashes ↔ ∃ c ∈ n.contents, ∀ l ∈ c, -l ∈ lits) ∧
      (¬n.Clashes → ∀ l, l ∈ lits ↔ n.Derives l) := by
  have sound : ∀ l ∈ lits, n.Derives l := by
    simpa only [Derives, Array.mem_toList_iff] using h.sound
  have whole : (¬∃ c ∈ n.contents, ∀ l ∈ c, -l ∈ lits) → ∀ l, l ∈ lits ↔ n.Derives l := by
    intro open_ l
    simpa only [Derives, Array.mem_toList_iff] using h.mem_iff open_ (l := l)
  have clash : n.Clashes ↔ ∃ c ∈ n.contents, ∀ l ∈ c, -l ∈ lits := by
    refine ⟨fun ⟨c, inside, false_⟩ => ?_, fun ⟨c, inside, false_⟩ => ?_⟩
    · by_contra open_
      exact open_ ⟨c, inside, fun l hl => (whole open_ _).mpr (false_ l hl)⟩
    · exact ⟨c, inside, fun l hl => sound _ (false_ l hl)⟩
  exact ⟨clash, fun calm => whole (mt clash.mpr calm)⟩

end Network

namespace Solver

variable {options : Options} {calls : List Call} {s : Solver} {n' : Network}
  {conflict : Option ClauseId} {count : Nat}

/-- What a solver makes of a propagation of its network. -/
theorem exists_propagate (ok : s.ok = true) (idle : s.pending = none)
    (h : s.net.propagate = .ok (n', conflict, count)) (level : n'.trail.level = s.level) :
    ∃ s', s.propagate = .ok (s', conflict.isNone) ∧ s'.net = n' ∧
      ∀ id, conflict = some id →
        (s.level = 0 → s'.ok = false) ∧ (0 < s.level → s'.pending = some id) := by
  obtain ⟨s₁, made, net⟩ : ∃ s₁, s.propagateAll = .ok (s₁, conflict) ∧ s₁.net = n' :=
    ⟨_, bind_eq_ok.mpr ⟨_, h, rfl⟩, rfl⟩
  have level₁ : s₁.level = s.level := (congrArg (·.trail.level) net).trans level
  unfold propagate
  rw [made, ok, idle]
  cases conflict with
  | none => exact ⟨s₁, rfl, net, nofun⟩
  | some id =>
      by_cases root : s.level = 0
      · refine ⟨{ s₁ with ok := false }, ?_, net, fun _ _ => ⟨fun _ => rfl, ?_⟩⟩
        · exact if_pos (level₁.trans root)
        · exact fun above => absurd root (Nat.ne_of_gt above)
      · refine ⟨{ s₁ with pending := some id }, ?_, net, fun _ same => ⟨?_, fun _ => same⟩⟩
        · exact if_neg fun root' => root (level₁.symm.trans root')
        · exact fun root' => absurd root' root

/-- Propagation answers yes if and only if no stored clause is false in the closure; then
the true literals are those of the closure, and each clause has a true literal or two
literals without a value.  Otherwise the solver fails at the root level, and above it the
conflict that is pending is a stored clause whose literals are all false.

Naive propagation comes to the same, in whatever order it goes. -/
theorem propagates_closure (run : Reaches options BeginsQuietly calls s) (ok : s.ok = true)
    (idle : s.pending = none) :
    ∃ (s' : Solver) (yes : Bool), s.propagate = .ok (s', yes) ∧
      (yes = true ↔ ¬s.net.Clashes) ∧
      (yes = true → (∀ l, s.net.Derives l → ¬s.net.Derives (-l)) ∧
        (∀ l, s'.litValue l = .ok .holds ↔ s.net.Derives l) ∧ s'.net.Complete) ∧
      (yes = false → (s.level = 0 → s'.ok = false) ∧
        (0 < s.level → ∃ id ∈ s'.net.ids, s'.pending = some id ∧
          ∃ c, s'.net.clause id = .ok c ∧ ∀ l ∈ c.lits, s'.litValue l = .ok .fails)) ∧
      ∀ lits, Exhausts s.net.contents s.net.trail.lits.toList lits →
        (yes = true ↔ ¬∃ c ∈ s.net.contents, ∀ l ∈ c, -l ∈ lits) ∧
        (yes = true → ∀ l, s'.litValue l = .ok .holds ↔ l ∈ lits) := by
  have x := run.sane
  have sturdy := x.sturdy
  have i : s.Inv (regimeOf calls False True fun _ => True) none none := idle ▸ run.visited.inv
  have core := i.net.wf.core
  obtain ⟨⟨n', conflict, count⟩, made⟩ := FailsOnly.exists_ok
    (Network.failsOnly_propagate core sturdy ⟨i.net.wf.watched.size, x.fitted.observed⟩)
  obtain ⟨chain, -, grows⟩ := Network.propagate_chain core made
  have w' : n'.trail.WF := (View.Chain.core chain core).trail
  have x' : n'.view.Indexed := (View.Chain.sturdy chain core sturdy).indexed
  obtain ⟨clashes, complete, derived, refutes⟩ :=
    Network.propagate_closes i.idle ⟨trivial, ok⟩ sturdy made
  obtain ⟨s', answered, rfl, stuck⟩ := exists_propagate ok idle made grows.level
  have yes_iff : conflict.isNone = true ↔ ¬s.net.Clashes := by
    rw [clashes, not_not, Option.isNone_iff_eq_none]
  have holds : conflict.isNone = true → ∀ l, s'.litValue l = .ok .holds ↔ s.net.Derives l :=
    fun yes l => w'.holds_iff.trans (derived (Option.isNone_iff_eq_none.mp yes) l)
  refine ⟨s', conflict.isNone, answered, yes_iff, fun yes => ⟨?_, holds yes, ?_⟩, fun no => ?_,
    fun lits naive => ?_⟩
  · have none := Option.isNone_iff_eq_none.mp yes
    intro l pos neg
    exact w'.not_both ((derived none l).mpr pos) ((derived none _).mpr neg)
  · exact complete (Option.isNone_iff_eq_none.mp yes)
  · obtain ⟨id, found⟩ := Option.isSome_iff_exists.mp (Option.isNone_eq_false_iff.mp no)
    obtain ⟨b, stored, false_⟩ := refutes found
    obtain ⟨c, read, rfl⟩ := Network.exists_clause stored
    refine ⟨(stuck id found).1, fun above => ⟨id, ?_, (stuck id found).2 above, c, read, ?_⟩⟩
    · exact (Network.mem_ids x').mpr ⟨_, stored⟩
    · exact fun l hl => w'.fails_iff.mpr (false_ l hl)
  · obtain ⟨clash, whole⟩ := Network.exhausts_iff naive
    refine ⟨yes_iff.trans (not_congr clash), fun yes l => ?_⟩
    exact (holds yes l).trans (whole (yes_iff.mp yes) l).symm

/-- A chain of two clauses that imply a literal each, and a third one that two decisions
leave alone. -/
def shortChain : List Call :=
  [.newVar {}, .newVar {}, .newVar {}, .newVar {}, .addClause [⟨⟨0⟩, true⟩, ⟨⟨1⟩, true⟩],
    .addClause [⟨⟨0⟩, false⟩, ⟨⟨2⟩, true⟩],
    .addClause [⟨⟨2⟩, false⟩, ⟨⟨1⟩, false⟩, ⟨⟨3⟩, true⟩], .decide ⟨⟨0⟩, true⟩]

/-- One literal follows through the chain, and of the third clause none does. -/
theorem short_chain_derived : ∃ s s', Reaches {} BeginsQuietly shortChain s ∧ s.ok = true ∧
    s.pending = none ∧ s.propagate = .ok (s', true) ∧ s.net.Derives ⟨⟨2⟩, true⟩ ∧
    ¬s.net.Derives ⟨⟨1⟩, false⟩ ∧ s'.net.Complete := by
  have found : ∃ s ∈ (create {} false none).toOption,
      ∃ s' ∈ s.playAll BeginsQuietly shortChain, s'.ok = true ∧ s'.pending = none ∧
        ∃ r ∈ s'.propagate.toOption, r.2 = true ∧ r.1.litValue ⟨⟨2⟩, true⟩ = .ok .holds ∧
          r.1.litValue ⟨⟨1⟩, false⟩ = .ok .unknown := by
    decide +kernel
  obtain ⟨s, run, ok, idle, ⟨s', yes⟩, answered, rfl, implied, free⟩ := exists_played found
  obtain ⟨s₁, yes, answered', -, closed, -, -⟩ := propagates_closure run ok idle
  have answered := eq_ok_of_toOption answered
  cases answered.symm.trans answered'
  obtain ⟨-, holds, complete⟩ := closed rfl
  refine ⟨s, s', run, ok, idle, answered, (holds _).mp implied, fun derived => ?_, complete⟩
  exact absurd (free.symm.trans ((holds _).mpr derived)) nofun

end Solver

end Cdcl
