import Cdcl.Proofs.Searching
import Cdcl.Proofs.Success.Propagation

/-!
# The pace of a search

The steps of a search leave the terms on which it goes on as they are, and they leave no
level without a literal: a level begins with a decision.  `Paces` says both.  So there are
never more levels than literals, `Trail.Filled.level_le`.

* `cancelUntil_paces`, `learn_paces`, `decide_paces`, ... — the parts of a step;
* `Strides` — what a step does to the counters: it counts a conflict and goes back, or it
  assigns one more variable, or it ends the round;
* `step_strides` — every step does one of these.
-/

namespace Cdcl

namespace Trail

/-- No level begins where the next one begins, or where the trail ends. -/
def Filled (t : Trail) : Prop := ∀ k, k < t.level → t.cut k < t.cut (k + 1)

variable {t t' : Trail} {k : Nat}

namespace Filled

theorem of_root (root : t.level = 0) : t.Filled := fun k low => by omega

/-- If every level has a literal, as many literals stand up to a level as there are levels below. -/
theorem le_cut (f : t.Filled) (low : k ≤ t.level) : k ≤ t.cut k := by
  induction k with
  | zero => exact Nat.zero_le _
  | succ k ih =>
      have before := ih (Nat.le_of_succ_le low)
      have grows := f k low
      omega

/-- There are no more levels than literals. -/
theorem level_le (f : t.Filled) : t.level ≤ t.lits.size :=
  cut_of_le (Nat.le_refl t.level) ▸ f.le_cut (Nat.le_refl _)

theorem congr (f : t.Filled) (lits : t'.lits = t.lits) (marks : t'.marks = t.marks) :
    t'.Filled := by
  have level : t'.level = t.level := congrArg Array.size marks
  intro k low
  rw [level] at low
  unfold cut
  rw [lits, marks]
  exact f k low

/-- The last level may get longer. -/
theorem extend (f : t.Filled) (marks : t'.marks = t.marks)
    (longer : t.lits.size ≤ t'.lits.size) : t'.Filled := by
  have level : t'.level = t.level := congrArg Array.size marks
  intro k low
  rw [level] at low
  have first : t'.cut k = t.cut k := by
    unfold cut
    rw [marks, Array.getElem?_eq_getElem low, Option.getD_some, Option.getD_some]
  have later : t.cut (k + 1) ≤ t'.cut (k + 1) := by
    unfold cut
    rw [marks]
    cases t.marks[k + 1]? with
    | none => exact longer
    | some i => exact Nat.le_refl i
  have grows := f k low
  omega

/-- The levels that are left are as they were. -/
theorem cutBack (f : t.Filled) (w : t.WF) (c : t.CutBack k t') : t'.Filled := by
  intro j low
  rw [c.level] at low
  have grows := f j (Nat.lt_trans low c.below)
  rw [c.cut w, c.cut w, Nat.min_eq_left (Nat.le_of_lt low), Nat.min_eq_left low]
  exact grows

/-- A level that begins with a literal is not left empty. -/
theorem lead {p : Lit} {r : Reason} (f : t.Filled) (h : t.openLevel.push p r = .ok t') :
    t'.Filled := by
  intro k low
  rw [level_push h, level_openLevel] at low
  rw [cut_push h, cut_push h, level_openLevel, cut_openLevel, cut_openLevel, if_pos low]
  split
  · exact f k (by omega)
  · have last : t.cut k ≤ t.lits.size := by
      rw [← cut_of_le (Nat.le_refl t.level)]
      have whole : k = t.level := by omega
      rw [whole]
    change t.cut k < t.lits.size + 1
    omega

end Filled

/-- What is true stays true, and so the trail gets no shorter. -/
theorem Grows.length_le (g : t.Grows t') (w : t.WF) : t.lits.size ≤ t'.lits.size := by
  have once : t.lits.toList.Nodup := w.once.of_map _
  have sub : t.lits.toList ⊆ t'.lits.toList := fun l inside =>
    Array.mem_toList_iff.mpr (g.lits (Array.mem_toList_iff.mp inside))
  simpa using (once.subperm sub).length_le

end Trail

namespace Solver

open Network (Regime)

variable {g : Regime} {s s' s'' : Solver} {k : Nat} {missing : Option Var}

/-- The terms of the search stay, and no level is left without a literal if none was. -/
structure Paces (s s' : Solver) : Prop extends SameTerms s s' where
  filled : s.net.trail.Filled → s'.net.trail.Filled

theorem Paces.refl (s : Solver) : s.Paces s := ⟨.refl s, id⟩

theorem Paces.trans (a : s.Paces s') (b : s'.Paces s'') : s.Paces s'' :=
  ⟨a.toSameTerms.trans b.toSameTerms, fun f => b.filled (a.filled f)⟩

/-- No level is begun or undone either, and no literal is. -/
structure Gains (s s' : Solver) : Prop extends Paces s s' where
  level : s'.level = s.level
  longer : s.net.trail.size ≤ s'.net.trail.size

namespace Gains

theorem refl (s : Solver) : s.Gains s := ⟨.refl s, rfl, Nat.le_refl _⟩

theorem trans (a : s.Gains s') (b : s'.Gains s'') : s.Gains s'' :=
  ⟨a.toPaces.trans b.toPaces, b.level.trans a.level, Nat.le_trans a.longer b.longer⟩

/-- The trail has the same literals and levels. -/
theorem of_forgets (t : s.SameTerms s') (f : s.net.trail.Forgets s'.net.trail) : s.Gains s' :=
  ⟨⟨t, fun filled => filled.congr f.lits f.marks⟩, congrArg Array.size f.marks,
    Nat.le_of_eq (congrArg Array.size f.lits).symm⟩

/-- The last level of the trail gets longer. -/
theorem of_grows (t : s.SameTerms s') (w : s.net.trail.WF)
    (g : s.net.trail.Grows s'.net.trail) : s.Gains s' :=
  ⟨⟨t, fun filled => filled.extend g.marks (g.length_le w)⟩, congrArg Array.size g.marks,
    g.length_le w⟩

end Gains

theorem log_gains (s : Solver) (m : Message) : s.Gains (s.log m) :=
  .of_forgets (sameTerms_log s m) (.refl _)

theorem report_gains (s : Solver) (e : Event) : s.Gains (s.report e) :=
  .of_forgets (sameTerms_report s e) (.refl _)

/-! ## Levels -/

/-- Going back changes the trail, the order and the pending conflict only. -/
theorem cancelUntil_eq_ok (h : s.cancelUntil k = .ok s') :
    ∃ net order pending, s' = { s with net, order, pending } := by
  rcases undo_of_cancelUntil h with ⟨-, rfl⟩ | ⟨-, _, _, t, order, -, -, rfl⟩
  · exact ⟨_, _, _, rfl⟩
  · exact ⟨_, _, _, rfl⟩

/-- Going back leaves no level empty. -/
theorem cancelUntil_paces (w : s.net.trail.WF) (c : s.order.Covers s.net.trail none)
    (h : s.cancelUntil k = .ok s') : s.Paces s' := by
  have cases_ := cancelUntil_cases w c h
  obtain ⟨net, order, pending, rfl⟩ := cancelUntil_eq_ok h
  rcases cases_ with ⟨-, same⟩ | ⟨-, back⟩
  · rw [same]
    exact .refl s
  · exact ⟨⟨back.net.trail.sizes, rfl, rfl, rfl, rfl, .same rfl rfl, rfl, rfl, rfl⟩,
      fun f => f.cutBack w back.net.trail⟩

/-- Going back to the root level always ends there. -/
theorem cancelUntil_root (w : s.net.trail.WF) (c : s.order.Covers s.net.trail none)
    (h : s.cancelUntil 0 = .ok s') : s'.level = 0 := by
  rcases cancelUntil_cases w c h with ⟨root, rfl⟩ | ⟨-, back⟩
  · exact Nat.le_zero.mp root
  · exact back.level

/-- A propagation makes the last level longer. -/
theorem propagateAll_gains {conflict : Option ClauseId} (i : s.Inv g none missing)
    (h : s.propagateAll = .ok (s', conflict)) : s.Gains s' := by
  have w := i.core.trail
  obtain ⟨advance, -⟩ := i.propagateAll h
  have grows := advance.grows
  obtain ⟨⟨net, conflict', count⟩, -, h⟩ := bind_eq_ok.mp h
  cases h
  exact .of_grows ⟨grows.size, rfl, rfl, rfl, rfl, .same rfl rfl, rfl, rfl, rfl⟩ w grows

/-- A decision begins a level, and puts its literal there. -/
theorem decide_paces {p : Lit} (h : s.decide p = .ok s') :
    s.Paces s' ∧ s'.level = s.level + 1 ∧ s.net.trail.size < s'.net.trail.size := by
  obtain ⟨_, -, h⟩ := bind_eq_ok.mp h
  obtain ⟨_, -, h⟩ := bind_eq_ok.mp h
  obtain ⟨n, assigned, rfl⟩ := updateNet_eq_ok.mp h
  have e : s.net.trail.openLevel.push p .decision = .ok n.trail :=
    (Network.enqueued assigned).trail
  have vars : n.trail.numVars = s.net.trail.openLevel.numVars := Trail.numVars_push e
  refine ⟨⟨⟨vars, rfl, rfl, rfl, rfl, .same rfl rfl, rfl, rfl, rfl⟩, fun f => f.lead e⟩, ?_, ?_⟩
  · change n.trail.level = _
    rw [Trail.level_push e]
    exact Trail.level_openLevel _
  · change s.net.trail.lits.size < n.trail.lits.size
    rw [Trail.lits_push e, Array.size_push]
    exact Nat.lt_succ_self _

/-! ## Learning -/

/-- A change of the network that leaves the trail alone. -/
theorem net_gains {n : Network} (trail : n.trail = s.net.trail) : s.Gains { s with net := n } :=
  .of_forgets (.of_net (congrArg Trail.numVars trail)) (trail ▸ .refl _)

theorem enqueue_gains {p : Lit} {r : Reason} {n : Network} (w : s.net.trail.WF)
    (h : s.net.enqueue p r = .ok n) : s.Gains { s with net := n } := by
  have grows := Trail.grows_push (Network.enqueued h).trail
  exact .of_grows (.of_net grows.size) w grows

/-- The level to which a lesson leads gets its asserting literal. -/
theorem assertLesson_paces {l : Lesson} {conflict : Option ClauseId} (i : s.Inv g conflict none)
    (h : s.assertLesson l = .ok s') : s.Paces s' := by
  obtain ⟨s₁, cancelled, h⟩ := bind_eq_ok.mp h
  have w := i.core.trail
  have first := (log_gains s _).toPaces.trans (cancelUntil_paces (s := s.log _) w i.covers cancelled)
  have moved := (log_moves s _).trans (cancelUntil_moves (s := s.log _) w i.covers cancelled)
  have w₁ := (moved.core i.core).trail
  cases others : l.others with
  | nil =>
      rw [others] at h
      obtain ⟨_, -, h⟩ := bind_eq_ok.mp h
      obtain ⟨n, assigned, rfl⟩ := updateNet_eq_ok.mp h
      exact first.trans (enqueue_gains w₁ assigned).toPaces
  | cons q rest =>
      rw [others] at h
      obtain ⟨⟨n₁, id⟩, added, h⟩ := bind_eq_ok.mp h
      obtain ⟨n₂, bumped, h⟩ := bind_eq_ok.mp h
      obtain ⟨c, -, h⟩ := bind_eq_ok.mp h
      obtain ⟨n, assigned, h⟩ := bind_eq_ok.mp h
      cases h
      obtain ⟨_, -, -, stores⟩ := Network.stores added
      have trail : n₂.trail = s₁.net.trail :=
        (Network.alike_bumpClause bumped).trail.trans stores.trail
      have stored : s₁.Gains { s₁ with net := n₂ } := net_gains trail
      have implied : Solver.Gains { s₁ with net := n₂ } { s₁ with net := n } :=
        enqueue_gains (s := { s₁ with net := n₂ }) (trail ▸ w₁) assigned
      exact first.trans (stored.trans implied).toPaces

/-- A conflict that follows from the root level leaves that level only. -/
theorem assertRootConflict_paces {conflict : Option ClauseId} (i : s.Inv g conflict none)
    (h : s.assertRootConflict = .ok s') : s.Paces s' := by
  obtain ⟨s₁, cancelled, h⟩ := bind_eq_ok.mp h
  cases h
  have back := cancelUntil_paces (s := s.log _) i.core.trail i.covers cancelled
  obtain ⟨terms, filled⟩ := (log_gains s _).toPaces.trans back
  exact ⟨⟨terms.vars, terms.options, terms.budget, terms.base, terms.outside,
    ⟨terms.flagged.looks, terms.flagged.flag⟩, terms.answer, terms.conflicts, terms.model⟩, filled⟩

theorem decayActivities_gains (s : Solver) : s.Gains s.decayActivities :=
  .of_forgets ⟨rfl, rfl, rfl, rfl, rfl, .same rfl rfl, rfl, rfl, rfl⟩ (.refl _)

/-- Learning counts no conflict; the caller does. -/
theorem learn_paces {id : ClauseId} (i : s.Inv g (some id) none) (h : s.learn id = .ok s') :
    s.Paces s' := by
  obtain ⟨⟨s₁, result⟩, analyzed, h⟩ := bind_eq_ok.mp h
  obtain ⟨k, -⟩ := analyze_taught i.footing i.rejects analyzed
  have i₁ := k.inv i
  have first : s.Gains s₁ :=
    .of_forgets (analyze_touches analyzed).toSameTerms (k.net.trail ▸ .refl _)
  cases result with
  | none =>
      obtain ⟨s₂, asserted, h⟩ := bind_eq_ok.mp h
      cases h
      have fails := first.toPaces.trans (assertRootConflict_paces i₁ asserted)
      exact fails.trans (decayActivities_gains s₂).toPaces
  | some l =>
      obtain ⟨s₂, asserted, h⟩ := bind_eq_ok.mp h
      cases h
      have taught := first.toPaces.trans (assertLesson_paces i₁ asserted)
      exact taught.trans (decayActivities_gains s₂).toPaces

/-! ## Upkeep -/

/-- Only the network is looked at and changed. -/
theorem checkGarbage_eq_ok (h : s.checkGarbage = .ok s') : ∃ net, s' = { s with net } := by
  unfold checkGarbage at h
  split at h
  · obtain ⟨net, -, rfl⟩ := updateNet_eq_ok.mp h
    exact ⟨net, rfl⟩
  · cases h
    exact ⟨s.net, rfl⟩

/-- Giving learnt clauses up changes no literal of the trail. -/
theorem reduce_gains (i : s.Inv g none missing) (h : s.reduce = .ok s') : s.Gains s' := by
  obtain ⟨-, tidies⟩ := i.reduce h
  have vars : s'.numVars = s.numVars := congrArg DenseMap.size tidies.trail.values
  obtain ⟨s₁, reduced, h⟩ := bind_eq_ok.mp h
  obtain ⟨n, -, rfl⟩ := updateNet_eq_ok.mp reduced
  obtain ⟨net, rfl⟩ := checkGarbage_eq_ok h
  exact .of_forgets ⟨vars, rfl, rfl, rfl, rfl, .same rfl rfl, rfl, rfl, rfl⟩ tidies.trail

/-- Simplifying forgets reasons and no literals. -/
theorem simplifyNow_gains (i : s.Inv g none missing) (root : s.level = 0)
    (h : s.simplifyNow = .ok s') : s.Gains s' := by
  obtain ⟨-, tidies⟩ := i.simplifyNow root h
  have vars : s'.numVars = s.numVars := congrArg DenseMap.size tidies.trail.values
  obtain ⟨n, s₁, order, schedule, -, collected, -, rfl⟩ := simplifyNow_eq_ok h
  obtain ⟨net, rfl⟩ := checkGarbage_eq_ok collected
  exact .of_forgets ⟨vars, rfl, rfl, rfl, rfl, .same rfl rfl, rfl, rfl, rfl⟩ tidies.trail

/-- Simplifying at the root level undoes nothing. -/
theorem simplifyRoot_gains {b : Bool} (i : s.Inv g none none) (h : s.simplifyRoot = .ok (s', b)) :
    s.Gains s' := by
  obtain ⟨_, root, h⟩ := bind_eq_ok.mp h
  have root : s.level = 0 := by simpa using ensure_eq_ok.mp root
  split at h
  next =>
    cases h
    exact .refl s
  next =>
    obtain ⟨⟨s₁, conflict⟩, propagated, h⟩ := bind_eq_ok.mp h
    obtain ⟨advance, i₁⟩ := i.propagateAll propagated
    have first := propagateAll_gains i propagated
    cases conflict with
    | some id =>
        cases h
        exact first.trans
          (.of_forgets ⟨rfl, rfl, rfl, rfl, rfl, .same rfl rfl, rfl, rfl, rfl⟩ (.refl _))
    | none =>
        simp only at h
        split at h
        · cases h
          exact first
        · obtain ⟨s₂, simplified, h⟩ := bind_eq_ok.mp h
          cases h
          exact first.trans (simplifyNow_gains i₁ (advance.level.trans root) simplified)

theorem simplifyAtRoot_gains {b : Bool} (r : Running g s)
    (h : s.simplifyAtRoot = .ok (s', b)) : s.Gains s' := by
  unfold simplifyAtRoot at h
  split at h
  · exact simplifyRoot_gains r.inv h
  · cases h
    exact .refl s

/-! ## The budget -/

/-- The cap has been reached by a counter that was at `base`. -/
def Reached (cap : Option Nat) (count base : Nat) : Prop := ∃ n, cap = some n ∧ base + n ≤ count

/-- Nothing is left of the budget. -/
inductive Exhausted (s : Solver) : Prop
  | interrupted : s.interrupted = true → Exhausted s
  | conflicts : Reached s.budget.conflicts s.stats.conflicts s.budgetBase.1 → Exhausted s
  | propagations : Reached s.budget.propagations s.stats.propagations s.budgetBase.2 →
      Exhausted s
  /-- The stop callback answers yes to the last poll. -/
  | stopped : s.stop.answer s.stop.polls = true → Exhausted s

/-- The test of a cap, whose subtraction does not fail, is exact. -/
theorem hasReached_eq_ok {cap : Option Nat} {count base : Nat} {b : Bool}
    (h : hasReached cap count base = .ok b) : b = true ↔ Reached cap count base := by
  unfold Reached
  cases cap with
  | none =>
      cases h
      simp
  | some n =>
      obtain ⟨c, less, h⟩ := bind_eq_ok.mp h
      rw [checkedSub_eq_ok] at less
      cases h
      simp only [decide_eq_true_eq, Option.some.injEq, exists_eq_left']
      omega

/-- The budget answers no exactly if it is exhausted.  The flag is looked at, and asking may
count as a poll. -/
theorem withinBudget_exhausted {within : Bool} (h : s.withinBudget = .ok (s', within)) :
    (∃ polls, s' = { s.look with stop := { s.stop with polls } }) ∧
      (within = false ↔ s'.Exhausted) := by
  unfold withinBudget at h
  simp only at h
  split at h
  next interrupted =>
    cases h
    exact ⟨⟨s.stop.polls, rfl⟩, fun _ => .interrupted interrupted, fun _ => rfl⟩
  next free =>
    obtain ⟨conflicts, asked, h⟩ := bind_eq_ok.mp h
    have first := hasReached_eq_ok asked
    split at h
    next yes =>
      cases h
      exact ⟨⟨s.stop.polls, rfl⟩, fun _ => .conflicts (first.mp yes), fun _ => rfl⟩
    next no =>
      obtain ⟨propagations, asked, h⟩ := bind_eq_ok.mp h
      have second := hasReached_eq_ok asked
      split at h
      next yes =>
        cases h
        exact ⟨⟨s.stop.polls, rfl⟩, fun _ => .propagations (second.mp yes), fun _ => rfl⟩
      next no' =>
        cases h
        refine ⟨⟨s.stop.polls + 1, rfl⟩, fun spent => ?_, fun spent => ?_⟩
        · rw [Bool.not_eq_false'] at spent
          exact .stopped spent
        · rw [Bool.not_eq_false']
          cases spent with
          | interrupted yes => exact absurd yes free
          | conflicts yes => exact absurd (first.mpr yes) no
          | propagations yes => exact absurd (second.mpr yes) no'
          | stopped yes => exact yes

/-- Looking at the budget changes the flag and the count of polls only. -/
theorem withinBudget_gains {within : Bool} (h : s.withinBudget = .ok (s', within)) :
    s.Gains s' := by
  obtain ⟨⟨polls, rfl⟩, -⟩ := withinBudget_exhausted h
  have looked := Flagged.look s
  exact .of_forgets
    ⟨rfl, rfl, rfl, rfl, rfl, ⟨looked.looks, looked.flag⟩, rfl, rfl, rfl⟩ (.refl _)

/-! ## Steps -/

/-- The limit on learnt clauses is no matter of the trail. -/
theorem adjustLearntLimit_gains (h : s.adjustLearntLimit = .ok s') : s.Gains s' := by
  unfold adjustLearntLimit at h
  simp only at h
  split at h
  · obtain ⟨p, -, h⟩ := bind_eq_ok.mp h
    cases h
    exact .of_forgets ⟨rfl, rfl, rfl, rfl, rfl, .same rfl rfl, rfl, rfl, rfl⟩ (.refl _)
  · cases h
    exact .of_forgets ⟨rfl, rfl, rfl, rfl, rfl, .same rfl rfl, rfl, rfl, rfl⟩ (.refl _)

/-- Nothing is assigned until the literal that is picked is decided. -/
theorem pickBranch_gains {choice : Option Lit} (h : s.pickBranch = .ok (s', choice)) :
    s.Gains s' := by
  obtain ⟨⟨order, choice', random⟩, -, h⟩ := bind_eq_ok.mp h
  simp only at h
  split at h
  · cases h
    exact .of_forgets ⟨rfl, rfl, rfl, rfl, rfl, .same rfl rfl, rfl, rfl, rfl⟩ (.refl _)
  · cases h
    exact .of_forgets ⟨rfl, rfl, rfl, rfl, rfl, .same rfl rfl, rfl, rfl, rfl⟩ (.refl _)

/-- Whether clauses are given up or not, no literal is undone. -/
theorem reduceAtLimit_gains (i : s.Inv g none missing) (h : s.reduceAtLimit = .ok s') :
    s.Gains s' := by
  unfold reduceAtLimit at h
  split at h
  · exact reduce_gains i h
  · cases h
    exact .refl s

/-- What a step of a round does, where the round ends if `spent` is set. -/
inductive Strides (s : Solver) (spent : Bool) (s' : Solver) : Step → Prop
  /-- A conflict is counted, and a level is undone. -/
  | conflict : 0 < s.numVars → s.countConflict.Paces s' → s'.level < s.level →
      Strides s spent s' .conflict
  /-- A variable is decided: the limit of the round and the cap on conflicts allow for it. -/
  | decision : spent = false → ¬Reached s.budget.conflicts s.stats.conflicts s.budgetBase.1 →
      s.Paces s' → s'.level = s.level + 1 → s.net.trail.size < s'.net.trail.size →
      Strides s spent s' .decision
  /-- A last conflict is counted. -/
  | refuted : 0 < s.numVars → s.countConflict.Paces s' → Strides s spent s' (.finished .fails)
  /-- Nothing is counted, and nothing is undone. -/
  | settled {answer : Truth} : s.Gains s' → answer ≠ .unknown →
      Strides s spent s' (.finished answer)
  | gaveUp : s.Paces s' → s'.level = 0 → Strides s spent s' (.finished .unknown)

/-- One more conflict may be counted on both sides. -/
theorem Paces.countConflict (p : s.Paces s') : s.countConflict.Paces s'.countConflict where
  vars := p.vars
  options := p.options
  budget := p.budget
  base := p.base
  outside := p.outside
  flagged := ⟨p.flagged.looks, p.flagged.flag⟩
  answer := p.answer
  conflicts := congrArg (· + 1) p.conflicts
  model := p.model
  filled := p.filled

/-- What a step does before it undoes or begins a level is a part of what it does. -/
theorem Gains.strides {spent : Bool} {x : Step} (a : s.Gains s') (h : s'.Strides spent s'' x) :
    s.Strides spent s'' x := by
  cases h with
  | conflict some_ counted lower =>
      exact .conflict (a.vars ▸ some_) (a.countConflict.trans counted) (a.level ▸ lower)
  | decision open_ allowed paces level longer =>
      refine .decision open_ ?_ (a.toPaces.trans paces) (a.level ▸ level)
        (Nat.lt_of_le_of_lt a.longer longer)
      rw [← a.budget, ← a.conflicts, ← a.base]
      exact allowed
  | refuted some_ counted => exact .refuted (a.vars ▸ some_) (a.countConflict.trans counted)
  | settled gains known => exact .settled (a.trans gains) known
  | gaveUp paces root => exact .gaveUp (a.toPaces.trans paces) root

/-- A clause that is false mentions a variable. -/
theorem Inv.exists_var {id : ClauseId} (i : s.Inv g (some id) missing) : 0 < s.numVars := by
  obtain ⟨c, -, false_⟩ := i.refutes rfl
  have assigned := Array.size_pos_of_mem (false_ c.first c.first_mem)
  exact Nat.lt_of_lt_of_le assigned (Trail.length_lits_le i.core.trail)

/-- The step after a conflict counts it and undoes a level, or is the last one. -/
theorem stepConflict_strides {id : ClauseId} {spent : Bool} {x : Step}
    (i : s.Inv g (some id) none) (free : ∀ k, g.settled k)
    (h : s.stepConflict id = .ok (s', x)) : s.Strides spent s' x := by
  have counted : s.countConflict.Inv g (some id) none := ⟨i.net, i.refutes, i.covers, i.refuted⟩
  unfold stepConflict at h
  simp only at h
  split at h
  next =>
    cases h
    exact .refuted i.exists_var (.refl _)
  next high =>
    obtain ⟨s₁, learnt, h⟩ := bind_eq_ok.mp h
    have learns := counted.learn (Nat.pos_of_ne_zero high) (fun _ _ _ => free _) learnt
    have paces := learn_paces counted learnt
    split at h
    next =>
      obtain ⟨s₂, adjusted, h⟩ := bind_eq_ok.mp h
      cases h
      have adjusts := adjustLearntLimit_gains adjusted
      exact .conflict i.exists_var (paces.trans adjusts.toPaces) (adjusts.level ▸ learns.lower)
    next =>
      cases h
      exact .refuted i.exists_var paces

/-- The step that decides begins a level, or ends the round with a model. -/
theorem stepDecision_strides {x : Step} (i : s.Inv g none none)
    (allowed : ¬Reached s.budget.conflicts s.stats.conflicts s.budgetBase.1)
    (h : s.stepDecision = .ok (s', x)) : s.Strides false s' x := by
  obtain ⟨s₁, reduced, h⟩ := bind_eq_ok.mp h
  have reduces := reduceAtLimit_gains i reduced
  obtain ⟨⟨s₂, choice⟩, picked, h⟩ := bind_eq_ok.mp h
  have gains := reduces.trans (pickBranch_gains picked)
  refine gains.strides ?_
  cases choice with
  | none =>
      cases h
      exact .settled (.refl _) nofun
  | some l =>
      obtain ⟨s₃, decision, h⟩ := bind_eq_ok.mp h
      cases h
      obtain ⟨paces, level, longer⟩ := decide_paces decision
      refine .decision rfl ?_ paces level longer
      rw [gains.budget, gains.conflicts, gains.base]
      exact allowed

/-- A round that is given up ends at the root level without an answer. -/
theorem giveUp_strides {spent : Bool} {x : Step} (i : s.Inv g none none)
    (h : s.giveUp = .ok (s', x)) : s.Strides spent s' x := by
  obtain ⟨_, -, h⟩ := bind_eq_ok.mp h
  obtain ⟨s₁, cancelled, h⟩ := bind_eq_ok.mp h
  cases h
  refine .gaveUp (cancelUntil_paces i.core.trail i.covers cancelled) ?_
  exact cancelUntil_root i.core.trail i.covers cancelled

/-- After a quiet propagation a level is begun only if the limit and the budget allow for it. -/
theorem stepQuiet_strides {spent : Bool} {x : Step} (r : Running g s)
    (h : s.stepQuiet spent = .ok (s', x)) : s.Strides spent s' x := by
  unfold stepQuiet at h
  split at h
  next => exact giveUp_strides r.inv h
  next open_ =>
    obtain ⟨⟨s₁, within⟩, asked, h⟩ := bind_eq_ok.mp h
    have gains := withinBudget_gains asked
    have r₁ := r.kin (kin_withinBudget asked)
    refine gains.strides ?_
    cases within with
    | false => exact giveUp_strides r₁.inv h
    | true =>
        obtain ⟨-, exhausted⟩ := withinBudget_exhausted asked
        have allowed : ¬Reached s₁.budget.conflicts s₁.stats.conflicts s₁.budgetBase.1 := by
          intro reached
          exact absurd (exhausted.mpr (.conflicts reached)) nofun
        obtain ⟨⟨s₂, fine⟩, simplified, h⟩ := bind_eq_ok.mp h
        obtain ⟨i₂, -⟩ := r₁.simplifyAtRoot simplified
        have simplifies := simplifyAtRoot_gains r₁ simplified
        refine simplifies.strides ?_
        cases fine with
        | false =>
            cases h
            exact .settled (.refl _) nofun
        | true =>
            rw [Bool.eq_false_iff.mpr open_]
            refine stepDecision_strides i₂ ?_ h
            rw [simplifies.budget, simplifies.conflicts, simplifies.base]
            exact allowed

/-- One step of a round. -/
theorem step_strides {spent : Bool} {x : Step} (r : Running g s) (free : ∀ k, g.settled k)
    (h : s.step spent = .ok (s', x)) : s.Strides spent s' x := by
  obtain ⟨⟨s₁, conflict⟩, propagated, h⟩ := bind_eq_ok.mp h
  obtain ⟨i, ok, quiet⟩ := r.propagateAll propagated
  refine (propagateAll_gains r.inv propagated).strides ?_
  cases conflict with
  | some id => exact stepConflict_strides i free h
  | none => exact stepQuiet_strides ⟨i, ok, quiet.2⟩ h

end Solver

end Cdcl
