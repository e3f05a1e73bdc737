import Cdcl.Solver.Search
import Cdcl.Proofs.Learning
import Cdcl.Proofs.Simplifying

/-!
# The search

What the search comes to.  `Running` is what holds between its steps, and `Answered` what
holds when a round ends: `step_stepped` is the one step, and `roundFrom_answered` and
`rounds_answered` repeat it.

* `Inv.simplifyRoot`, `Inv.reduce` — giving clauses up keeps the invariant;
* `Inv.solve` — a search that finds a model has left nothing to propagate and no variable to
  decide, and one that fails has shown the formula unsatisfiable.

During a search every level is left with everything propagated, so all levels are
settled.
-/

namespace Cdcl.Solver

open Network (Regime)

variable {g : Regime} {s s' : Solver} {missing : Option Var}

/-! ## Giving clauses up -/

/-- Clauses have been given up, and the rest is bookkeeping. -/
structure Tidies (s s' : Solver) : Prop where
  trail : s.net.trail.Forgets s'.net.trail
  ok : s'.ok = s.ok
  pending : s'.pending = s.pending

theorem Tidies.refl (s : Solver) : s.Tidies s := ⟨.refl _, rfl, rfl⟩

theorem Tidies.trans {s'' : Solver} (a : s.Tidies s') (b : s'.Tidies s'') : s.Tidies s'' :=
  ⟨a.trail.trans b.trail, b.ok.trans a.ok, b.pending.trans a.pending⟩

/-- The invariant of the solver asks nothing of the clauses that are gone. -/
theorem Inv.reduced {n : Network} (i : s.Inv g none missing) (r : s.net.Reduces n) :
    { s with net := n }.Inv g none missing where
  net := r.fits i.net
  refutes same := by cases same
  covers := i.covers.anti (congrArg DenseMap.size r.trail.values) fun _ unknown =>
    r.trail.values ▸ unknown
  refuted := i.refuted

/-- Compacting the arena keeps the invariant. -/
theorem Inv.checkGarbage (i : s.Inv g none missing) (h : s.checkGarbage = .ok s') :
    s'.Inv g none missing ∧ s.Tidies s' := by
  unfold Solver.checkGarbage at h
  split at h
  · obtain ⟨n, collected, rfl⟩ := updateNet_eq_ok.mp h
    have r := Network.reduces_collect i.net.wf collected
    exact ⟨i.reduced r, r.trail, rfl, rfl⟩
  · cases h
    exact ⟨i, .refl _⟩

/-- Whatever the order in which learnt clauses are given up, the invariant is kept. -/
theorem Inv.reduceBy {sort : List Candidate → List Candidate} (perm : ∀ cs, (sort cs).Perm cs)
    (i : s.Inv g none missing) (h : s.reduceBy sort = .ok s') :
    s'.Inv g none missing ∧ s.Tidies s' := by
  obtain ⟨s₁, reduced, h⟩ := bind_eq_ok.mp h
  obtain ⟨n, pruned, rfl⟩ := updateNet_eq_ok.mp reduced
  have r := Network.reduces_reduceLearnts perm i.net.wf pruned
  obtain ⟨i', tidies⟩ := (i.reduced r).checkGarbage h
  have first : s.Tidies { s with net := n } := ⟨r.trail, rfl, rfl⟩
  exact ⟨i', first.trans tidies⟩

theorem Inv.reduce (i : s.Inv g none missing) (h : s.reduce = .ok s') :
    s'.Inv g none missing ∧ s.Tidies s' :=
  i.reduceBy s.outside.arrange_perm h

/-- Simplifying keeps the invariant, and refills the heap with all variables that are free. -/
theorem Inv.simplifyNow (i : s.Inv g none missing) (root : s.level = 0)
    (h : s.simplifyNow = .ok s') : s'.Inv g none none ∧ s.Tidies s' := by
  obtain ⟨n, s₂, order, schedule, sweeping, collected, rebuilt, rfl⟩ := simplifyNow_eq_ok h
  have r := Network.reduces_sweepAll i.net.wf root sweeping
  obtain ⟨i₂, tidies⟩ := (i.reduced r).checkGarbage collected
  have covers := Order.covers_rebuild i₂.covers rebuilt
  have first : s.Tidies { s with net := n } := ⟨r.trail, rfl, rfl⟩
  have rebuilt : ∀ schedule, { s₂ with order, schedule }.Inv g none none := fun _ =>
    ⟨i₂.net, i₂.refutes, covers, i₂.refuted⟩
  have tidies := first.trans tidies
  exact ⟨(kin_report .simplify _).inv (rebuilt _), tidies.trail, tidies.ok, tidies.pending⟩

/-- Everything that is assigned has been propagated, and no conflict is pending. -/
def Quiet (s : Solver) : Prop :=
  s.net.trail.head = s.net.trail.lits.size ∧ s.pending = none

/-- Giving clauses up leaves nothing to be propagated. -/
theorem Tidies.quiet (t : s.Tidies s') (q : s.Quiet) : s'.Quiet := by
  unfold Quiet
  rw [t.trail.head, t.trail.lits, t.pending]
  exact q

theorem Tidies.level (t : s.Tidies s') : s'.level = s.level := congrArg Array.size t.trail.marks

/-- A propagation without pending conflict ends with everything propagated. -/
theorem Advance.settles (a : s.Advance s') (idle : s.pending = none) : s'.Quiet := by
  refine ⟨a.quiet, ?_⟩
  rw [a.rest]
  exact idle

/-- At the root level a conflict refutes the formula. -/
theorem Inv.simplifyRoot {b : Bool} (i : s.Inv g none none) (idle : s.pending = none)
    (h : s.simplifyRoot = .ok (s', b)) : s'.Inv g none none ∧ s'.level = 0 ∧
      s'.pending = none ∧ s'.ok = b ∧ (b = true → s'.Quiet) := by
  obtain ⟨_, root, h⟩ := bind_eq_ok.mp h
  have root : s.level = 0 := by simpa using ensure_eq_ok.mp root
  split at h
  next failed =>
    cases h
    exact ⟨i, root, idle, by simpa using failed, nofun⟩
  next fine =>
    have ok : s.ok = true := by simpa using fine
    obtain ⟨⟨s₁, conflict⟩, propagated, h⟩ := bind_eq_ok.mp h
    obtain ⟨advance, i₁⟩ := i.propagateAll propagated
    have quiet := advance.settles idle
    have level : s₁.level = 0 := advance.level.trans root
    have ok₁ : s₁.ok = true := by
      rw [advance.rest]
      exact ok
    cases conflict with
    | some id =>
        cases h
        exact ⟨i₁.fail (i₁.unsatisfiable level) (.inl rfl), level, quiet.2, rfl, nofun⟩
    | none =>
        simp only at h
        split at h
        · cases h
          exact ⟨i₁, level, quiet.2, ok₁, fun _ => quiet⟩
        · obtain ⟨s₂, simplified, h⟩ := bind_eq_ok.mp h
          cases h
          obtain ⟨i₂, tidies⟩ := i₁.simplifyNow level simplified
          exact ⟨i₂, tidies.level.trans level, tidies.pending.trans quiet.2,
            tidies.ok.trans ok₁, fun _ => tidies.quiet quiet⟩

/-! ## One step -/

/-- What holds between the steps of a search. -/
structure Running (g : Regime) (s : Solver) : Prop where
  inv : s.Inv g none none
  ok : s.ok = true
  idle : s.pending = none

/-- No variable is left that may be decided. -/
def Decided (s : Solver) : Prop :=
  ∀ {v}, s.order.eligible.get v = .ok true → s.net.trail.values.get v ≠ .ok .unknown

/-- What holds when a round ends with the answer. -/
def Answered (g : Regime) (s : Solver) : Truth → Prop
  | .holds => Running g s ∧ s.Quiet ∧ s.Decided
  | .fails => { s with ok := false }.Inv g none none ∧ s.pending = none
  | .unknown => Running g s

/-- What holds after a step of a round. -/
def Stepped (g : Regime) (s : Solver) : Step → Prop
  | .finished answer => Answered g s answer
  | .conflict => Running g s
  | .decision => Running g s

theorem Running.kin (r : Running g s) (k : s.Kin s') : Running g s' :=
  ⟨k.inv r.inv, k.ok.trans r.ok, k.pending.trans r.idle⟩

theorem Running.tidies (r : Running g s) (i : s'.Inv g none none) (t : s.Tidies s') :
    Running g s' := ⟨i, t.ok.trans r.ok, t.pending.trans r.idle⟩

/-- Only the interrupt flag is looked at, and the callback asked whether to stop. -/
theorem withinBudget_eq_ok {within : Bool} (h : s.withinBudget = .ok (s', within)) :
    ∃ stop, s' = { s.look with stop } := by
  unfold withinBudget at h
  simp only at h
  split at h
  · cases h
    exact ⟨_, rfl⟩
  · obtain ⟨_, -, h⟩ := bind_eq_ok.mp h
    split at h
    · cases h
      exact ⟨_, rfl⟩
    · obtain ⟨_, -, h⟩ := bind_eq_ok.mp h
      split at h
      · cases h
        exact ⟨_, rfl⟩
      · cases h
        exact ⟨_, rfl⟩

theorem kin_withinBudget {within : Bool} (h : s.withinBudget = .ok (s', within)) :
    s.Kin s' := by
  obtain ⟨_, rfl⟩ := withinBudget_eq_ok h
  exact kin_of_eq rfl rfl rfl rfl

/-- Adjusting the limit on learnt clauses is bookkeeping. -/
theorem kin_adjustLearntLimit (h : s.adjustLearntLimit = .ok s') : s.Kin s' := by
  unfold adjustLearntLimit at h
  simp only at h
  split at h
  · obtain ⟨p, -, h⟩ := bind_eq_ok.mp h
    cases h
    refine Kin.trans ?_ (kin_report _ _)
    exact kin_of_eq rfl rfl rfl rfl
  · cases h
    exact kin_of_eq rfl rfl rfl rfl

/-- A conflict is learnt from, or refutes the formula. -/
theorem stepConflict_stepped {id : ClauseId} {x : Step} (i : s.Inv g (some id) none)
    (idle : s.pending = none) (free : ∀ k, g.settled k)
    (h : s.stepConflict id = .ok (s', x)) : Stepped g s' x := by
  have counted : s.countConflict.Inv g (some id) none := ⟨i.net, i.refutes, i.covers, i.refuted⟩
  unfold stepConflict at h
  simp only at h
  split at h
  next root =>
    cases h
    exact ⟨counted.fail (counted.unsatisfiable root) (.inl rfl), idle⟩
  next high =>
    obtain ⟨s₁, learnt, h⟩ := bind_eq_ok.mp h
    have learns := counted.learn (Nat.pos_of_ne_zero high) (fun _ _ _ => free _) learnt
    split at h
    next ok₁ =>
      obtain ⟨s₂, adjusted, h⟩ := bind_eq_ok.mp h
      cases h
      exact Running.kin ⟨learns.inv, ok₁, learns.pending⟩ (kin_adjustLearntLimit adjusted)
    next failed =>
      cases h
      have failed : s'.ok = false := by simpa using failed
      exact ⟨learns.inv.fail (fun on => learns.inv.refuted on failed) (.inl rfl), learns.pending⟩

/-- What picking a decision comes to. -/
theorem Inv.pickBranch {choice : Option Lit} (i : s.Inv g none none)
    (h : s.pickBranch = .ok (s', choice)) : s'.Inv g none (choice.map Lit.var) ∧
      s'.net = s.net ∧ s'.ok = s.ok ∧ s'.pending = s.pending ∧
      (choice = none → s'.Decided) := by
  obtain ⟨⟨order, choice', random⟩, picked, h⟩ := bind_eq_ok.mp h
  obtain ⟨covers, same, done⟩ := Order.pickBy_covers i.covers picked
  have inv : { s with order }.Inv g none (choice'.map Lit.var) :=
    ⟨i.net, i.refutes, covers, i.refuted⟩
  have decided : choice' = none → { s with order }.Decided := fun none {v} may unknown =>
    done none v ⟨same ▸ may, unknown⟩
  simp only at h
  split at h
  · cases h
    have counted := (kin_of_eq rfl rfl rfl rfl : { s with order }.Kin { s with
      order, stats := { s.stats with randomDecisions := s.stats.randomDecisions + 1 } }).inv inv
    exact ⟨counted, rfl, rfl, rfl, decided⟩
  · cases h
    exact ⟨inv, rfl, rfl, rfl, decided⟩

/-- Without a variable to be decided, everything is decided and propagated. -/
theorem stepDecision_stepped {x : Step} (r : Running g s) (quiet : s.Quiet)
    (h : s.stepDecision = .ok (s', x)) : Stepped g s' x := by
  obtain ⟨s₁, reduced, h⟩ := bind_eq_ok.mp h
  obtain ⟨i₁, tidies⟩ : s₁.Inv g none none ∧ s.Tidies s₁ := by
    unfold reduceAtLimit at reduced
    split at reduced
    · exact r.inv.reduce reduced
    · cases reduced
      exact ⟨r.inv, .refl s⟩
  have r₁ := r.tidies i₁ tidies
  have quiet₁ := tidies.quiet quiet
  obtain ⟨⟨s₂, choice⟩, picked, h⟩ := bind_eq_ok.mp h
  obtain ⟨i₂, net, ok, idle, decided⟩ := r₁.inv.pickBranch picked
  have quiet₂ : s₂.Quiet := by
    unfold Quiet
    rw [net, idle]
    exact quiet₁
  cases choice with
  | none =>
      cases h
      exact ⟨⟨i₂, ok.trans r₁.ok, quiet₂.2⟩, quiet₂, decided rfl⟩
  | some l =>
      obtain ⟨s₃, decision, h⟩ := bind_eq_ok.mp h
      cases h
      have opens : s₂.Opens g { g with settled := g.settled } none := fun _ =>
        ⟨fun _ _ left => left, fun _ => ⟨quiet₂.1, rfl⟩⟩
      obtain ⟨inv, -, pending, ok'⟩ := i₂.decide opens (.inr rfl) decision
      exact ⟨inv, ok'.trans (ok.trans r₁.ok), pending.trans quiet₂.2⟩

/-- Going back keeps the invariant, as all levels are settled in a search. -/
theorem Inv.rewind {k : Nat} (i : s.Inv g none none) (idle : s.pending = none)
    (free : ∀ k, g.settled k) (h : s.cancelUntil k = .ok s') :
    s'.Inv g none none ∧ s'.pending = none ∧ Retreats g s k s' := by
  have i : s.Inv g s.pending none := idle ▸ i
  have retreats := i.retreats (fun _ _ => free _) h
  have idle : s'.pending = none := by
    rcases retreats.descends.pending with none | ⟨same, -⟩
    · exact none
    · exact same.trans idle
  exact ⟨idle ▸ retreats.inv, idle, retreats⟩

theorem Running.back {k : Nat} (r : Running g s) (free : ∀ k, g.settled k)
    (h : s.cancelUntil k = .ok s') : Running g s' := by
  obtain ⟨inv, idle, retreats⟩ := r.inv.rewind r.idle free h
  exact ⟨inv, retreats.ok.trans r.ok, idle⟩

/-- A round that is given up ends with a search that runs. -/
theorem giveUp_stepped {x : Step} (r : Running g s) (free : ∀ k, g.settled k)
    (h : s.giveUp = .ok (s', x)) : Stepped g s' x := by
  obtain ⟨_, -, h⟩ := bind_eq_ok.mp h
  obtain ⟨s₁, cancelled, h⟩ := bind_eq_ok.mp h
  cases h
  exact r.back free cancelled

/-- The answer says whether the search goes on. -/
theorem Running.simplifyAtRoot {fine : Bool} (r : Running g s)
    (h : s.simplifyAtRoot = .ok (s', fine)) : s'.Inv g none none ∧ s'.pending = none ∧
      s'.ok = fine ∧ (s.Quiet → fine = true → s'.Quiet) := by
  unfold Solver.simplifyAtRoot at h
  split at h
  · obtain ⟨i, -, idle, ok, quiet⟩ := r.inv.simplifyRoot r.idle h
    exact ⟨i, idle, ok, fun _ => quiet⟩
  · cases h
    exact ⟨r.inv, r.idle, r.ok, fun quiet _ => quiet⟩

/-- The step after a quiet propagation. -/
theorem stepQuiet_stepped {x : Step} {spent : Bool} (r : Running g s) (quiet : s.Quiet)
    (free : ∀ k, g.settled k) (h : s.stepQuiet spent = .ok (s', x)) : Stepped g s' x := by
  unfold stepQuiet at h
  split at h
  next => exact giveUp_stepped r free h
  next =>
    obtain ⟨⟨s₁, within⟩, asked, h⟩ := bind_eq_ok.mp h
    have kin := kin_withinBudget asked
    have r₁ := r.kin kin
    have quiet₁ : s₁.Quiet := by
      unfold Quiet
      rw [kin.net.trail, kin.pending]
      exact quiet
    cases within with
    | false => exact giveUp_stepped r₁ free h
    | true =>
        obtain ⟨⟨s₂, fine⟩, simplified, h⟩ := bind_eq_ok.mp h
        obtain ⟨i₂, idle, ok, quiet₂⟩ := r₁.simplifyAtRoot simplified
        cases fine with
        | false =>
            cases h
            exact ⟨i₂.fail (fun on => i₂.refuted on ok) (.inl rfl), idle⟩
        | true => exact stepDecision_stepped ⟨i₂, ok, idle⟩ (quiet₂ quiet₁ rfl) h

/-- After a propagation everything is propagated, and a conflict is in hand if there is one. -/
theorem Running.propagateAll {conflict : Option ClauseId} (r : Running g s)
    (h : s.propagateAll = .ok (s', conflict)) :
    s'.Inv g conflict none ∧ s'.ok = true ∧ s'.Quiet := by
  obtain ⟨advance, i⟩ := r.inv.propagateAll h
  refine ⟨i, ?_, advance.settles r.idle⟩
  rw [advance.rest]
  exact r.ok

/-- One step of a round leaves a search that runs, or an answer that is right. -/
theorem step_stepped {x : Step} {spent : Bool} (r : Running g s) (free : ∀ k, g.settled k)
    (h : s.step spent = .ok (s', x)) : Stepped g s' x := by
  obtain ⟨⟨s₁, conflict⟩, propagated, h⟩ := bind_eq_ok.mp h
  obtain ⟨i, ok, quiet⟩ := r.propagateAll propagated
  cases conflict with
  | some id => exact stepConflict_stepped i quiet.2 free h
  | none => exact stepQuiet_stepped ⟨i, ok, quiet.2⟩ quiet free h

/-! ## Rounds -/

/-- By induction over its steps, the answer of a round is right. -/
theorem roundFrom_answered {limit : Int} {fuel count : Nat} {x : Truth} (r : Running g s)
    (free : ∀ k, g.settled k) (h : roundFrom limit fuel count s = .ok (s', x)) :
    Answered g s' x := by
  induction fuel generalizing s count with
  | zero => cases h
  | succ fuel ih =>
      obtain ⟨⟨s₁, y⟩, stepping, h⟩ := bind_eq_ok.mp h
      have stepped := step_stepped r free stepping
      cases y with
      | finished answer =>
          cases h
          exact stepped
      | conflict => exact ih stepped h
      | decision => exact ih stepped h

theorem Running.countRound (r : Running g s) :
    Running g { s with stats := { s.stats with rounds := s.stats.rounds + 1 } } :=
  r.kin (kin_of_eq rfl rfl rfl rfl)

/-- The answer of a round is right. -/
theorem round_answered {limit : Int} {fuel : Nat} {x : Truth} (r : Running g s)
    (free : ∀ k, g.settled k) (h : s.round fuel limit = .ok (s', x)) : Answered g s' x := by
  obtain ⟨_, -, h⟩ := bind_eq_ok.mp h
  exact roundFrom_answered r.countRound free h

/-- An answer stays right after bookkeeping that leaves the order alone. -/
theorem Answered.kin {x : Truth} (a : Answered g s x) (k : s.Kin s')
    (order : s'.order = s.order) : Answered g s' x := by
  cases x with
  | unknown => exact Running.kin a k
  | fails =>
      have k' : { s with ok := false }.Kin { s' with ok := false } :=
        ⟨k.net, k.covers, rfl, k.pending⟩
      exact ⟨k'.inv a.1, k.pending.trans a.2⟩
  | holds =>
      obtain ⟨r, quiet, decided⟩ := a
      refine ⟨r.kin k, ?_, ?_⟩
      · unfold Quiet
        rw [k.net.trail, k.pending]
        exact quiet
      · unfold Decided
        rw [k.net.trail, order]
        exact decided

theorem order_withinBudget {within : Bool} (h : s.withinBudget = .ok (s', within)) :
    s'.order = s.order := by
  obtain ⟨_, rfl⟩ := withinBudget_eq_ok h
  rfl

/-- By induction over the rounds, the answer of the last one is right. -/
theorem rounds_answered {fuel more n : Nat} {x : Truth} (r : Running g s)
    (free : ∀ k, g.settled k) (h : rounds fuel more n s = .ok (s', x)) : Answered g s' x := by
  induction more generalizing s n with
  | zero => cases h
  | succ more ih =>
      obtain ⟨factor, -, h⟩ := bind_eq_ok.mp h
      obtain ⟨⟨s₁, y⟩, round, h⟩ := bind_eq_ok.mp h
      have answered := round_answered r free round
      obtain ⟨⟨s₂, within⟩, asked, rest⟩ := bind_eq_ok.mp h
      have still := answered.kin (kin_withinBudget asked) (order_withinBudget asked)
      simp only at rest
      split at rest
      next =>
        cases rest
        exact still
      next again =>
        simp only [Bool.or_eq_true, Bool.not_eq_true', decide_eq_true_eq, not_or,
          Bool.not_eq_false, ne_eq, not_not] at again
        obtain ⟨-, rfl⟩ := again
        refine ih (Running.kin still ?_) rest
        exact (kin_log rfl _).trans (kin_report _ _)

/-! ## The whole search -/

/-- The model of a search: the values of a state in which nothing was left to propagate
or to decide. -/
def FoundBy (g : Regime) (s' s : Solver) : Prop :=
  Running g s ∧ s.Quiet ∧ s.Decided ∧ s'.model = s.assignment ∧
    s'.order.eligible = s.order.eligible

/-- What ending a search comes to. -/
structure Concluded (g : Regime) (s' : Solver) (x : Truth) : Prop where
  inv : s'.Inv g none none
  root : s'.level = 0
  idle : s'.pending = none
  fails : x = .fails → s'.ok = false
  holds : x = .holds → ∃ s, FoundBy g s' s

/-- Ending a search keeps the model, or that there is none, and goes back to the root level. -/
theorem conclude_concluded {x : Truth} (a : Answered g s x) (free : ∀ k, g.settled k)
    (h : s.conclude x = .ok s') : Concluded g s' x := by
  obtain ⟨s₁, cancelled, h⟩ := bind_eq_ok.mp h
  cases h
  have finished : s₁.Kin ({ s₁ with interrupted := false }.log (.searchResult x)) := by
    refine Kin.trans ?_ (kin_log rfl _)
    exact kin_of_eq rfl rfl rfl rfl
  cases x with
  | unknown =>
      have started := (kin_report (.result .unknown) s).inv a.inv
      obtain ⟨inv, idle, back⟩ := started.rewind a.idle free cancelled
      exact ⟨finished.inv inv, back.level.trans (Nat.zero_min _), idle, nofun, nofun⟩
  | fails =>
      obtain ⟨i, idle⟩ := a
      have told : { s with ok := false }.Kin { s.report (.result .fails) with ok := false } :=
        ⟨Network.alike_report _ _, fun c => c, rfl, rfl⟩
      obtain ⟨inv, idle, back⟩ := (told.inv i).rewind idle free cancelled
      exact ⟨finished.inv inv, back.level.trans (Nat.zero_min _), idle, fun _ => back.ok, nofun⟩
  | holds =>
      obtain ⟨r, quiet, decided⟩ := a
      have told : s.Kin { s.report (.result .holds) with
          model := (s.report (.result .holds)).assignment } :=
        ⟨Network.alike_report _ _, fun c => c, rfl, rfl⟩
      obtain ⟨inv, idle, back⟩ := (told.inv r.inv).rewind r.idle free cancelled
      exact ⟨finished.inv inv, back.level.trans (Nat.zero_min _), idle, nofun,
        fun _ => ⟨s, r, quiet, decided, back.model, back.eligible⟩⟩

/-- What a search sets before its first round. -/
def started (s : Solver) : Solver :=
  let s := { s with
    pending := none
    budgetBase := (s.stats.conflicts, s.stats.propagations) }
  (s.startLearntLimit.log .searchStart).report .start

theorem kin_started (idle : s.pending = none) : s.Kin s.started := by
  refine Kin.trans (Kin.trans ?_ (kin_log rfl _)) (kin_report _ _)
  exact kin_of_eq rfl rfl rfl idle.symm

/-- A search runs once it has gone back to the root level, where every level is settled. -/
theorem Inv.start (i : s.Inv g s.pending none) (idle : s.level = 0 → s.pending = none)
    (settled : (g.during s.ok).paced → 0 < s.level → g.settled 0) (ok : s.ok = true)
    (h : { s with model := #[] }.cancelUntil 0 = .ok s') :
    Running { g with settled := fun _ => True } s'.started := by
  have i₀ : { s with model := #[] }.Inv g { s with model := #[] }.pending none :=
    ⟨i.net, i.refutes, i.covers, i.refuted⟩
  have root : s'.level = 0 :=
    (i₀.unpaced.retreats (fun on => on.1.elim) h).level.trans (Nat.zero_min _)
  have retreats := i₀.retreats (fun on lower => root ▸ settled on (root ▸ lower)) h
  have idle₁ : s'.pending = none := retreats.descends.idle idle root
  have i₁ := retreats.inv.resettleRoot root fun _ => True
  rw [idle₁] at i₁
  exact Running.kin ⟨i₁, retreats.ok.trans ok, idle₁⟩ (kin_started idle₁)

/-- The search, with all levels settled once it has gone back to the root level. -/
theorem Inv.solve {fuel : Nat} {x : Truth} (i : s.Inv g s.pending none)
    (idle : s.level = 0 → s.pending = none)
    (settled : (g.during s.ok).paced → 0 < s.level → g.settled 0)
    (h : s.solve fuel = .ok (s', x)) :
    (s.ok = false ∧ x = .fails ∧ s' = { s with model := #[] }) ∨
      Concluded { g with settled := fun _ => True } s' x := by
  unfold Solver.solve at h
  simp only at h
  split at h
  next failed =>
    cases h
    exact .inl ⟨by simpa using failed, rfl, rfl⟩
  next fine =>
    right
    have ok : s.ok = true := by simpa using fine
    obtain ⟨s₁, cancelled, h⟩ := bind_eq_ok.mp h
    obtain ⟨⟨s₂, y⟩, searched, h⟩ := bind_eq_ok.mp h
    obtain ⟨s₃, ended, h⟩ := bind_eq_ok.mp h
    cases h
    have running := i.start idle settled ok cancelled
    exact conclude_concluded (rounds_answered running (fun _ => trivial) searched)
      (fun _ => trivial) ended

end Cdcl.Solver
