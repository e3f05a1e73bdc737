import Cdcl.Proofs.Success.Search
import Cdcl.Proofs.Twins.Solver

/-!
# Twin searches

Only three operations of a search look at the counters of the arena: giving up learnt
clauses, simplifying, and what compacts the arena after them.  One of two twins may compact
where the other does not.  They stay twins, as every live clause is listed in the
network that is compacted.

* `Twin.checkGarbage` — one of the two, or both, or none may compact;
* `Twin.reduce`, `Twin.simplifyRoot` — giving clauses up;
* `Twin.step` — one step of a round;
* `Twin.roundFrom`, `Twin.rounds`, `Twin.solve` — the search.  The two runs may be allowed
  different numbers of steps.
-/

namespace Cdcl.Solver

open Network (Regime)
open View (Sturdy)

variable {g : Regime} {s s' : Solver}

/-! ## Compaction -/

/-- Whether the arena is compacted or not, what comes out is a twin of the solver. -/
theorem twin_checkGarbage {a : Solver} (w : s.net.Whole) (h : s.checkGarbage = .ok a) :
    ∃ n, s.net.Twin n ∧ a = { s with net := n } := by
  unfold Solver.checkGarbage at h
  split at h
  · obtain ⟨n, collected, rfl⟩ := updateNet_eq_ok.mp h
    exact ⟨n, Network.twin_collect w collected, rfl⟩
  · cases h
    exact ⟨s.net, .refl _, rfl⟩

namespace Twin

/-- Whether each of the two compacts or not, they stay twins. -/
theorem checkGarbage (t : s.Twin s') (w : s.net.Whole) :
    Jointly Twin s.checkGarbage s'.checkGarbage := by
  intro a b left right
  obtain ⟨n, u, rfl⟩ := twin_checkGarbage w left
  obtain ⟨m, u', rfl⟩ := twin_checkGarbage (t.net.whole w) right
  exact t.withNet (u.symm.trans (t.net.trans u'))

/-- The same learnt clauses are given up, and compaction may come after it in either. -/
theorem reduce (t : s.Twin s') (i : s.Inv g none none) (d : s.net.view.Sturdy) :
    Jointly Twin s.reduce s'.reduce := by
  have same : s'.outside = s.outside := by
    cases t
    rfl
  unfold Solver.reduce
  rw [same]
  refine .bind (t.updateNet fun u => u.reduceLearnts) fun s₁ s₁' t₁ reduced => ?_
  obtain ⟨n, pruned, rfl⟩ := updateNet_eq_ok.mp reduced
  have chain := Network.reduceLearnts_chain s.outside.arrange_perm i.core pruned
  exact t₁.checkGarbage ((View.Chain.core chain i.core).whole (View.Chain.sturdy chain i.core d))

/-- The same clauses are removed and trimmed. -/
theorem simplifyNow (t : s.Twin s') (i : s.Inv g none none) (root : s.level = 0)
    (d : s.net.view.Sturdy) : Jointly Twin s.simplifyNow s'.simplifyNow := by
  have same : s'.options.removeSatisfied = s.options.removeSatisfied := by
    cases t
    rfl
  unfold Solver.simplifyNow
  rw [same]
  refine .bind (t.updateNet fun u => u.sweepAll) fun s₁ s₁' t₁ swept => ?_
  obtain ⟨n, sweeping, rfl⟩ := updateNet_eq_ok.mp swept
  have chain := Network.sweepAll_chain i.core root sweeping
  have whole := (View.Chain.core chain i.core).whole (View.Chain.sturdy chain i.core d)
  refine .bind (t₁.checkGarbage whole) fun s₂ s₂' ⟨⟨arena, journal⟩⟩ _ => ?_
  exact .same fun order _ => .ok (report (.mk (.mk arena journal)))

/-- Simplification has the same answer, and is due in both or in neither. -/
theorem simplifyRoot (t : s.Twin s') (i : s.Inv g none none) (d : s.net.view.Sturdy) :
    Jointly (Beside Twin) s.simplifyRoot s'.simplifyRoot := by
  have all := t.propagateAll
  obtain ⟨⟨arena, journal⟩⟩ := t
  refine .same fun _ atRoot => .ite (fun _ => .ok ⟨.mk (.mk arena journal), rfl⟩) fun _ => ?_
  refine .step all fun s₁ s₁' conflict t₁ propagated => ?_
  cases conflict with
  | some id =>
      obtain ⟨t₁⟩ := t₁
      exact .ok ⟨.mk t₁, rfl⟩
  | none =>
      have root : s.level = 0 := by simpa using ensure_eq_ok.mp atRoot
      obtain ⟨advance, i₁⟩ := i.propagateAll propagated
      have d₁ := (propagateAll_moves i.core propagated).sturdy i.core d
      have simplified := t₁.simplifyNow i₁ (advance.level.trans root) d₁
      obtain ⟨⟨arena, journal⟩⟩ := t₁
      refine .ite (fun _ => .ok ⟨.mk (.mk arena journal), rfl⟩) fun _ => ?_
      exact .bind simplified fun s₂ s₂' t₂ _ => .ok ⟨t₂, rfl⟩

theorem simplify (t : s.Twin s') (r : Ready g s) (d : s.net.view.Sturdy) :
    Jointly (Beside Twin) s.simplify s'.simplify := by
  unfold Solver.simplify
  rw [t.level]
  exact .ite (fun root => t.simplifyRoot (r.idle root ▸ r.inv) d) fun _ => .error

/-! ## Counters -/

/-- The same is left of the budget, and the callback is asked in both or in neither. -/
theorem withinBudget (t : s.Twin s') : Jointly (Beside Twin) s.withinBudget s'.withinBudget := by
  obtain ⟨t⟩ := t
  unfold Solver.withinBudget
  refine .ite (fun _ => .ok ⟨.mk t, rfl⟩) fun _ => .same fun conflicts _ => ?_
  refine .ite (fun _ => .ok ⟨.mk t, rfl⟩) fun _ => .same fun propagations _ => ?_
  exact .ite (fun _ => .ok ⟨.mk t, rfl⟩) fun _ => .ok ⟨.mk t, rfl⟩

/-- The limit on learnt clauses grows at the same conflicts. -/
theorem adjustLearntLimit (t : s.Twin s') :
    Jointly Twin s.adjustLearntLimit s'.adjustLearntLimit := by
  obtain ⟨⟨arena, journal⟩⟩ := t
  refine .ite (fun _ => .same fun p _ => ?_) fun _ => .ok (.mk (.mk arena journal))
  exact .ok (report (.mk (.mk arena journal)))

/-- The same literal is picked. -/
theorem pickBranch (t : s.Twin s') : Jointly (Beside Twin) s.pickBranch s'.pickBranch := by
  obtain ⟨⟨arena, journal⟩⟩ := t
  refine .same fun (order, choice, random) _ => .ite (fun _ => ?_) fun _ => ?_
  · exact .ok ⟨.mk (.mk arena journal), rfl⟩
  · exact .ok ⟨.mk (.mk arena journal), rfl⟩

/-! ## One step -/

/-- The same is learnt from a conflict, or the round ends in both. -/
theorem stepConflict {id : ClauseId} (t : s.Twin s') :
    Jointly (Beside Twin) (s.stepConflict id) (s'.stepConflict id) := by
  have learnt : Jointly Twin (s.countConflict.learn id) (s'.countConflict.learn id) :=
    t.countConflict.learn
  obtain ⟨⟨arena, journal⟩⟩ := t
  refine .ite (fun _ => .ok ⟨.mk (.mk arena journal), rfl⟩) fun _ => ?_
  refine .bind learnt fun s₁ s₁' t₁ _ => ?_
  have adjusted := t₁.adjustLearntLimit
  obtain ⟨t₁⟩ := t₁
  refine .ite (fun _ => ?_) fun _ => .ok ⟨.mk t₁, rfl⟩
  exact .bind adjusted fun s₂ s₂' t₂ _ => .ok ⟨t₂, rfl⟩

theorem simplifyAtRoot (t : s.Twin s') (i : s.Inv g none none) (d : s.net.view.Sturdy) :
    Jointly (Beside Twin) s.simplifyAtRoot s'.simplifyAtRoot := by
  unfold Solver.simplifyAtRoot
  rw [t.level]
  exact .ite (fun _ => t.simplifyRoot i d) fun _ => .ok ⟨t, rfl⟩

/-- Both solvers have as many learnt clauses, so that the limit is met in both or in neither. -/
theorem reduceAtLimit (t : s.Twin s') (i : s.Inv g none none) (d : s.net.view.Sturdy) :
    Jointly Twin s.reduceAtLimit s'.reduceAtLimit := by
  have reduced := t.reduce i d
  obtain ⟨⟨arena, journal⟩⟩ := t
  exact .ite (fun _ => reduced) fun _ => .ok (.mk (.mk arena journal))

/-- The same literal is decided, or the round ends with a model in both. -/
theorem stepDecision (t : s.Twin s') (i : s.Inv g none none) (d : s.net.view.Sturdy) :
    Jointly (Beside Twin) s.stepDecision s'.stepDecision := by
  refine .bind (t.reduceAtLimit i d) fun s₁ s₁' t₁ _ => ?_
  refine .step t₁.pickBranch fun s₂ s₂' choice t₂ _ => ?_
  cases choice with
  | some l => exact .bind t₂.decide fun s₃ s₃' t₃ _ => .ok ⟨t₃, rfl⟩
  | none => exact .ok ⟨t₂, rfl⟩

theorem giveUp (t : s.Twin s') : Jointly (Beside Twin) s.giveUp s'.giveUp := by
  have cancelled : Jointly Twin (s.cancelUntil 0) (s'.cancelUntil 0) := t.cancelUntil
  obtain ⟨⟨arena, journal⟩⟩ := t
  refine .same fun estimate _ => .bind cancelled fun s₁ s₁' t₁ _ => .ok ⟨t₁, rfl⟩

/-- A quiet propagation is followed by the same in both. -/
theorem stepQuiet {spent : Bool} (t : s.Twin s') (r : Running g s) (d : s.net.view.Sturdy) :
    Jointly (Beside Twin) (s.stepQuiet spent) (s'.stepQuiet spent) := by
  refine .ite (fun _ => t.giveUp) fun _ => .step t.withinBudget fun s₁ s₁' within t₁ asked => ?_
  cases within with
  | false => exact t₁.giveUp
  | true =>
      have r₁ := r.kin (kin_withinBudget asked)
      have d₁ := (withinBudget_moves asked).sturdy r.inv.core d
      refine .step (t₁.simplifyAtRoot r₁.inv d₁) fun s₂ s₂' fine t₂ simplified => ?_
      cases fine with
      | false => exact .ok ⟨t₂, rfl⟩
      | true =>
          have i₂ := (r₁.simplifyAtRoot simplified).1
          have d₂ := (simplifyAtRoot_moves r₁ simplified).sturdy r₁.inv.core d₁
          exact t₂.stepDecision i₂ d₂

/-- One step of a round has the same outcome. -/
theorem step {spent : Bool} (t : s.Twin s') (r : Running g s) (d : s.net.view.Sturdy) :
    Jointly (Beside Twin) (s.step spent) (s'.step spent) := by
  refine .step t.propagateAll fun s₁ s₁' conflict t₁ propagated => ?_
  cases conflict with
  | some id => exact t₁.stepConflict
  | none =>
      obtain ⟨i₁, ok, quiet⟩ := r.propagateAll propagated
      have d₁ := (propagateAll_moves r.inv.core propagated).sturdy r.inv.core d
      exact t₁.stepQuiet ⟨i₁, ok, quiet.2⟩ d₁

/-! ## Rounds -/

/-- By induction over its steps, a round has the same answer. -/
theorem roundFrom {limit : Int} {fuel fuel' count : Nat} (t : s.Twin s') (r : Running g s)
    (free : ∀ k, g.settled k) (d : s.net.view.Sturdy) :
    Jointly (Beside Twin) (roundFrom limit fuel count s) (Solver.roundFrom limit fuel' count s') := by
  induction fuel generalizing s s' fuel' count with
  | zero => exact .error
  | succ fuel ih =>
      cases fuel' with
      | zero => exact .errorRight
      | succ fuel' =>
          refine .step (t.step r d) fun s₁ s₁' x t₁ stepping => ?_
          have stepped := step_stepped r free stepping
          have d₁ := (step_moves r stepping).sturdy r.inv.core d
          cases x with
          | finished answer => exact .ok ⟨t₁, rfl⟩
          | conflict => exact ih t₁ stepped d₁
          | decision => exact ih t₁ stepped d₁

theorem round {limit : Int} {fuel fuel' : Nat} (t : s.Twin s') (r : Running g s)
    (free : ∀ k, g.settled k) (d : s.net.view.Sturdy) :
    Jointly (Beside Twin) (s.round fuel limit) (s'.round fuel' limit) := by
  obtain ⟨t⟩ := t
  exact .same fun _ _ => roundFrom (.mk t) r.countRound free d

/-- By induction over the rounds, a sequence of them has the same answer. -/
theorem rounds {fuel fuel' more more' n : Nat} (t : s.Twin s') (r : Running g s)
    (free : ∀ k, g.settled k) (d : s.net.view.Sturdy) :
    Jointly (Beside Twin) (rounds fuel more n s) (Solver.rounds fuel' more' n s') := by
  induction more generalizing s s' more' n with
  | zero => exact .error
  | succ more ih =>
      cases more' with
      | zero => exact .errorRight
      | succ more' =>
          obtain ⟨t⟩ := t
          refine .same fun factor _ => ?_
          refine .step (round (.mk t) r free d) fun s₁ s₁' x t₁ ran => ?_
          refine .step t₁.withinBudget fun s₂ s₂' within t₂ asked => ?_
          refine .ite (fun _ => .ok ⟨t₂, rfl⟩) fun again => ?_
          simp only [Bool.or_eq_true, Bool.not_eq_true', decide_eq_true_eq, not_or,
            Bool.not_eq_false, ne_eq, not_not] at again
          obtain ⟨-, rfl⟩ := again
          have running : Running g s₂ :=
            Running.kin (round_answered r free ran) (kin_withinBudget asked)
          have d₂ := ((round_moves r free ran).trans (withinBudget_moves asked)).sturdy r.inv.core d
          have told := (log_moves s₂ (.searchRestart n)).trans (report_moves _ .restart)
          refine ih t₂.log.report (running.kin ?_) (told.sturdy running.inv.core d₂)
          exact (kin_log rfl _).trans (kin_report _ _)

/-! ## The whole search -/

theorem started (t : s.Twin s') : s.started.Twin s'.started := by
  obtain ⟨⟨arena, journal⟩⟩ := t
  exact report (log (.mk (.mk arena journal)))

/-- A search ends with the same model. -/
theorem conclude {x : Truth} (t : s.Twin s') : Jointly Twin (s.conclude x) (s'.conclude x) := by
  have ends : ∀ {a b : Solver}, a.Twin b → Jointly Twin
      (a.cancelUntil 0 >>= fun s => pure ({ s with interrupted := false }.log (.searchResult x)))
      (b.cancelUntil 0 >>= fun s => pure ({ s with interrupted := false }.log (.searchResult x))) :=
    fun t => .bind t.cancelUntil fun _ _ ⟨t₁⟩ _ => .ok (log (.mk t₁))
  obtain ⟨⟨arena, journal⟩⟩ := t
  cases x with
  | holds => exact ends (.mk (.mk arena journal.report))
  | fails => exact ends (.mk (.mk arena journal.report))
  | unknown => exact ends (.mk (.mk arena journal.report))

/-- A search has the same answer, whatever steps are allowed in each. -/
theorem solve {fuel fuel' : Nat} (t : s.Twin s') (r : Ready g s) (loose : ¬g.paced)
    (d : s.net.view.Sturdy) : Jointly (Beside Twin) (s.solve fuel) (s'.solve fuel') := by
  obtain ⟨t⟩ := t
  refine .ite (fun _ => .ok ⟨.mk t, rfl⟩) fun fine => ?_
  have ok : s.ok = true := by simpa using fine
  refine .bind (cancelUntil (.mk t)) fun s₁ s₁' t₁ cancelled => ?_
  have moved := (cleared_moves s).trans (cancelUntil_moves r.inv.core.trail r.inv.covers cancelled)
  have d₁ := (moved.trans (started_moves s₁)).sturdy r.inv.core d
  have running := r.inv.start r.idle (fun on => absurd on.1 loose) ok cancelled
  refine .step (t₁.started.rounds running (fun _ => trivial) d₁) fun s₂ s₂' x t₂ _ => ?_
  exact .bind t₂.conclude fun s₃ s₃' t₃ _ => .ok ⟨t₃, rfl⟩

end Twin

end Cdcl.Solver
