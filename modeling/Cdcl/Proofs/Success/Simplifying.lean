import Cdcl.Proofs.Success.Levels

/-!
# Upkeep without a fault

A solver gives learnt clauses up, simplifies its clauses at the root level and compacts its
arena without a fault.  Simplification follows a propagation that found no clause false:
every clause without a true literal has two watched literals without a value, which is what
trimming asks for.

* `checkGarbage_sane`, `reduce_sane`, `simplifyRoot_sane` — the operations.
-/

namespace Cdcl.Solver

open Network (Regime)

variable {g : Regime} {e : Fault → Prop} {s s' : Solver}

/-- The arena can be compacted, unless it is too large to be reported. -/
theorem checkGarbage_sane (large : e .reportTooLarge) (i : s.Inv g none none) (x : s.Sane) :
    Gives e Sane s.checkGarbage where
  failsOnly := by
    refine .ite (fun _ => failsOnly_updateNet ?_) fun _ => .ok _
    exact Network.failsOnly_collect large i.net.wf x.sturdy
  holds _ h := x.moves i.core (checkGarbage_moves i h)

/-- Giving learnt clauses up, in whatever order, fails only if an activity is not a number,
or if the arena is too large to be reported. -/
theorem reduceBy_sane {sort : List Candidate → List Candidate} (perm : ∀ cs, (sort cs).Perm cs)
    (nan : e .incomparableActivities) (large : e .reportTooLarge) (i : s.Inv g none none)
    (x : s.Sane) : Gives e Sane (s.reduceBy sort) := by
  have prunes : FailsOnly e (s.net.reduceLearnts sort) :=
    Network.failsOnly_reduceLearnts perm nan i.core x.sturdy
  refine .bind (failsOnly_updateNet prunes) fun s₁ reduced => ?_
  obtain ⟨n, pruned, rfl⟩ := updateNet_eq_ok.mp reduced
  have r := Network.reduces_reduceLearnts perm i.net.wf pruned
  have moved : s.Moves { s with net := n } :=
    .of_net (Network.reduceLearnts_chain perm i.core pruned) (congrArg DenseMap.size r.trail.values)
      (Network.observed_reduceLearnts pruned)
  exact checkGarbage_sane large (i.reduced r) (x.moves i.core moved)

theorem reduce_sane (excused : ∀ f : Fault, f.Excused → e f) (i : s.Inv g none none)
    (x : s.Sane) : Gives e Sane s.reduce :=
  reduceBy_sane s.outside.arrange_perm (excused _ trivial) (excused _ trivial) i x

/-- Satisfied clauses can be removed and the others trimmed, once everything is propagated. -/
theorem simplifyNow_sane (excused : ∀ f : Fault, f.Excused → e f) (i : s.Inv g none none)
    (x : s.Sane) (root : s.level = 0) (watchful : s.net.Watchful) :
    Gives e Sane s.simplifyNow := by
  have sweeps : FailsOnly e (s.net.sweepAll s.options.removeSatisfied) :=
    Network.failsOnly_sweepAll i.net.wf x.sturdy root watchful
  refine .bind (failsOnly_updateNet sweeps) fun s₁ swept => ?_
  obtain ⟨n, sweeping, rfl⟩ := updateNet_eq_ok.mp swept
  have r := Network.reduces_sweepAll i.net.wf root sweeping
  have moved : s.Moves { s with net := n } :=
    .of_net (Network.sweepAll_chain i.core root sweeping) (congrArg DenseMap.size r.trail.values)
      (Network.observed_sweepAll sweeping)
  have x₁ := x.moves i.core moved
  refine .step (checkGarbage_sane (excused _ trivial) (i.reduced r) x₁) fun s₂ collected x₂ => ?_
  have i₂ := ((i.reduced r).checkGarbage collected).1
  refine .bind (Order.failsOnly_rebuild (excused _ trivial) x₂.fitted.order rfl)
    fun order rebuilt => .ok ?_
  have rebuilt₃ : ∀ schedule, s₂.Moves { s₂ with order, schedule } := fun _ =>
    ⟨⟨.refl, id, fun f => ⟨f.observed, f.info, f.seen, Order.spans_rebuild f.order rfl rebuilt⟩,
      id⟩, id⟩
  exact x₂.moves i₂.core ((rebuilt₃ _).trans (report_moves _ .simplify))

/-- After a propagation without a conflict a clause is watched at two literals without a
value, unless it has a true one. -/
theorem Inv.watchful {missing : Option Var} (i : s.Inv g none missing) (paced : g.paced)
    (ok : s.ok = true) (quiet : s.net.trail.head = s.net.trail.lits.size) : s.net.Watchful :=
  Network.Processed.watchful (i.idle.processed ⟨paced, ok⟩) quiet

/-- Simplification at the root level fails only with an excused fault. -/
theorem simplifyRoot_sane (excused : ∀ f : Fault, f.Excused → e f) (paced : g.paced)
    (i : s.Inv g none none) (x : s.Sane) (root : s.level = 0) :
    Gives e (fun r => r.1.Sane) s.simplifyRoot := by
  refine .bind (.ensure (decide_eq_true root)) fun _ _ => .ite (fun _ => .ok x) fun fine => ?_
  have ok : s.ok = true := by simpa using fine
  refine .step (propagateAll_sane i x) fun ⟨s₁, conflict⟩ propagated x₁ => ?_
  obtain ⟨advance, i₁⟩ := i.propagateAll propagated
  cases conflict with
  | some id => exact .ok (x₁.congr rfl rfl rfl rfl fun c => c)
  | none =>
      refine .ite (fun _ => .ok x₁) fun _ => ?_
      have ok₁ : s₁.ok = true := by
        rw [advance.rest]
        exact ok
      have watchful : s₁.net.Watchful := i₁.watchful paced ok₁ advance.quiet
      exact .step (simplifyNow_sane excused i₁ x₁ (advance.level.trans root) watchful)
        fun _ _ x₂ => .ok x₂

theorem simplify_sane (excused : ∀ f : Fault, f.Excused → e f) (paced : g.paced)
    (i : s.Inv g none none) (x : s.Sane) (root : s.level = 0) :
    Gives e (fun r => r.1.Sane) s.simplify := by
  unfold Solver.simplify
  rw [if_pos root]
  exact simplifyRoot_sane excused paced i x root

end Cdcl.Solver
