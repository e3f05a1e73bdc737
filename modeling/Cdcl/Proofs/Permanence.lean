import Cdcl.Proofs.Rehearsing
import Cdcl.Proofs.Success.Intake

/-!
# Facts of the root level are permanent

What has been proved at the root level is never taken back: whatever is called, more facts are
only added behind those that are there.  The values say the same as the list, although the level
recorded for a variable stays behind when it loses its value.

* `Trail.WF.rootValue_eq` — the value at the root level, read off the list of facts;
* `Step.root`, `Chain.root` — every step of a network keeps the list, and so does a chain;
* `Onward` — calls that go on from a state, and `Onward.proved` — what they do to the list;
* `Reaches.facts_permanent` — the theorem about runs.
-/

namespace Cdcl

/-! ## The facts of a trail -/

namespace Trail

variable {t t' : Trail} {l p : Lit} {r : Reason}

/-- A literal made true at the root level comes last, and one of another level is no fact. -/
theorem root_push (w : t.WF) (h : t.push p r = .ok t') : t.root <+: t'.root := by
  rw [root_eq, root_eq]
  rcases Nat.eq_zero_or_pos t.level with root | above
  · have low : t.level ≤ 0 := Nat.le_of_eq root
    have low' : t'.level ≤ 0 := Nat.le_of_eq ((level_push h).trans root)
    rw [upTo_of_le low, upTo_of_le low', lits_push h, Array.toList_push]
    exact List.prefix_append _ _
  · rw [upTo_push w h above]

/-- The literals true at the root level are the facts. -/
theorem WF.mem_root_iff (w : t.WF) : t.rootValue l = .ok .holds ↔ l ∈ t.root := by
  rw [root_eq]
  exact Solver.rootValue_holds_iff w

/-- The value at the root level is what the list of facts says, whatever levels are recorded for
variables that have no value. -/
theorem WF.rootValue_eq (w : t.WF) (low : l.var.index < t.numVars) :
    t.rootValue l =
      .ok (if l ∈ t.root then .holds else if -l ∈ t.root then .fails else .unknown) := by
  obtain ⟨x, read⟩ := (Solver.failsOnly_rootValue w low).exists_ok
  have true_ := w.mem_root_iff (l := l)
  have false_ : t.rootValue l = .ok .fails ↔ -l ∈ t.root := by
    rw [root_eq]
    exact Solver.rootValue_fails_iff w
  rw [read] at true_ false_ ⊢
  cases x <;> simp_all

end Trail

/-! ## Steps of a network -/

/-- No step takes a fact back. -/
theorem View.Step.root {v v' : View} (h : v.Step v') (core : v.net.Core) :
    v.net.trail.root <+: v'.net.trail.root := by
  have same : ∀ {t t' : Trail}, t'.upTo 0 = t.upTo 0 → t.root <+: t'.root := by
    intro t t' e
    rw [Trail.root_eq, Trail.root_eq, e]
  cases h with
  | steady s =>
      apply same
      unfold Trail.upTo Trail.cut
      rw [s.marks, s.lits]
  | reorder => exact List.prefix_rfl
  | turn t => rw [t.trail]
  | move r => rw [r.trail]
  | imply _ e => exact Trail.root_push core.trail e.trail
  | lead _ e => exact Trail.root_push core.trail e.trail
  | openLevel => exact same (Trail.upTo_openLevel _ 0)
  | back b => exact same (b.root core.trail)
  | store s => rw [s.trail]
  | drop d => exact same (d.trail.upTo 0)
  | trim t => rw [t.trail]
  | compact c => exact same (c.trail.upTo 0)
  | addVar => exact same (Trail.upTo_addVar _ _ 0)

/-- The facts only grow along a chain. -/
theorem View.Chain.root {v v' : View} (h : v.Chain v') (core : v.net.Core) :
    v.net.trail.root <+: v'.net.trail.root := by
  induction h with
  | refl => exact List.prefix_rfl
  | tail before step ih => exact ih.trans (step.root (View.Chain.core before core))

/-! ## Runs that go on -/

namespace Solver

/-- The calls lead from the one state to the other without a fault.  Every search may take as many
steps as it needs. -/
inductive Onward (s : Solver) : List Call → Solver → Prop
  | refl : Onward s [] s
  | call {calls : List Call} {s₁ s' : Solver} {c : Call} {fuel : Nat} {reply : Reply} :
      Onward s calls s₁ → s₁.perform fuel c = .ok (s', reply) → Onward s (calls ++ [c]) s'

variable {options : Options} {allowed : Solver → Call → Prop} {calls more cs : List Call}
  {s s₁ s' : Solver}

/-- A run that goes on is a run. -/
theorem Reaches.onward (run : Reaches options allowed calls s) (later : s.Onward more s') :
    Reaches options (fun _ _ => True) (calls ++ more) s' := by
  induction later with
  | refl =>
      rw [List.append_nil]
      exact run.mono fun _ => trivial
  | call _ performed before =>
      rw [← List.append_assoc]
      exact before.call trivial performed

theorem Onward.playAll (later : s.Onward more s₁)
    (played : s₁.playAll (fun _ _ => True) cs = some s') : s.Onward (more ++ cs) s' := by
  induction cs generalizing more s₁ with
  | nil =>
      cases played
      rwa [List.append_nil]
  | cons c cs ih =>
      unfold Solver.playAll at played
      rw [if_pos trivial] at played
      split at played
      next s₂ reply performed =>
        have longer := ih (later.call (play_eq.symm.trans performed)) played
        rwa [List.append_assoc] at longer
      next => cases played

/-- The facts of a run are the first facts of every run that goes on from it. -/
theorem Onward.proved (run : Reaches options allowed calls s) (later : s.Onward more s') :
    s.proved <+: s'.proved := by
  induction later with
  | refl => exact List.prefix_rfl
  | call before performed ih =>
      have ready := (run.onward before).standing
      exact ih.trans (View.Chain.root (moves_of_standing ready performed).chain ready.inv.core)

/-- Whatever is called, and at whatever levels, a fact of the root level stays one: the list of
facts only grows at its end, and the facts stay true.  A literal that is not on the list has no
value at the root level, unless its negation is on the list. -/
theorem Reaches.facts_permanent (run : Reaches options allowed calls s)
    (later : s.Onward more s') :
    s.proved <+: s'.proved ∧
      (∀ l ∈ s.proved, s'.litValue l = .ok .holds ∧ s'.rootValue l = .ok .holds) ∧
      ∀ l, l.var.index < s'.numVars → l ∉ s'.proved →
        s'.rootValue l = .ok (if -l ∈ s'.proved then .fails else .unknown) := by
  have grows := later.proved run
  have w : s'.net.trail.WF := (run.onward later).standing.inv.net.wf.trail
  refine ⟨grows, fun l fact => ?_, fun l known other => ?_⟩
  · have fact' : l ∈ s'.net.trail.root := grows.subset fact
    refine ⟨w.holds_iff.mpr ?_, w.mem_root_iff.mpr fact'⟩
    rw [Trail.root_eq] at fact'
    exact Trail.mem_of_mem_upTo fact'
  · exact (w.rootValue_eq known).trans (congrArg Except.ok (if_neg other))

/-- A fact, and two clauses that a decision makes clash. -/
def clashAboveFact : List Call :=
  [.newVar {}, .newVar {}, .newVar {}, .addClause [⟨⟨2⟩, true⟩],
    .addClause [⟨⟨0⟩, false⟩, ⟨⟨1⟩, true⟩], .addClause [⟨⟨0⟩, false⟩, ⟨⟨1⟩, false⟩]]

/-- The decision is refuted, and a level is begun. -/
def decisionRefuted : List Call :=
  [.decide ⟨⟨0⟩, true⟩, .propagate, .resolveConflict, .pushLevel]

/-- The variable that was assigned above the root level has lost its value. -/
theorem refuted_decision_lasting : ∃ s s', Reaches {} (fun _ _ => True) clashAboveFact s ∧
    s.Onward decisionRefuted s' ∧ s.proved = [⟨⟨2⟩, true⟩] ∧
    s'.proved = [⟨⟨2⟩, true⟩, ⟨⟨0⟩, false⟩] ∧ s'.rootValue ⟨⟨2⟩, true⟩ = .ok .holds ∧
    s'.rootValue ⟨⟨1⟩, true⟩ = .ok .unknown := by
  have found : ∃ s ∈ (create {} false none).toOption,
      ∃ s₁ ∈ s.playAll (fun _ _ => True) clashAboveFact,
        ∃ s' ∈ s₁.playAll (fun _ _ => True) decisionRefuted, s₁.proved = [⟨⟨2⟩, true⟩] ∧
          s'.proved = [⟨⟨2⟩, true⟩, ⟨⟨0⟩, false⟩] ∧ s'.numVars = 3 := by
    decide +kernel
  obtain ⟨s, run, s', played, before, after, vars⟩ := exists_played found
  have later : s.Onward decisionRefuted s' := Onward.refl.playAll played
  obtain ⟨-, kept, others⟩ := run.facts_permanent later
  refine ⟨s, s', run, later, before, after, (kept _ (by simp [before])).2, ?_⟩
  rw [others _ (by simp [vars]) (by simp [after]), after]
  rfl

end Solver

end Cdcl
