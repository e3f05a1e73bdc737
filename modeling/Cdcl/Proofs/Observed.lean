import Cdcl.Proofs.Drifting
import Cdcl.Solver.Reduction
import Cdcl.Solver.Simplification

/-!
# Which variables are observed

No operation on clauses and assignments changes which variables are observed.  Propagation
reports no event either, it is `Silent`.
-/

namespace Cdcl.Network

variable {n n' n'' : Network} {p : Lit} {id : ClauseId}

/-- The same variables are observed, and no event has been reported. -/
structure Silent (n n' : Network) : Prop where
  observed : n'.observed = n.observed
  events : n'.journal.events = n.journal.events

namespace Silent

theorem refl (n : Network) : n.Silent n := ⟨rfl, rfl⟩

theorem trans (a : n.Silent n') (b : n'.Silent n'') : n.Silent n'' :=
  ⟨b.observed.trans a.observed, b.events.trans a.events⟩

end Silent

theorem silent_enqueue {r : Reason} (h : n.enqueue p r = .ok n') : n.Silent n' := by
  obtain ⟨_, -, h⟩ := bind_eq_ok.mp h
  obtain ⟨_, -, h⟩ := bind_eq_ok.mp h
  split at h <;> cases h <;> exact ⟨rfl, rfl⟩

theorem silent_watch {w : Watcher} (h : n.watch p w = .ok n') : n.Silent n' := by
  obtain ⟨_, -, h⟩ := bind_eq_ok.mp h
  cases h
  exact ⟨rfl, rfl⟩

theorem observed_unwatch (h : n.unwatch p id = .ok n') : n'.observed = n.observed := by
  obtain ⟨_, _, _, -, -, -, rfl⟩ := unwatch_eq_ok h
  rfl

theorem observed_retally {learnt : Bool} {f : Tally → Except Fault Tally}
    (h : n.retally learnt f = .ok n') : n'.observed = n.observed := by
  unfold retally at h
  split at h
  all_goals
    obtain ⟨_, -, h⟩ := bind_eq_ok.mp h
    cases h
    rfl

theorem observed_attach (h : n.attach id = .ok n') : n'.observed = n.observed := by
  obtain ⟨_, -, h⟩ := bind_eq_ok.mp h
  obtain ⟨n₁, first, h⟩ := bind_eq_ok.mp h
  obtain ⟨n₂, second, h⟩ := bind_eq_ok.mp h
  have both := (silent_watch first).trans (silent_watch second)
  exact (observed_retally h).trans both.observed

/-- Storing a clause leaves the observed variables as they are. -/
theorem observed_addClause {lits : List Lit} {learnt : Bool}
    (h : n.addClause lits learnt = .ok (n', id)) : n'.observed = n.observed := by
  obtain ⟨_, -, h⟩ := bind_eq_ok.mp h
  obtain ⟨⟨_, _⟩, -, h⟩ := bind_eq_ok.mp h
  obtain ⟨n₁, attached, h⟩ := bind_eq_ok.mp h
  cases h
  have same := observed_attach attached
  exact same

theorem observed_removeClause (h : n.removeClause id = .ok n') : n'.observed = n.observed := by
  obtain ⟨n₁, _, n₂, _, detached, -, released, -, rfl⟩ := removeClause_eq_ok h
  have first : n₁.observed = n.observed := by
    obtain ⟨_, -, h⟩ := bind_eq_ok.mp detached
    obtain ⟨n₃, first, h⟩ := bind_eq_ok.mp h
    obtain ⟨n₄, second, h⟩ := bind_eq_ok.mp h
    exact ((observed_retally h).trans (observed_unwatch second)).trans (observed_unwatch first)
  refine Eq.trans ?_ first
  obtain ⟨_, -, h⟩ := bind_eq_ok.mp released
  obtain ⟨_, -, h⟩ := bind_eq_ok.mp h
  split at h
  · obtain ⟨_, -, h⟩ := bind_eq_ok.mp h
    cases h
    rfl
  · cases h
    rfl

theorem observed_bumpClause (h : n.bumpClause id = .ok n') : n'.observed = n.observed := by
  obtain ⟨_, -, h⟩ := bind_eq_ok.mp h
  obtain ⟨_, -, h⟩ := bind_eq_ok.mp h
  obtain ⟨_, -, h⟩ := bind_eq_ok.mp h
  split at h
  · obtain ⟨_, -, h⟩ := bind_eq_ok.mp h
    cases h
    rfl
  · cases h
    rfl

/-! ## Propagation -/

/-- No part of a propagation reports an event. -/
theorem Drift.silent (d : n.Drift n') : n.Silent n' := by
  cases d with
  | relist => exact ⟨rfl, rfl⟩
  | enqueue assigned => exact silent_enqueue assigned
  | head _ => exact ⟨rfl, rfl⟩

/-- A propagation reports no event. -/
theorem Drifts.silent (d : n.Drifts n') : n.Silent n' := by
  induction d with
  | refl => exact .refl n
  | tail _ step ih => exact ih.trans step.silent

/-! ## Upkeep -/

theorem observed_trimClause (h : n.trimClause id = .ok n') : n'.observed = n.observed := by
  obtain ⟨_, _, _, -, -, -, h⟩ := trimClause_eq_ok h
  have same := observed_retally h
  exact same

theorem observed_sweep {kept kept' : Array ClauseId} {ids : List ClauseId}
    (h : n.sweep kept ids = .ok (n', kept')) : n'.observed = n.observed := by
  induction ids generalizing n kept with
  | nil =>
      cases h
      rfl
  | cons id ids ih =>
      obtain ⟨_, -, h⟩ := bind_eq_ok.mp h
      obtain ⟨_, -, h⟩ := bind_eq_ok.mp h
      split at h
      · obtain ⟨n₁, removed, h⟩ := bind_eq_ok.mp h
        have first := observed_removeClause removed
        exact (ih h).trans first
      · obtain ⟨n₁, trimmed, h⟩ := bind_eq_ok.mp h
        exact (ih h).trans (observed_trimClause trimmed)

/-- Simplification leaves the observed variables as they are. -/
theorem observed_sweepAll {both : Bool} (h : n.sweepAll both = .ok n') :
    n'.observed = n.observed := by
  obtain ⟨n₁, first, h⟩ := bind_eq_ok.mp h
  obtain ⟨⟨n₂, _⟩, swept, first⟩ := bind_eq_ok.mp first
  cases first
  have half := observed_sweep swept
  split at h
  · obtain ⟨⟨n₃, _⟩, swept', h⟩ := bind_eq_ok.mp h
    cases h
    exact (observed_sweep swept').trans half
  · cases h
    exact half

theorem observed_prune {half i : Nat} {bound : Float} {kept kept' : Array ClauseId}
    {cs : List Candidate} (h : n.prune half bound kept i cs = .ok (n', kept')) :
    n'.observed = n.observed := by
  induction cs generalizing n kept i with
  | nil =>
      cases h
      rfl
  | cons c cs ih =>
      obtain ⟨_, -, h⟩ := bind_eq_ok.mp h
      simp only at h
      split at h
      · obtain ⟨n₁, removed, h⟩ := bind_eq_ok.mp h
        exact (ih h).trans (observed_removeClause removed)
      · exact ih h

/-- So does giving learnt clauses up. -/
theorem observed_reduceLearnts {sort : List Candidate → List Candidate}
    (h : n.reduceLearnts sort = .ok n') : n'.observed = n.observed := by
  obtain ⟨_, -, h⟩ := bind_eq_ok.mp h
  obtain ⟨⟨n₁, _⟩, pruned, h⟩ := bind_eq_ok.mp h
  obtain ⟨_, -, h⟩ := bind_eq_ok.mp h
  obtain ⟨_, -, h⟩ := bind_eq_ok.mp h
  cases h
  have same := observed_prune pruned
  exact same

theorem observed_collect (h : n.collect = .ok n') : n'.observed = n.observed := by
  obtain ⟨_, -, h⟩ := bind_eq_ok.mp h
  obtain ⟨_, -, h⟩ := bind_eq_ok.mp h
  obtain ⟨⟨_, _⟩, -, h⟩ := bind_eq_ok.mp h
  obtain ⟨_, -, h⟩ := bind_eq_ok.mp h
  simp only at h
  split at h
  · cases h
    rfl
  · cases h

end Cdcl.Network
