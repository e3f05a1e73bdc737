import Cdcl.Proofs.Rehearsing
import Cdcl.Proofs.Success.Intake
import Cdcl.Proofs.Success.Search

/-!
# Calls that succeed

A client that keeps to the rules for calls, `Careful`, never meets a broken condition of the
solver.

* `perform_sane` — one call;
* `Reaches.careful` — a run of careful calls;
* `careful_calls_succeed` — a call may fail for reasons that lie outside of the solver
  only, and the state is `Readable`: what a client may look up can be looked up.
-/

namespace Cdcl.Solver

open Network (Regime)

variable {g : Regime} {e : Fault → Prop} {s s' : Solver} {v : Var} {c : Call} {fuel : Nat}
  {options : Options} {calls : List Call}

/-- The rules for calls: literals and variables are those of the solver, a literal that is
decided has no value, levels are begun in quiet, and clauses are added and simplified at the
root level. -/
def Careful (s : Solver) : Call → Prop
  | .addClause lits => s.level = 0 ∧ ∀ l ∈ lits, l.var.index < s.numVars
  | .load _ _ => s.level = 0
  | .simplify => s.level = 0
  | .decide l => s.Quiet ∧ s.litValue l = .ok .unknown
  | .pushLevel => s.Quiet
  | .setReliable v _ => v.index < s.numVars
  | .setDecision v _ => v.index < s.numVars
  | .setObserved v _ => v.index < s.numVars
  | _ => True

instance (s : Solver) : (c : Call) → Decidable (s.Careful c)
  | .addClause lits =>
      inferInstanceAs (Decidable (s.level = 0 ∧ ∀ l ∈ lits, l.var.index < s.numVars))
  | .load _ _ | .simplify => inferInstanceAs (Decidable (s.level = 0))
  | .decide l => inferInstanceAs (Decidable (s.Quiet ∧ s.litValue l = .ok .unknown))
  | .pushLevel => inferInstanceAs (Decidable s.Quiet)
  | .setReliable v _ | .setDecision v _ | .setObserved v _ =>
      inferInstanceAs (Decidable (v.index < s.numVars))
  | .newVar _ | .varOfIndex _ | .solve | .propagate | .resolveConflict | .cancelUntil _
  | .setBudget _ | .setInterrupt _ | .setStop _ => .isTrue trivial

/-! ## Settings -/

/-- Whether an existing variable is reliable can be changed. -/
theorem setReliable_sane {b : Bool} (i : s.Inv g s.pending none) (x : s.Sane)
    (low : v.index < s.numVars) : Gives e Sane (s.setReliable v b) where
  failsOnly := by
    have covered : v.index < s.info.size := Nat.lt_of_lt_of_eq low x.fitted.info.symm
    refine .bind (DenseMap.failsOnly_get covered) fun _ _ => ?_
    exact .bind (DenseMap.failsOnly_set covered) fun _ _ => .ok _
  holds _ h := x.moves i.core (setReliable_moves h)

theorem setDecision_sane {b : Bool} (nan : e .incomparableActivities)
    (i : s.Inv g s.pending none) (x : s.Sane) (low : v.index < s.numVars) :
    Gives e Sane (s.setDecision v b) where
  failsOnly := failsOnly_updateOrder (Order.failsOnly_setEligible nan x.fitted.order low)
  holds _ h := x.moves i.core (setDecision_moves h)

theorem setObserved_sane {b : Bool} (i : s.Inv g s.pending none) (x : s.Sane)
    (low : v.index < s.numVars) : Gives e Sane (s.setObserved v b) where
  failsOnly := by
    have covered : v.index < s.net.observed.size := Nat.lt_of_lt_of_eq low x.fitted.observed.symm
    exact .bind (DenseMap.failsOnly_set covered) fun _ _ => .ok _
  holds _ h := x.moves i.core (setObserved_moves h)

/-! ## Calls and runs -/

/-- A careful call fails only with an excused fault, or for want of steps if it searches. -/
theorem perform_sane (excused : ∀ f : Fault, f.Excused → e f)
    (spent : c = .solve → e .outOfFuel) (on : g.sound) (paced : g.paced)
    (free : ∀ k, g.settled k) (r : Ready g s) (x : s.Sane) (careful : s.Careful c) :
    Gives e (fun r => r.1.Sane) (s.perform fuel c) := by
  have i := r.inv
  cases c with
  | newVar spec => exact .step (newVar_sane excused r x) fun _ _ x₁ => .ok x₁
  | varOfIndex j => exact .step (varOfIndex_sane excused r x) fun _ _ x₁ => .ok x₁
  | addClause lits =>
      obtain ⟨root, known⟩ := careful
      exact .step (addClause_sane excused r x root known) fun _ _ x₁ => .ok x₁
  | load strict bs => exact .step (load_sane excused r x careful) fun _ _ x₁ => .ok x₁
  | solve => exact .step (solve_sane excused (spent rfl) on paced free r x) fun _ _ x₁ => .ok x₁
  | simplify =>
      have idle := r.idle careful
      exact .step (simplify_sane excused paced (idle ▸ i) x careful) fun _ _ x₁ => .ok x₁
  | propagate => exact .step (propagate_sane i x) fun _ _ x₁ => .ok x₁
  | resolveConflict => exact .step (resolveConflict_sane excused on r x) fun _ _ x₁ => .ok x₁
  | decide l => exact .step (decide_sane i x careful.2) fun _ _ x₁ => .ok x₁
  | pushLevel => exact .ok (pushLevel_sane i x)
  | cancelUntil k => exact .step (cancelUntil_sane (excused _ trivial) i x) fun _ _ x₁ => .ok x₁
  | setReliable v b => exact .step (setReliable_sane i x careful) fun _ _ x₁ => .ok x₁
  | setDecision v b =>
      exact .step (setDecision_sane (excused _ trivial) i x careful) fun _ _ x₁ => .ok x₁
  | setObserved v b => exact .step (setObserved_sane i x careful) fun _ _ x₁ => .ok x₁
  | setBudget b => exact .ok (x.congr rfl rfl rfl rfl fun c => c)
  | setInterrupt b => exact .ok (x.congr rfl rfl rfl rfl fun c => c)
  | setStop answer => exact .ok (x.congr rfl rfl rfl rfl fun c => c)

/-- Careful calls add clauses at the root level only, so that nothing is implied wrongly. -/
theorem Careful.suits {s' : Solver} (careful : s.Careful c) :
    Suits (regimeOf calls True True fun _ => True) s c s' where
  adding d same _ _ high := by
    subst same
    exact absurd careful.1 (Nat.ne_of_gt high)
  loading strict bs same := by
    subst same
    exact .inl careful
  landing _ _ := trivial

/-- A careful client begins levels in quiet. -/
theorem Careful.quiet (careful : s.Careful c) (begins : c.begins = true) : s.Quiet := by
  cases c with
  | decide l => exact careful.1
  | pushLevel => exact careful
  | _ => cases begins

/-- What careful calls keep. -/
theorem Reaches.careful (run : Reaches options Careful calls s) :
    Ready (regimeOf calls True True fun _ => True) s ∧ s.Sane := by
  refine ⟨?_, run.sane⟩
  induction run with
  | fresh created => exact ready_create created rfl
  | @call calls s s' c fuel reply _ careful performed before =>
      exact (before.call (fun _ _ left => left) (fun _ begins _ => careful.quiet begins)
        careful.suits performed).1

/-- What a client can look up in a state: values and descriptions, the root level, which
ends on the trail, and the statistics, which subtract the literals that were kept. -/
structure Readable (s : Solver) : Prop where
  vars : ∀ v : Var, v.index < s.numVars →
    (∃ x, s.value v = .ok x) ∧ (∃ i, s.infoOf v = .ok i) ∧ ∃ b, s.isReliable v = .ok b
  lits : ∀ l : Lit, l.var.index < s.numVars →
    (∃ x, s.litValue l = .ok x) ∧ ∃ x, s.rootValue l = .ok x
  root : ∀ m, s.net.trail.marks[0]? = some m → m ≤ s.net.trail.size
  literals : s.stats.keptLiterals ≤ s.stats.rawLiterals

/-- Everything that a client looks up is in range. -/
theorem Sane.readable (x : s.Sane) (w : s.net.trail.WF) : s.Readable where
  vars _ low := ⟨DenseMap.exists_get.mpr low,
    DenseMap.exists_get.mpr (Nat.lt_of_lt_of_eq low x.fitted.info.symm),
    (failsOnly_isReliable x.fitted low).exists_ok⟩
  lits _ low := ⟨(Trail.failsOnly_litValue low).exists_ok, (failsOnly_rootValue w low).exists_ok⟩
  root m first := w.ordered.bounded m (Array.mem_toList_iff.mpr (Array.mem_of_getElem? first))
  literals := x.counted.2.2

/-- No call of a careful client breaks a condition of the solver.  What may fail is what
lies outside of the solver: an activity that is not a number, a place drawn at random, a
size beyond its width, and a search that is not given enough steps. -/
theorem careful_calls_succeed (valid : options.valid = true) :
    (∀ listening threshold outside, ∃ s,
      create options listening threshold outside = .ok s) ∧
      ∀ {calls s}, Reaches options Careful calls s →
        (∀ {c fuel}, s.Careful c → ∀ {f}, s.perform fuel c = .error f →
          f.Excused ∨ (c = .solve ∧ f = .outOfFuel)) ∧
        s.Readable := by
  refine ⟨fun listening threshold outside => ⟨_, if_pos valid⟩, fun {calls s} run => ?_⟩
  obtain ⟨r, x⟩ := run.careful
  refine ⟨fun {c fuel} careful {f} failed => ?_, x.readable r.inv.core.trail⟩
  have sane : Gives (fun f => f.Excused ∨ (c = .solve ∧ f = .outOfFuel))
      (fun r => r.1.Sane) (s.perform fuel c) :=
    perform_sane (fun _ yes => .inl yes) (fun same => .inr ⟨same, rfl⟩) trivial trivial
      (fun _ => trivial) r x careful
  exact sane.failsOnly f failed

/-- Three clauses that cannot be satisfied together with the literal that is decided. -/
def clash : List Call :=
  [.newVar {}, .newVar {}, .newVar {}, .addClause [⟨⟨0⟩, false⟩, ⟨⟨1⟩, true⟩],
    .addClause [⟨⟨1⟩, false⟩, ⟨⟨2⟩, true⟩], .addClause [⟨⟨1⟩, false⟩, ⟨⟨2⟩, false⟩],
    .decide ⟨⟨0⟩, true⟩, .propagate]

/-- A clash above the root level can be resolved, and the values can be read. -/
theorem clash_resolvable : ({} : Options).valid = true ∧ ∃ s, Reaches {} Careful clash s ∧
    s.level = 1 ∧ s.pending.isSome = true ∧
      (∀ {fuel f}, s.perform fuel .resolveConflict = .error f → f.Excused) ∧
      ∃ x, s.litValue ⟨⟨2⟩, true⟩ = .ok x := by
  have valid : ({} : Options).valid = true := by decide +kernel
  have found : ∃ s ∈ (create {} false none).toOption, ∃ s' ∈ s.playAll Careful clash,
      s'.numVars = 3 ∧ s'.level = 1 ∧ s'.pending.isSome = true := by
    decide +kernel
  obtain ⟨s, run, size, level, pending⟩ := exists_played found
  obtain ⟨-, safe⟩ := careful_calls_succeed valid
  obtain ⟨performs, reads⟩ := safe run
  have low : (⟨⟨2⟩, true⟩ : Lit).var.index < s.numVars := size ▸ by decide
  refine ⟨valid, s, run, level, pending, fun failed => ?_, (reads.lits _ low).1⟩
  rcases performs (c := .resolveConflict) trivial failed with excused | ⟨same, -⟩
  · exact excused
  · cases same

end Cdcl.Solver
