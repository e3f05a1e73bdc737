import Cdcl.Proofs.Restart
import Cdcl.Proofs.Success.Learning
import Cdcl.Proofs.Success.Simplifying

/-!
# Searching without a fault

A search may use up the number of steps that it is given.  Otherwise each of its steps
succeeds: a conflict above the root level is learnt from, and a variable that is picked
has no value.

* `withinBudget_sane`, `adjustLearntLimit_sane` — what is computed from counters;
* `step_sane` — one step;
* `roundFrom_sane`, `rounds_sane`, `solve_sane` — the search.
-/

namespace Cdcl

namespace Solver

open Network (Regime)

variable {g : Regime} {e : Fault → Prop} {s s' : Solver}

/-! ## Counters -/

/-- The marks do not go back, so that no level has a negative length. -/
theorem failsOnly_levelSizesFrom {size start : Nat} {marks : List Nat}
    (sorted : (start :: marks).Pairwise (· ≤ ·)) (bounded : ∀ m ∈ start :: marks, m ≤ size) :
    FailsOnly e (Trail.levelSizesFrom size start marks) := by
  induction marks generalizing start with
  | nil => exact .bind (.checkedSub (bounded start List.mem_cons_self)) fun _ _ => .ok _
  | cons m ms ih =>
      obtain ⟨first, later⟩ := List.pairwise_cons.mp sorted
      refine .bind (.checkedSub (first m List.mem_cons_self)) fun _ _ => ?_
      exact .bind (ih later fun k hk => bounded k (List.mem_cons_of_mem start hk)) fun _ _ => .ok _

/-- The estimate of the progress does not fail. -/
theorem failsOnly_progressEstimate (w : s.net.trail.WF) : FailsOnly e s.progressEstimate := by
  have o := w.ordered
  refine .bind (failsOnly_levelSizesFrom ?_ ?_) fun _ _ => .ok _
  · exact List.pairwise_cons.mpr ⟨fun _ _ => Nat.zero_le _, o.sorted⟩
  · intro m inside
    rcases List.mem_cons.mp inside with rfl | inside
    · exact Nat.zero_le _
    · exact o.bounded m inside

/-- A counter is never below where it was at the start of the search. -/
theorem failsOnly_hasReached {cap : Option Nat} {count base : Nat} (low : base ≤ count) :
    FailsOnly e (hasReached cap count base) := by
  cases cap with
  | none => exact .ok _
  | some n => exact .bind (.checkedSub low) fun _ _ => .ok _

/-- Looking at the budget does not fail. -/
theorem withinBudget_sane (core : s.net.Core) (x : s.Sane) :
    Gives e (fun r => r.1.Sane) s.withinBudget where
  failsOnly := by
    obtain ⟨conflicts, propagations, -⟩ := x.counted
    refine .ite (fun _ => .ok _) fun _ => .bind (failsOnly_hasReached conflicts) fun _ _ => ?_
    refine .ite (fun _ => .ok _) fun _ => .bind (failsOnly_hasReached propagations) fun _ _ => ?_
    exact .ite (fun _ => .ok _) fun _ => .ok _
  holds _ h := x.moves core (withinBudget_moves h)

/-- The limit on learnt clauses can be adjusted, and the progress reported. -/
theorem adjustLearntLimit_sane (core : s.net.Core) (x : s.Sane) :
    Gives e Sane s.adjustLearntLimit where
  failsOnly := by
    refine .ite (fun _ => .bind ?_ fun _ _ => .ok _) fun _ => .ok _
    exact .bind (failsOnly_progressEstimate core.trail) fun _ _ => .ok _
  holds _ h := x.moves core (adjustLearntLimit_moves h)

/-! ## One step -/

/-- The step after a conflict, whose analysis asks for a sound regime. -/
theorem stepConflict_sane {id : ClauseId} (excused : ∀ f : Fault, f.Excused → e f)
    (on : g.sound) (free : ∀ k, g.settled k) (i : s.Inv g (some id) none) (x : s.Sane) :
    Gives e (fun r => r.1.Sane) (s.stepConflict id) := by
  have counted : s.countConflict.Inv g (some id) none := ⟨i.net, i.refutes, i.covers, i.refuted⟩
  have x₀ : s.countConflict.Sane :=
    x.congr rfl rfl rfl rfl (countConflict_moves s).counted
  refine .ite (fun _ => .ok x₀) fun high => ?_
  refine .step (learn_sane excused on counted x₀) fun s₁ learnt x₁ => ?_
  have learns := counted.learn (Nat.pos_of_ne_zero high) (fun _ _ _ => free _) learnt
  refine .ite (fun _ => ?_) fun _ => .ok x₁
  exact .step (adjustLearntLimit_sane learns.inv.core x₁) fun _ _ x₂ => .ok x₂

/-- A literal that is picked has no value, so that it can be decided. -/
theorem pickBranch_sane (excused : ∀ f : Fault, f.Excused → e f) (i : s.Inv g none none)
    (x : s.Sane) : Gives e (fun r => r.1.Sane ∧
      ∀ l, r.2 = some l → r.1.litValue l = .ok .unknown) s.pickBranch := by
  have picks : FailsOnly e (s.order.pickBy .standard s.net.trail s.options.randomVarFreq
      s.options.randomPolarity) :=
    Order.failsOnly_pickBy (excused _ trivial) (.inr (excused _ trivial)) x.fitted.order rfl
  refine .bind picks fun ⟨order, choice, random⟩ picked => ?_
  have open_ : ∀ l, choice = some l → s.litValue l = .ok .unknown := by
    rintro l rfl
    exact Trail.litValue_eq_ok.mpr
      ⟨_, (Order.free_pickBy picked).unknown, Truth.flipIf_eq_unknown.mpr rfl⟩
  have moved : s.Moves { s with order } :=
    .of_eq rfl id id rfl rfl fun spans => Order.spans_pickBy spans picked
  have x₁ : { s with order }.Sane := x.moves i.core moved
  exact .ite (fun _ => .ok ⟨x₁.congr rfl rfl rfl rfl fun c => c, open_⟩) fun _ => .ok ⟨x₁, open_⟩

/-- The step that decides, with the reduction that may come before it. -/
theorem stepDecision_sane (excused : ∀ f : Fault, f.Excused → e f) (r : Running g s)
    (x : s.Sane) : Gives e (fun r => r.1.Sane) s.stepDecision := by
  have reduces : Gives e (fun s₁ => s₁.Sane ∧ s₁.Inv g none none) s.reduceAtLimit := by
    refine .ite (fun _ => ?_) fun _ => .ok ⟨x, r.inv⟩
    have sane := reduce_sane excused r.inv x
    exact ⟨sane.failsOnly, fun s₁ reduced => ⟨sane.holds s₁ reduced, (r.inv.reduce reduced).1⟩⟩
  refine .step reduces fun s₁ _ ⟨x₁, i₁⟩ => ?_
  refine .step (pickBranch_sane excused i₁ x₁) fun ⟨s₂, choice⟩ picked ⟨x₂, open_⟩ => ?_
  cases choice with
  | none => exact .ok x₂
  | some l =>
      have i₂ := (i₁.pickBranch picked).1
      exact .step (decide_sane i₂ x₂ (open_ l rfl)) fun s₃ _ x₃ => .ok x₃

/-- Giving a round up goes back to the root level. -/
theorem giveUp_sane (excused : ∀ f : Fault, f.Excused → e f) (r : Running g s) (x : s.Sane) :
    Gives e (fun r => r.1.Sane) s.giveUp := by
  refine .bind (failsOnly_progressEstimate r.inv.core.trail) fun _ _ => ?_
  exact .step (cancelUntil_sane (excused _ trivial) r.inv x) fun _ _ x₁ => .ok x₁

/-- After a quiet propagation the solver may simplify, for which the clauses have to be visited in
time. -/
theorem stepQuiet_sane {spent : Bool} (excused : ∀ f : Fault, f.Excused → e f) (paced : g.paced)
    (r : Running g s) (x : s.Sane) : Gives e (fun r => r.1.Sane) (s.stepQuiet spent) := by
  refine .ite (fun _ => giveUp_sane excused r x) fun _ => ?_
  refine .step (withinBudget_sane r.inv.core x) fun ⟨s₁, within⟩ asked x₁ => ?_
  have r₁ := r.kin (kin_withinBudget asked)
  cases within with
  | false => exact giveUp_sane excused r₁ x₁
  | true =>
      have simplifies : Gives e (fun r => r.1.Sane) s₁.simplifyAtRoot :=
        .ite (fun root => simplifyRoot_sane excused paced r₁.inv x₁ root) fun _ => .ok x₁
      refine .step simplifies fun ⟨s₂, fine⟩ simplified x₂ => ?_
      obtain ⟨i₂, idle, ok, -⟩ := r₁.simplifyAtRoot simplified
      cases fine with
      | false => exact .ok x₂
      | true => exact stepDecision_sane excused ⟨i₂, ok, idle⟩ x₂

/-- One step of a round fails only with an excused fault. -/
theorem step_sane {spent : Bool} (excused : ∀ f : Fault, f.Excused → e f) (on : g.sound)
    (paced : g.paced) (free : ∀ k, g.settled k) (r : Running g s) (x : s.Sane) :
    Gives e (fun r => r.1.Sane) (s.step spent) := by
  refine .step (propagateAll_sane r.inv x) fun ⟨s₁, conflict⟩ propagated x₁ => ?_
  obtain ⟨i, ok, quiet⟩ := r.propagateAll propagated
  cases conflict with
  | some id => exact stepConflict_sane excused on free i x₁
  | none => exact stepQuiet_sane excused paced ⟨i, ok, quiet.2⟩ x₁

/-! ## Rounds -/

/-- By induction over its steps, a round fails only with an excused fault, or for want of steps. -/
theorem roundFrom_sane {limit : Int} {fuel count : Nat} (excused : ∀ f : Fault, f.Excused → e f)
    (spent : e .outOfFuel) (on : g.sound) (paced : g.paced) (free : ∀ k, g.settled k)
    (r : Running g s) (x : s.Sane) :
    Gives e (fun r => r.1.Sane) (roundFrom limit fuel count s) := by
  induction fuel generalizing s count with
  | zero =>
      rw [roundFrom]
      exact .throw spent
  | succ fuel ih =>
      refine .step (step_sane excused on paced free r x) fun ⟨s₁, y⟩ stepping x₁ => ?_
      have stepped := step_stepped r free stepping
      cases y with
      | finished answer => exact .ok x₁
      | conflict => exact ih stepped x₁
      | decision => exact ih stepped x₁

theorem Answered.core {answer : Truth} (a : Answered g s answer) : s.net.Core := by
  cases answer with
  | unknown => exact a.inv.core
  | fails => exact a.1.core
  | holds => exact a.1.inv.core

/-- A round begins with clauses that are not known to be unsatisfiable. -/
theorem round_sane {fuel : Nat} {limit : Int} (excused : ∀ f : Fault, f.Excused → e f)
    (spent : e .outOfFuel) (on : g.sound) (paced : g.paced) (free : ∀ k, g.settled k)
    (r : Running g s) (x : s.Sane) :
    Gives e (fun r => r.1.Sane) (s.round fuel limit) := by
  refine .bind (.ensure r.ok) fun _ _ => ?_
  exact roundFrom_sane excused spent on paced free r.countRound (x.congr rfl rfl rfl rfl fun c => c)

/-- By induction over the rounds; the factor of each is that of the restarts, which may leave its
width. -/
theorem rounds_sane {fuel more n : Nat} (excused : ∀ f : Fault, f.Excused → e f)
    (spent : e .outOfFuel) (on : g.sound) (paced : g.paced) (free : ∀ k, g.settled k)
    (r : Running g s) (x : s.Sane) : Gives e (fun r => r.1.Sane) (rounds fuel more n s) := by
  induction more generalizing s n with
  | zero =>
      rw [rounds]
      exact .throw spent
  | succ more ih =>
      refine .bind (Restart.failsOnly_interval (excused _ trivial)) fun factor _ => ?_
      refine .step (round_sane excused spent on paced free r x) fun ⟨s₁, y⟩ ran x₁ => ?_
      have a₁ := round_answered r free ran
      refine .step (withinBudget_sane a₁.core x₁) fun ⟨s₂, within⟩ asked x₂ => ?_
      have a₂ := a₁.kin (kin_withinBudget asked) (order_withinBudget asked)
      refine .ite (fun _ => .ok x₂) fun again => ?_
      simp only [Bool.or_eq_true, Bool.not_eq_true', decide_eq_true_eq, not_or,
        Bool.not_eq_false, ne_eq, not_not] at again
      obtain ⟨-, rfl⟩ := again
      have k₃ : s₂.Kin ((s₂.log (.searchRestart n)).report .restart) :=
        (kin_log rfl _).trans (kin_report _ _)
      have m₃ : s₂.Moves ((s₂.log (.searchRestart n)).report .restart) :=
        (log_moves _ _).trans (report_moves _ _)
      exact ih (Running.kin a₂ k₃) (x₂.moves a₂.core m₃)

/-! ## The whole search -/

/-- Whatever the answer, a search can be ended. -/
theorem conclude_sane {answer : Truth} (excused : ∀ f : Fault, f.Excused → e f)
    (a : Answered g s answer) (x : s.Sane) : Gives e Sane (s.conclude answer) := by
  have x₀ : (s.report (.result answer)).Sane := x.moves a.core (report_moves s _)
  have ends : ∀ {s₁ : Solver}, s₁.Inv g none none → s₁.Sane →
      Gives e Sane (do
        let s ← s₁.cancelUntil 0
        return { s with interrupted := false }.log (.searchResult answer)) := by
    intro s₁ i₁ x₁
    refine .step (cancelUntil_sane (excused _ trivial) i₁ x₁) fun s₂ cancelled x₂ => .ok ?_
    have core₂ := (cancelUntil_moves i₁.core.trail i₁.covers cancelled).core i₁.core
    have x₃ : { s₂ with interrupted := false }.Sane := x₂.congr rfl rfl rfl rfl fun c => c
    exact x₃.moves core₂ (log_moves _ (.searchResult answer))
  cases answer with
  | unknown => exact ends ((kin_report _ s).inv a.inv) x₀
  | fails =>
      have told : { s with ok := false }.Kin { s.report (.result .fails) with ok := false } :=
        ⟨Network.alike_report _ _, fun c => c, rfl, rfl⟩
      exact ends (told.inv a.1) (x₀.congr rfl rfl rfl rfl fun c => c)
  | holds =>
      have told : s.Kin { s.report (.result .holds) with
          model := (s.report (.result .holds)).assignment } :=
        ⟨Network.alike_report _ _, fun c => c, rfl, rfl⟩
      exact ends (told.inv a.1.inv) (x₀.congr rfl rfl rfl rfl fun c => c)

/-- A search fails only with an excused fault, or for want of steps. -/
theorem solve_sane {fuel : Nat} (excused : ∀ f : Fault, f.Excused → e f) (spent : e .outOfFuel)
    (on : g.sound) (paced : g.paced) (free : ∀ k, g.settled k) (r : Ready g s) (x : s.Sane) :
    Gives e (fun r => r.1.Sane) (s.solve fuel) := by
  have i := r.inv
  have i₀ : { s with model := #[] }.Inv g s.pending none := ⟨i.net, i.refutes, i.covers, i.refuted⟩
  have x₀ : { s with model := #[] }.Sane := x.congr rfl rfl rfl rfl fun c => c
  refine .ite (fun _ => .ok x₀) fun fine => ?_
  have ok : s.ok = true := by simpa using fine
  refine .step (cancelUntil_sane (excused _ trivial) i₀ x₀) fun s₁ cancelled x₁ => ?_
  have moved := (cleared_moves s).trans (cancelUntil_moves i.core.trail i.covers cancelled)
  have x₂ : s₁.started.Sane := x₁.moves (moved.core i.core) (started_moves s₁)
  have running := i.start r.idle (fun _ _ => free 0) ok cancelled
  have sane : Gives e (fun r => r.1.Sane) (rounds fuel fuel 0 s₁.started) :=
    rounds_sane (g := { g with settled := fun _ => True }) excused spent on paced
      (fun _ => trivial) running x₂
  refine .bind sane.failsOnly fun ⟨s₃, answer⟩ searched => ?_
  have a₃ := rounds_answered running (fun _ => trivial) searched
  exact .step (conclude_sane excused a₃ (sane.holds _ searched)) fun _ _ x₄ => .ok x₄

end Solver

end Cdcl
