import Cdcl.Proofs.Rounds

/-!
# What a search leaves behind

A search can end in many ways: with a model, with a conflict at the root level, with a
simplification that fails, with nothing learnt from a conflict, or with its budget used up.
All of them come to `conclude`, which goes back to the root level and takes the interrupt
flag down.  Only a solver that is known to be contradictory is refused before that.

* `Strides.model`, `roundFrom_model`, `Begins.model` — the steps of a search touch no model,
  and so there is none until it ends;
* `conclude_eq_ok` — what the end of a search does to the verdict, the model and the flag;
* `Finishes.leaves` — the state in which a search ends that was not refused;
* `Reaches.solve_leaves` — the state in which any search ends, whatever was called before.
-/

namespace Cdcl.Solver

open Network (Regime)

variable {g : Regime} {s s' s₁ : Solver} {limit : Int} {count fuel n : Nat} {answer : Truth}
  {options : Options} {allowed : Solver → Call → Prop} {calls : List Call}

/-- Nothing goes on: the solver is at the root level, no conflict is pending, and nobody has
asked to interrupt. -/
structure AtRest (s : Solver) : Prop where
  root : s.level = 0
  idle : s.pending = none
  uninterrupted : s.interrupted = false

instance (s : Solver) : Decidable s.AtRest :=
  decidable_of_iff (s.level = 0 ∧ s.pending = none ∧ s.interrupted = false)
    ⟨fun ⟨root, idle, flag⟩ => ⟨root, idle, flag⟩, fun r => ⟨r.root, r.idle, r.uninterrupted⟩⟩

/-! ## The model during a search -/

/-- A step of a round writes no model. -/
theorem Strides.model {spent : Bool} {x : Step} (h : s.Strides spent s' x) :
    s'.model = s.model := by
  cases h with
  | conflict _ counted _ => exact counted.model
  | decision _ _ paces _ _ => exact paces.model
  | refuted _ counted => exact counted.model
  | settled gains _ => exact gains.model
  | gaveUp paces _ => exact paces.model

/-- A model is written at the end of a search, and not in a round. -/
theorem roundFrom_model (r : Running g s) (free : ∀ k, g.settled k)
    (h : roundFrom limit fuel count s = .ok (s', answer)) : s'.model = s.model := by
  induction fuel generalizing s count with
  | zero => cases h
  | succ fuel ih =>
      obtain ⟨⟨s₁, x⟩, stepping, h⟩ := bind_eq_ok.mp h
      have first := (step_strides r free stepping).model
      have stepped := step_stepped r free stepping
      cases x with
      | finished answer' =>
          cases h
          exact first
      | conflict => exact (ih stepped h).trans first
      | decision => exact (ih stepped h).trans first

theorem round_model (r : Running g s) (free : ∀ k, g.settled k)
    (h : s.round fuel limit = .ok (s', answer)) : s'.model = s.model := by
  obtain ⟨_, -, h⟩ := bind_eq_ok.mp h
  exact roundFrom_model (s := s.countRound) r.countRound free h

/-- A search only begins if the solver is not known to be contradictory. -/
theorem Begins.ok (b : s.Begins n s₁) : s.ok = true := by
  induction b with
  | first ok _ => exact ok
  | again _ _ _ _ ih => exact ih

/-- There is no model between the rounds of a search. -/
theorem Begins.model (r : Ready g s) (free : ∀ k, g.settled k) (b : s.Begins n s₁) :
    s₁.model = #[] := by
  induction b with
  | first _ cancelled =>
      obtain ⟨net, order, pending, rfl⟩ := cancelUntil_eq_ok cancelled
      rfl
  | again before _ ran asked ih =>
      have round := round_model (before.running r free) (fun _ => trivial) ran
      exact (withinBudget_gains asked).model.trans (round.trans ih)

/-! ## The end of a search -/

/-- The end of a search clears the interrupt, and keeps a model if one was found. -/
theorem conclude_eq_ok (h : s.conclude answer = .ok s') :
    s'.interrupted = false ∧ (s'.ok = false ↔ s.ok = false ∨ answer = .fails) ∧
      s'.model = if answer = .holds then s.assignment else s.model := by
  obtain ⟨s₁, cancelled, h⟩ := bind_eq_ok.mp h
  cases h
  obtain ⟨net, order, pending, rfl⟩ := cancelUntil_eq_ok cancelled
  cases answer with
  | holds => exact ⟨rfl, by simp [Solver.log, Solver.report], rfl⟩
  | fails => exact ⟨rfl, by simp [Solver.log], rfl⟩
  | unknown => exact ⟨rfl, by simp [Solver.log, Solver.report], rfl⟩

/-- Going back at the end of a search loses no variable. -/
theorem conclude_vars (w : s.net.trail.WF) (c : s.order.Covers s.net.trail none)
    (h : s.conclude answer = .ok s') : s'.numVars = s.numVars := by
  obtain ⟨s₁, cancelled, h⟩ := bind_eq_ok.mp h
  cases h
  cases answer with
  | holds => exact (cancelUntil_paces (s := { s.report _ with model := _ }) w c cancelled).vars
  | fails => exact (cancelUntil_paces (s := { s.report _ with ok := false }) w c cancelled).vars
  | unknown => exact (cancelUntil_paces (s := s.report _) w c cancelled).vars

/-- A solver that reports an answer of its last round is in order, unless it says that the
clauses cannot be satisfied. -/
theorem Answered.ok (a : Answered g s answer) (open_ : answer ≠ .fails) : s.ok = true := by
  cases answer with
  | holds => exact a.1.ok
  | fails => exact absurd rfl open_
  | unknown => exact Running.ok a

theorem Answered.trail (a : Answered g s answer) : s.net.trail.WF := by
  cases answer with
  | holds => exact a.1.inv.core.trail
  | fails => exact a.1.core.trail
  | unknown => exact (Running.inv a).core.trail

theorem Answered.covers (a : Answered g s answer) : s.order.Covers s.net.trail none := by
  cases answer with
  | holds => exact a.1.inv.covers
  | fails => exact a.1.covers
  | unknown => exact (Running.inv a).covers

/-- Whatever a search comes to, it leaves a solver at rest, with a model if it found one. -/
theorem Finishes.leaves (f : s.Finishes answer s₁) (r : Ready g s) (free : ∀ k, g.settled k)
    (concluded : s₁.conclude answer = .ok s') :
    s'.AtRest ∧ (s'.ok = false ↔ answer = .fails) ∧
      s'.model.size = if answer = .holds then s'.numVars else 0 := by
  obtain ⟨begins, _, ran, asked, -⟩ := f
  have running := begins.running r free
  have answered := (round_answered running (fun _ => trivial) ran).kin (kin_withinBudget asked)
    (order_withinBudget asked)
  have none_ : s₁.model = #[] :=
    (withinBudget_gains asked).model.trans <|
      (round_model running (fun _ => trivial) ran).trans (begins.model r free)
  have rests := conclude_concluded answered (fun _ => trivial) concluded
  obtain ⟨flag, verdict, model⟩ := conclude_eq_ok concluded
  refine ⟨⟨rests.root, rests.idle, flag⟩, ?_, ?_⟩
  · rw [verdict]
    refine or_iff_right_of_imp fun failed => ?_
    by_contra open_
    exact absurd (answered.ok open_) (by simp [failed])
  · rw [model]
    split
    · exact (conclude_vars answered.trail answered.covers concluded).symm
    · rw [none_]
      rfl

/-- In whatever state a client starts a search, the solver is contradictory after it exactly
if the answer is that the clauses cannot be satisfied, and there is a model, of all
variables, exactly if the answer is that there is one.  The solver is at rest after it,
unless it was known to be contradictory and not at rest before: then it is left as it
was, but for the model. -/
theorem Reaches.solve_leaves (run : Reaches options allowed calls s)
    (solved : s.solve fuel = .ok (s', answer)) :
    (s'.ok = false ↔ answer = .fails) ∧
      s'.model.size = (if answer = .holds then s'.numVars else 0) ∧
      (s'.AtRest ↔ s.ok = true ∨ s.AtRest) ∧
      (s.ok = false → s' = { s with model := #[] }) := by
  rcases solve_finishes solved with ⟨failed, rfl, rfl⟩ | ⟨s₁, finished, concluded⟩
  · refine ⟨by simp [failed], rfl, ?_, fun _ => rfl⟩
    rw [failed]
    -- the refusal leaves level, conflict and flag alone
    constructor
    · exact fun rests => .inr ⟨rests.root, rests.idle, rests.uninterrupted⟩
    · intro rests
      obtain ⟨root, idle, flag⟩ := rests.resolve_left nofun
      exact ⟨root, idle, flag⟩
  · have ok : s.ok = true := by
      obtain ⟨begins, -⟩ := finished
      exact begins.ok
    obtain ⟨rests, verdict, model⟩ := finished.leaves run.standing (fun _ => trivial) concluded
    refine ⟨verdict, model, ⟨fun _ => .inl ok, fun _ => rests⟩, fun failed => ?_⟩
    exact absurd ok (by simp [failed])

/-- A conflict is pending above the root level, and the search is to be interrupted. -/
def interruptedClash : List Call :=
  [.newVar {}, .newVar {}, .addClause [⟨⟨0⟩, false⟩, ⟨⟨1⟩, true⟩],
    .addClause [⟨⟨0⟩, false⟩, ⟨⟨1⟩, false⟩], .decide ⟨⟨0⟩, true⟩, .propagate, .setInterrupt true]

/-- The empty clause is added above a decision, and the search is to be interrupted. -/
def interruptedContradiction : List Call :=
  [.newVar {}, .decide ⟨⟨0⟩, true⟩, .addClause [], .setInterrupt true]

/-- A search leaves the first of these at rest, but not the second, which it refuses. -/
theorem contradiction_left_interrupted :
    (∃ s s', Reaches {} (fun _ _ => True) interruptedClash s ∧ ¬s.AtRest ∧
      s.solve 2 = .ok (s', .unknown) ∧ s'.AtRest ∧ s'.ok = true ∧
        s'.model.size = 0) ∧
    ∃ s s', Reaches {} (fun _ _ => True) interruptedContradiction s ∧
      s.solve 2 = .ok (s', .fails) ∧ ¬s'.AtRest ∧ s'.level = 1 ∧
        s'.interrupted = true := by
  have clash : ∃ s ∈ (create {} false none).toOption, ∃ s₁ ∈ s.playAll (fun _ _ => True)
      interruptedClash, s₁.pending.isSome = true ∧ s₁.ok = true ∧
        ∃ r ∈ (s₁.solve 2).toOption, r.2 = .unknown := by
    decide +kernel
  have contradiction : ∃ s ∈ (create {} false none).toOption, ∃ s₁ ∈ s.playAll (fun _ _ => True)
      interruptedContradiction, s₁.level = 1 ∧ s₁.interrupted = true ∧ s₁.ok = false ∧
        ∃ r ∈ (s₁.solve 2).toOption, r.2 = .fails := by
    decide +kernel
  constructor
  · obtain ⟨s, run, pending, ok, ⟨s', _⟩, solved, rfl⟩ := exists_played clash
    have solved := eq_ok_of_toOption solved
    obtain ⟨verdict, model, rests, -⟩ := run.solve_leaves solved
    refine ⟨s, s', run, fun rest => ?_, solved, rests.mpr (.inl ok), ?_, model⟩
    · rw [rest.idle] at pending
      cases pending
    · exact Bool.eq_true_of_not_eq_false fun failed => nomatch verdict.mp failed
  · obtain ⟨s, run, level, interrupted, failed, ⟨s', _⟩, solved, rfl⟩ := exists_played contradiction
    have solved := eq_ok_of_toOption solved
    obtain ⟨-, -, rests, same⟩ := run.solve_leaves solved
    obtain rfl := same failed
    refine ⟨s, _, run, solved, fun rest => ?_, level, interrupted⟩
    exact absurd (rest.uninterrupted.symm.trans interrupted) nofun

end Cdcl.Solver
