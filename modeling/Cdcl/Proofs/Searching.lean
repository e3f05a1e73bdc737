import Cdcl.Proofs.Moving

/-!
# Inside a search

The states that a search goes through, none of which a client gets to see.  A search begun
in `s` comes to the beginning of a round (`Begins`), a round to a state between two of its
steps (`Passes`), and a step to the points at which it may simplify (`MaySimplify`), at which
it may give up learnt clauses (`Decides`), and at which it chooses a literal (`Chooses`).

* `step_decides` — a step that has got as far as `Decides` goes on as `stepDecision` says;
* `Begins.running`, `Passes.running`, `MaySimplify.running`, `Decides.running`,
  `Chooses.running` — the invariant of a search holds in all of these states;
* `Decides.sane`, `Chooses.sane` — so does what every step of the network keeps;
* `solve_finishes` — a search that ends has come to its last round in this way.
-/

namespace Cdcl.Solver

open Network (Regime)

variable {g : Regime} {s s' s₁ s₂ : Solver} {limit : Int} {n count : Nat}

/-- The limit on the conflicts of round `n`. -/
def RoundLimit (s : Solver) (n : Nat) (limit : Int) : Prop :=
  ∃ factor, Restart.interval s.options.lubyRestart s.options.restartIncrease n = .ok factor ∧
    limit = wholePart (factor * Float.ofInt s.options.restartFirst)

/-- The search begun in `s` comes to the beginning of round `n` in the other state. -/
inductive Begins (s : Solver) : Nat → Solver → Prop
  | first {s₁ : Solver} : s.ok = true → { s with model := #[] }.cancelUntil 0 = .ok s₁ →
      Begins s 0 s₁.started
  | again {n fuel : Nat} {limit : Int} {s₁ s₂ s₃ : Solver} : Begins s n s₁ →
      s₁.RoundLimit n limit → s₁.round fuel limit = .ok (s₂, .unknown) →
      s₂.withinBudget = .ok (s₃, true) →
      Begins s (n + 1) ((s₃.log (.searchRestart n)).report .restart)

/-- A new round is counted. -/
def countRound (s : Solver) : Solver :=
  { s with stats := { s.stats with rounds := s.stats.rounds + 1 } }

/-- Is the limit of a round used up after this many conflicts? -/
def spent (limit : Int) (count : Nat) : Bool := 0 ≤ limit && limit ≤ count

/-- The round begun in `s` comes to the other state between two of its steps, after that
many conflicts. -/
inductive Passes (limit : Int) (s : Solver) : Nat → Solver → Prop
  | first : Passes limit s 0 s.countRound
  | conflict {count : Nat} {s₁ s₂ : Solver} : Passes limit s count s₁ →
      s₁.step (spent limit count) = .ok (s₂, .conflict) → Passes limit s (count + 1) s₂
  | decision {count : Nat} {s₁ s₂ : Solver} : Passes limit s count s₁ →
      s₁.step (spent limit count) = .ok (s₂, .decision) → Passes limit s count s₂

/-- The search begun in `s` comes to the other state at the point of a step at which it
simplifies if that is due: everything is propagated, and neither the round nor the budget is
used up. -/
inductive MaySimplify (s : Solver) : Solver → Prop
  | mk {n count : Nat} {limit : Int} {s₁ s₂ s₃ s₄ : Solver} : Begins s n s₁ →
      s₁.RoundLimit n limit → Passes limit s₁ count s₂ →
      s₂.propagateAll = .ok (s₃, none) → spent limit count = false →
      s₃.withinBudget = .ok (s₄, true) → MaySimplify s s₄

/-- The search begun in `s` comes to the other state at the point of a step at which it gives
up learnt clauses if there are too many, and decides. -/
inductive Decides (s : Solver) : Solver → Prop
  | mk {s₁ s₂ : Solver} : MaySimplify s s₁ → s₁.simplifyAtRoot = .ok (s₂, true) → Decides s s₂

/-- The search begun in `s` comes to the other state as it chooses the literal that it
decides. -/
inductive Chooses (s : Solver) : Solver → Prop
  | mk {s₁ s₂ : Solver} : Decides s s₁ → s₁.reduceAtLimit = .ok s₂ → Chooses s s₂

/-- A step that propagates without a conflict, within all limits, simplifies and decides. -/
theorem step_decides {s₃ s₄ : Solver} (propagated : s₁.propagateAll = .ok (s₂, none))
    (within : s₂.withinBudget = .ok (s₃, true)) (fine : s₃.simplifyAtRoot = .ok (s₄, true)) :
    s₁.step false = s₄.stepDecision := by
  simp [step, stepQuiet, propagated, within, fine, Bind.bind, Except.bind]

/-! ## What holds on the way -/

section Invariant

variable (r : Ready g s) (free : ∀ k, g.settled k)
include r free

/-- When a round begins, the search runs. -/
theorem Begins.running (b : Begins s n s') : Running { g with settled := fun _ => True } s' := by
  induction b with
  | first ok cancelled => exact r.inv.start r.idle (fun _ _ => free 0) ok cancelled
  | @again n _ _ _ _ s₃ _ _ ran asked ih =>
      have answered := round_answered ih (fun _ => trivial) ran
      have within := Running.kin answered (kin_withinBudget asked)
      exact within.kin ((kin_log rfl s₃).trans (kin_report .restart _))

/-- Up to the beginning of a round, the network has gone through a chain of steps. -/
theorem Begins.moves (b : Begins s n s') : s.Moves s' := by
  induction b with
  | first ok cancelled =>
      have cleared := cleared_moves s
      have back := cancelUntil_moves (s := { s with model := #[] }) r.inv.core.trail r.inv.covers
        cancelled
      exact (cleared.trans back).trans (started_moves _)
  | @again n _ _ _ _ s₃ before _ ran asked ih =>
      have running := before.running r free
      have round := round_moves running (fun _ => trivial) ran
      have told := (log_moves s₃ (.searchRestart n)).trans (report_moves _ .restart)
      exact ((ih.trans round).trans (withinBudget_moves asked)).trans told

end Invariant

section Round

variable (r : Running g s) (free : ∀ k, g.settled k)
include r free

/-- Between two steps of a round, the search runs. -/
theorem Passes.running (p : Passes limit s count s') : Running g s' := by
  induction p with
  | first => exact r.countRound
  | conflict _ stepping ih => exact step_stepped ih free stepping
  | decision _ stepping ih => exact step_stepped ih free stepping

/-- By induction over its steps, a round takes the network through a chain of steps. -/
theorem Passes.moves (p : Passes limit s count s') : s.Moves s' := by
  induction p with
  | first => exact count_moves _ _ fun counted => counted
  | conflict before stepping ih => exact ih.trans (step_moves (before.running r free) stepping)
  | decision before stepping ih => exact ih.trans (step_moves (before.running r free) stepping)

end Round

section Step

variable (r : Ready g s) (free : ∀ k, g.settled k)
include r free

/-- Where a search may simplify, everything is propagated. -/
theorem MaySimplify.running (m : MaySimplify s s') :
    Running { g with settled := fun _ => True } s' ∧ s'.Quiet := by
  obtain ⟨begins, -, passes, propagated, -, asked⟩ := m
  have before := passes.running (begins.running r free) fun _ => trivial
  obtain ⟨inv, ok, quiet⟩ := before.propagateAll propagated
  have kin := kin_withinBudget asked
  obtain ⟨stop, rfl⟩ := withinBudget_eq_ok asked
  exact ⟨Running.kin ⟨inv, ok, quiet.2⟩ kin, quiet⟩

theorem MaySimplify.moves (m : MaySimplify s s') : s.Moves s' := by
  obtain ⟨begins, -, passes, propagated, -, asked⟩ := m
  have running := begins.running r free
  have before := passes.running running fun _ => trivial
  have first := (begins.moves r free).trans (passes.moves running fun _ => trivial)
  have propagates := propagateAll_moves before.inv.core propagated
  exact (first.trans propagates).trans (withinBudget_moves asked)

/-- Where a search may give clauses up, it runs, and everything is propagated. -/
theorem Decides.running (d : Decides s s') :
    Running { g with settled := fun _ => True } s' ∧ s'.Quiet := by
  obtain ⟨may, simplified⟩ := d
  obtain ⟨running, quiet⟩ := may.running r free
  obtain ⟨inv, idle, ok, still⟩ := running.simplifyAtRoot simplified
  exact ⟨⟨inv, ok, idle⟩, still quiet rfl⟩

theorem Decides.moves (d : Decides s s') : s.Moves s' := by
  obtain ⟨may, simplified⟩ := d
  have running := (may.running r free).1
  exact (may.moves r free).trans (simplifyAtRoot_moves running simplified)

/-- Where a search may give clauses up, the parts of the solver fit together. -/
theorem Decides.sane (d : Decides s s') (x : s.Sane) : s'.Sane :=
  x.moves r.inv.core (d.moves r free)

/-- Where a search chooses a literal, it runs. -/
theorem Chooses.running (c : Chooses s s') : Running { g with settled := fun _ => True } s' := by
  obtain ⟨decides, reduced⟩ := c
  obtain ⟨running, -⟩ := decides.running r free
  unfold reduceAtLimit at reduced
  split at reduced
  · obtain ⟨inv, tidies⟩ := running.inv.reduce reduced
    exact running.tidies inv tidies
  · cases reduced
    exact running

/-- Where a search chooses a literal, the parts of the solver fit together. -/
theorem Chooses.sane (c : Chooses s s') (x : s.Sane) : s'.Sane := by
  obtain ⟨decides, reduced⟩ := c
  obtain ⟨running, -⟩ := decides.running r free
  have before := decides.sane r free x
  unfold reduceAtLimit at reduced
  split at reduced
  · exact before.moves running.inv.core (reduce_moves running.inv reduced)
  · cases reduced
    exact before

end Step

/-! ## The end of a search -/

/-- The last round of a search has ended with the answer, and so has the search: the budget
was asked once more, and either it was used up or the round had come to a conclusion. -/
inductive Finishes (s : Solver) (answer : Truth) : Solver → Prop
  | mk {n fuel : Nat} {limit : Int} {within : Bool} {s₁ s₂ s₃ : Solver} : Begins s n s₁ →
      s₁.RoundLimit n limit → s₁.round fuel limit = .ok (s₂, answer) →
      s₂.withinBudget = .ok (s₃, within) → (within = false ∨ answer ≠ .unknown) →
      Finishes s answer s₃

/-- By induction over the rounds, a sequence of them has a last one. -/
theorem rounds_finish {fuel more : Nat} {answer : Truth} (b : Begins s n s₁)
    (h : rounds fuel more n s₁ = .ok (s₂, answer)) : Finishes s answer s₂ := by
  induction more generalizing s₁ n with
  | zero => cases h
  | succ more ih =>
      obtain ⟨factor, length, h⟩ := bind_eq_ok.mp h
      obtain ⟨⟨s₃, y⟩, ran, h⟩ := bind_eq_ok.mp h
      obtain ⟨⟨s₄, within⟩, asked, rest⟩ := bind_eq_ok.mp h
      simp only at rest
      split at rest
      next ended =>
        cases rest
        refine .mk b ⟨factor, length, rfl⟩ ran asked ?_
        simpa using ended
      next again =>
        simp only [Bool.or_eq_true, Bool.not_eq_true', decide_eq_true_eq, not_or,
          Bool.not_eq_false, ne_eq, not_not] at again
        obtain ⟨rfl, rfl⟩ := again
        exact ih (.again b ⟨factor, length, rfl⟩ ran asked) rest

/-- A search that answers has been refused at once, or it has gone through its rounds up to
a last one. -/
theorem solve_finishes {fuel : Nat} {answer : Truth} (h : s.solve fuel = .ok (s', answer)) :
    (s.ok = false ∧ answer = .fails ∧ s' = { s with model := #[] }) ∨
      ∃ s₁, Finishes s answer s₁ ∧ s₁.conclude answer = .ok s' := by
  unfold Solver.solve at h
  simp only at h
  split at h
  next failed =>
    cases h
    exact .inl ⟨by simpa using failed, rfl, rfl⟩
  next fine =>
    have ok : s.ok = true := by simpa using fine
    obtain ⟨s₀, cancelled, h⟩ := bind_eq_ok.mp h
    obtain ⟨⟨s₁, y⟩, searched, h⟩ := bind_eq_ok.mp h
    obtain ⟨s₂, concluded, h⟩ := bind_eq_ok.mp h
    cases h
    exact .inr ⟨s₁, rounds_finish (.first ok cancelled) searched, concluded⟩

/-! ## A search without conflicts -/

/-- Decides as many variables. -/
def decideTimes (limit : Int) : Nat → Solver → Except Fault Solver
  | 0, s => .ok s
  | k + 1, s => do
      match ← s.step (spent limit 0) with
      | (s, .decision) => decideTimes limit k s
      | _ => throw .conditionBroken

/-- Begins a search and decides as many variables, up to where it decides the next one. -/
def searchUpTo (k : Nat) (s : Solver) : Except Fault Solver := do
  ensure s.ok
  let s ← { s with model := #[] }.cancelUntil 0
  let s := s.started
  let factor ← Restart.interval s.options.lubyRestart s.options.restartIncrease 0
  let limit := wholePart (factor * Float.ofInt s.options.restartFirst)
  let s ← decideTimes limit k s.countRound
  ensure (!spent limit 0)
  match ← s.propagateAll with
  | (_, some _) => throw .conditionBroken
  | (s, none) =>
      match ← s.withinBudget with
      | (_, false) => throw .conditionBroken
      | (s, true) =>
          match ← s.simplifyAtRoot with
          | (_, false) => throw .conditionBroken
          | (s, true) => return s

/-- As many decisions are steps of a round. -/
theorem passes_decideTimes {k : Nat} (p : Passes limit s 0 s₁)
    (h : decideTimes limit k s₁ = .ok s₂) : Passes limit s 0 s₂ := by
  induction k generalizing s₁ with
  | zero =>
      cases h
      exact p
  | succ k ih =>
      obtain ⟨⟨s₃, y⟩, stepping, h⟩ := bind_eq_ok.mp h
      cases y with
      | decision => exact ih (p.decision stepping) h
      | conflict => cases h
      | finished answer => cases h

/-- A search that has been followed up to a decision may give clauses up there. -/
theorem decides_searchUpTo {k : Nat} (h : s.searchUpTo k = .ok s') : s.Decides s' := by
  obtain ⟨_, ok, h⟩ := bind_eq_ok.mp h
  obtain ⟨s₀, cancelled, h⟩ := bind_eq_ok.mp h
  obtain ⟨factor, length, h⟩ := bind_eq_ok.mp h
  obtain ⟨s₁, passed, h⟩ := bind_eq_ok.mp h
  obtain ⟨_, open_, h⟩ := bind_eq_ok.mp h
  obtain ⟨⟨s₂, conflict⟩, propagated, h⟩ := bind_eq_ok.mp h
  have begins : s.Begins 0 s₀.started := .first (ensure_eq_ok.mp ok) cancelled
  have passes := passes_decideTimes .first passed
  have open_ := ensure_eq_ok.mp open_
  rw [Bool.not_eq_true'] at open_
  cases conflict with
  | some id => cases h
  | none =>
      obtain ⟨⟨s₃, within⟩, asked, h⟩ := bind_eq_ok.mp h
      cases within with
      | false => cases h
      | true =>
          obtain ⟨⟨s₄, fine⟩, simplified, h⟩ := bind_eq_ok.mp h
          cases fine with
          | false => cases h
          | true =>
              cases h
              exact .mk (.mk begins ⟨factor, length, rfl⟩ passes propagated open_ asked) simplified

end Cdcl.Solver
