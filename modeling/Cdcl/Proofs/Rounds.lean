import Cdcl.Proofs.Models
import Cdcl.Proofs.Pacing
import Cdcl.Proofs.Rehearsing
import Cdcl.Proofs.Success.Search

/-!
# Rounds end

A limit on the conflicts of a round, and a cap on those of a search, are looked at only when
a propagation ends without a conflict.  By then there may have been one conflict for every
level, since each of them undoes a level, and there are no more levels than variables.

So a round does not count more conflicts than its limit and the number of variables
together (`Capped`), and between two conflicts it does not decide more variables than there
are (`room`).

* `Course.conflict`, `Course.decision`, `Course.finish` — one step;
* `roundFrom_ends`, `roundFrom_capped` — the steps of a round;
* `Begins.launched` — the rounds of a search;
* `Reaches.search_bounded` — rounds end, counts are bounded, and a search gives up only if
  its budget is exhausted.
-/

namespace Cdcl.Solver

open Network (Regime)

variable {g : Regime} {e : Fault → Prop} {s s' s'' s₁ s₂ : Solver} {limit : Int}
  {top count n fuel : Nat} {answer : Truth} {options : Options} {calls : List Call}

/-! ## What a search does not change -/

/-- What bounds the search, whatever has been counted. -/
structure Abides (s s' : Solver) : Prop where
  vars : s'.numVars = s.numVars
  budget : s'.budget = s.budget
  base : s'.budgetBase = s.budgetBase
  outside : s'.outside = s.outside
  flagged : s.Flagged s'
  answer : s'.stop.answer = s.stop.answer

namespace Abides

theorem refl (s : Solver) : s.Abides s := ⟨rfl, rfl, rfl, rfl, .same rfl rfl, rfl⟩

theorem trans (a : s.Abides s') (b : s'.Abides s'') : s.Abides s'' :=
  ⟨b.vars.trans a.vars, b.budget.trans a.budget, b.base.trans a.base,
    b.outside.trans a.outside, a.flagged.trans b.flagged a.outside, b.answer.trans a.answer⟩

end Abides

theorem SameTerms.abides (t : s.SameTerms s') : s.Abides s' :=
  ⟨t.vars, t.budget, t.base, t.outside, t.flagged, t.answer⟩

theorem countConflict_abides (s : Solver) : s.Abides s.countConflict :=
  ⟨rfl, rfl, rfl, rfl, .same rfl rfl, rfl⟩

theorem countRound_abides (s : Solver) : s.Abides s.countRound :=
  ⟨rfl, rfl, rfl, rfl, .same rfl rfl, rfl⟩

/-- No step changes what bounds the search. -/
theorem Strides.abides {spent : Bool} {x : Step} (h : s.Strides spent s' x) : s.Abides s' := by
  cases h with
  | conflict _ counted _ => exact (countConflict_abides s).trans counted.abides
  | decision _ _ paces _ _ => exact paces.abides
  | refuted _ counted => exact (countConflict_abides s).trans counted.abides
  | settled gains _ => exact gains.abides
  | gaveUp paces _ => exact paces.abides

/-- By induction over its steps, nor does a round; without an answer it ends at the root level. -/
theorem roundFrom_abides (r : Running g s) (free : ∀ k, g.settled k)
    (h : roundFrom limit fuel count s = .ok (s', answer)) :
    s.Abides s' ∧ (answer = .unknown → s'.level = 0) := by
  induction fuel generalizing s count with
  | zero => cases h
  | succ fuel ih =>
      obtain ⟨⟨s₁, y⟩, stepping, h⟩ := bind_eq_ok.mp h
      have stepped := step_stepped r free stepping
      have strides := step_strides r free stepping
      cases y with
      | finished answer' =>
          cases h
          refine ⟨strides.abides, ?_⟩
          rintro rfl
          cases strides with
          | settled _ known => exact absurd rfl known
          | gaveUp _ root => exact root
      | conflict =>
          obtain ⟨later, root⟩ := ih stepped h
          exact ⟨strides.abides.trans later, root⟩
      | decision =>
          obtain ⟨later, root⟩ := ih stepped h
          exact ⟨strides.abides.trans later, root⟩

/-! ## Counting conflicts -/

/-- Even if every level ends in a conflict, no more than `top` conflicts and one for each
variable are counted. -/
def Capped (top : Nat) (s : Solver) : Prop :=
  s.stats.conflicts + s.level + min 1 s.numVars ≤ top + s.numVars

/-- The number of steps before the cap is reached, if there are as many decisions as
possible between two conflicts. -/
def room (top : Nat) (s : Solver) : Nat :=
  (top + s.numVars - s.stats.conflicts) * (s.numVars + 1) + (s.numVars - s.net.trail.size)

/-- After `top` conflicts no variable is decided any more, for the limit of the round or for
the cap of the budget. -/
def Guarded (limit : Int) (count top : Nat) (s : Solver) : Prop :=
  (0 ≤ limit ∧ s.stats.conflicts + limit.toNat ≤ top + count) ∨
    ∃ m, s.budget.conflicts = some m ∧ s.budgetBase.1 + m ≤ top

/-- Where a variable is decided, the conflicts have not come to the top. -/
theorem Guarded.low (h : s.Guarded limit count top) (open_ : spent limit count = false)
    (allowed : ¬Reached s.budget.conflicts s.stats.conflicts s.budgetBase.1) :
    s.stats.conflicts < top := by
  rcases h with ⟨some_, bound⟩ | ⟨m, cap, bound⟩
  · have below : ¬limit ≤ count := by simpa [spent, some_] using open_
    omega
  · refine Nat.lt_of_not_le fun high => allowed ⟨m, cap, ?_⟩
    exact Nat.le_trans bound high

/-- What the steps of a round keep. -/
structure Course (g : Regime) (limit : Int) (count top : Nat) (s : Solver) : Prop where
  running : Running g s
  filled : s.net.trail.Filled
  capped : s.Capped top
  guarded : s.Guarded limit count top

/-- No more literals are assigned than there are variables. -/
theorem Running.size_le (r : Running g s) : s.net.trail.size ≤ s.numVars :=
  Trail.length_lits_le r.inv.core.trail

namespace Course

variable (c : Course g limit count top s) (free : ∀ k, g.settled k)
include c

include free in
/-- A conflict undoes a level. -/
theorem conflict (h : s.step (spent limit count) = .ok (s', .conflict)) :
    Course g limit (count + 1) top s' ∧ s'.room top < s.room top := by
  have stepped := step_stepped c.running free h
  cases step_strides c.running free h with
  | conflict some_ counted lower =>
    have vars : s'.numVars = s.numVars := counted.vars
    have conflicts : s'.stats.conflicts = s.stats.conflicts + 1 := counted.conflicts
    have capped := c.capped
    unfold Capped at capped
    refine ⟨⟨stepped, counted.filled c.filled, ?_, ?_⟩, ?_⟩
    · unfold Capped
      omega
    · rcases c.guarded with ⟨finite, bound⟩ | ⟨m, cap, bound⟩
      · exact .inl ⟨finite, by omega⟩
      · exact .inr ⟨m, counted.budget ▸ cap, counted.base ▸ bound⟩
    · unfold room
      rw [vars, conflicts]
      -- one conflict is worth more than all decisions up to the next one
      have more : top + s.numVars - s.stats.conflicts =
          (top + s.numVars - (s.stats.conflicts + 1)) + 1 := by omega
      rw [more, Nat.succ_mul]
      omega

include free in
/-- A decision gives a value to one more variable. -/
theorem decision (h : s.step (spent limit count) = .ok (s', .decision)) :
    Course g limit count top s' ∧ s'.room top < s.room top := by
  have stepped : Running g s' := step_stepped c.running free h
  cases step_strides c.running free h with
  | decision open_ allowed paces level longer =>
    have low := c.guarded.low open_ allowed
    have vars := paces.vars
    have conflicts := paces.conflicts
    have filled := paces.filled c.filled
    have few : s'.net.trail.size ≤ s'.numVars := stepped.size_le
    have levels : s'.level ≤ s'.net.trail.size := filled.level_le
    refine ⟨⟨stepped, filled, ?_, ?_⟩, ?_⟩
    · unfold Capped
      omega
    · unfold Guarded
      rw [conflicts, paces.budget, paces.base]
      exact c.guarded
    · unfold room
      rw [vars, conflicts]
      omega

include free in
/-- A last conflict keeps within the cap, and so does a round that is given up. -/
theorem finish (h : s.step (spent limit count) = .ok (s', .finished answer)) :
    s'.stats.conflicts ≤ top + s.numVars ∧ (answer = .unknown → s'.Capped top) := by
  have capped := c.capped
  unfold Capped at capped ⊢
  cases step_strides c.running free h with
  | refuted some_ counted =>
    have conflicts : s'.stats.conflicts = s.stats.conflicts + 1 := counted.conflicts
    exact ⟨by omega, nofun⟩
  | settled gains known =>
    have conflicts := gains.conflicts
    exact ⟨by omega, fun unknown => absurd unknown known⟩
  | gaveUp paces root =>
    have conflicts := paces.conflicts
    have vars := paces.vars
    exact ⟨by omega, fun _ => by omega⟩

end Course

/-! ## Rounds -/

/-- By induction over its steps, a round counts no conflict beyond the cap. -/
theorem roundFrom_capped (c : Course g limit count top s) (free : ∀ k, g.settled k)
    (h : roundFrom limit fuel count s = .ok (s', answer)) :
    s'.stats.conflicts ≤ top + s.numVars ∧ (answer = .unknown → s'.Capped top) := by
  induction fuel generalizing s count with
  | zero => cases h
  | succ fuel ih =>
      obtain ⟨⟨s₁, y⟩, stepping, h⟩ := bind_eq_ok.mp h
      have vars := (step_strides c.running free stepping).abides.vars
      cases y with
      | finished answer' =>
          cases h
          exact c.finish free stepping
      | conflict => exact vars ▸ ih (c.conflict free stepping).1 h
      | decision => exact vars ▸ ih (c.decision free stepping).1 h

/-- A round that is given more steps than there is room for does not use them up. -/
theorem roundFrom_ends (excused : ∀ f : Fault, f.Excused → e f) (on : g.sound) (paced : g.paced)
    (free : ∀ k, g.settled k) (c : Course g limit count top s) (x : s.Sane)
    (enough : s.room top < fuel) : FailsOnly e (roundFrom limit fuel count s) := by
  induction fuel generalizing s count with
  | zero => exact absurd enough (Nat.not_lt_zero _)
  | succ fuel ih =>
      have sane : Gives e (fun r => r.1.Sane) (s.step (spent limit count)) :=
        step_sane excused on paced free c.running x
      refine .bind sane.failsOnly fun ⟨s₁, y⟩ stepping => ?_
      have x₁ := sane.holds _ stepping
      cases y with
      | finished answer => exact .ok _
      | conflict =>
          obtain ⟨c₁, less⟩ := c.conflict free stepping
          exact ih c₁ x₁ (by omega)
      | decision =>
          obtain ⟨c₁, less⟩ := c.decision free stepping
          exact ih c₁ x₁ (by omega)

/-- At the root level any cap leaves room for one conflict. -/
theorem capped_root (root : s.level = 0) (low : s.stats.conflicts ≤ top) : s.Capped top := by
  unfold Capped
  omega

/-- A round with a limit. -/
theorem Running.course (r : Running g s) (root : s.level = 0) (finite : 0 ≤ limit) :
    Course g limit 0 (s.stats.conflicts + limit.toNat) s.countRound where
  running := r.countRound
  filled := .of_root root
  capped := capped_root root (Nat.le_add_right _ _)
  guarded := .inl ⟨finite, Nat.le_refl _⟩

/-- A round within a cap on the conflicts of the search. -/
theorem Running.courseWithin {m : Nat} (r : Running g s) (root : s.level = 0)
    (cap : s.budget.conflicts = some m) (capped : s.Capped (s.budgetBase.1 + m)) :
    Course g limit 0 (s.budgetBase.1 + m) s.countRound where
  running := r.countRound
  filled := .of_root root
  capped := capped
  guarded := .inr ⟨m, cap, Nat.le_refl _⟩

/-- Between two steps of a round everything is on course. -/
theorem Passes.course (p : Passes limit s count s') (free : ∀ k, g.settled k)
    (c : Course g limit 0 top s.countRound) : Course g limit count top s' ∧
      s.Abides s' ∧ s'.stats.conflicts = s.stats.conflicts + count := by
  induction p with
  | first => exact ⟨c, countRound_abides s, rfl⟩
  | conflict _ stepping ih =>
      obtain ⟨c₁, abides, counted⟩ := ih
      have strides := step_strides c₁.running free stepping
      refine ⟨(c₁.conflict free stepping).1, abides.trans strides.abides, ?_⟩
      cases strides with
      | conflict _ counts _ =>
        have conflicts := counts.conflicts
        change _ = _ + 1 at conflicts
        omega
  | decision _ stepping ih =>
      obtain ⟨c₁, abides, counted⟩ := ih
      have strides := step_strides c₁.running free stepping
      refine ⟨(c₁.decision free stepping).1, abides.trans strides.abides, ?_⟩
      cases strides with
      | decision _ _ paces _ _ => exact paces.conflicts.trans counted

/-! ## The rounds of a search -/

/-- What a search sets at its beginning. -/
def based (s : Solver) : Solver :=
  { s with budgetBase := (s.stats.conflicts, s.stats.propagations) }

/-- What holds when a round begins. -/
structure Launched (s s₁ : Solver) : Prop where
  root : s₁.level = 0
  abides : s.based.Abides s₁
  capped : ∀ m, s.budget.conflicts = some m → s₁.Capped (s.stats.conflicts + m)

namespace Launched

variable (l : s.Launched s₁)
include l

/-- A round within a cap on the conflicts of the search. -/
theorem course {m : Nat} (r : Running g s₁) (cap : s.budget.conflicts = some m) :
    Course g limit 0 (s.stats.conflicts + m) s₁.countRound := by
  have base : s₁.budgetBase.1 = s.stats.conflicts := congrArg Prod.fst l.abides.base
  have capped := l.capped m cap
  rw [← base] at capped ⊢
  exact r.courseWithin l.root ((congrArg Budget.conflicts l.abides.budget).trans cap) capped

/-- What a round that gives up leaves is what the next one begins with. -/
theorem round (r : Running g s₁) (free : ∀ k, g.settled k)
    (ran : s₁.round fuel limit = .ok (s₂, answer)) : s.based.Abides s₂ ∧
      (∀ m, s.budget.conflicts = some m →
        s₂.stats.conflicts ≤ s.stats.conflicts + m + s.numVars) ∧
      (answer = .unknown → s.Launched s₂) := by
  obtain ⟨_, -, ran⟩ := bind_eq_ok.mp ran
  have vars : s₁.countRound.numVars = s.numVars := l.abides.vars
  obtain ⟨later, root⟩ := roundFrom_abides r.countRound free ran
  have abides : s.based.Abides s₂ := (l.abides.trans (countRound_abides s₁)).trans later
  refine ⟨abides, fun m cap => ?_, fun unknown => ⟨root unknown, abides, fun m cap => ?_⟩⟩
  · exact vars ▸ (roundFrom_capped (l.course r cap) free ran).1
  · exact (roundFrom_capped (l.course r cap) free ran).2 unknown

end Launched

/-- Ending a search counts nothing. -/
theorem conclude_keeps (h : s.conclude answer = .ok s') :
    s'.stats = s.stats ∧ s'.stop = s.stop ∧ s'.looks = s.looks ∧
      (answer = .unknown → s'.ok = s.ok) := by
  obtain ⟨s₁, cancelled, h⟩ := bind_eq_ok.mp h
  cases h
  obtain ⟨net, order, pending, rfl⟩ := cancelUntil_eq_ok cancelled
  cases answer <;> exact ⟨rfl, rfl, rfl, fun unknown => by cases unknown <;> rfl⟩

section Search

variable (r : Ready g s) (free : ∀ k, g.settled k)
include r free

/-- Between two rounds, what holds is what the next one begins with. -/
theorem Begins.launched (b : s.Begins n s₁) : s.Launched s₁ := by
  induction b with
  | @first s₀ ok cancelled =>
      have back := cancelUntil_paces (s := { s with model := #[] }) r.inv.core.trail r.inv.covers
        cancelled
      have root : s₀.level = 0 :=
        cancelUntil_root (s := { s with model := #[] }) r.inv.core.trail r.inv.covers cancelled
      obtain ⟨net, order, pending, rfl⟩ := cancelUntil_eq_ok cancelled
      have abides : s.based.Abides (started { s with model := #[], net, order, pending }) :=
        ⟨back.vars, rfl, rfl, rfl, .same rfl rfl, rfl⟩
      exact ⟨root, abides, fun m _ => capped_root root (Nat.le_add_right _ _)⟩
  | @again n _ _ _ s₂ s₃ before _ ran asked ih =>
      obtain ⟨-, -, gives⟩ := ih.round (before.running r free) (fun _ => trivial) ran
      obtain ⟨root, abides, capped⟩ := gives rfl
      have within := withinBudget_gains asked
      have told := (log_gains s₃ (.searchRestart n)).trans (report_gains _ .restart)
      have gains := within.trans told
      refine ⟨gains.level.trans root, abides.trans gains.abides, fun m cap => ?_⟩
      have capped := capped m cap
      unfold Capped at capped ⊢
      rw [gains.conflicts, gains.level, gains.vars]
      exact capped

/-- A search keeps within its cap and the number of variables together. -/
theorem solve_capped {m : Nat} (cap : s.budget.conflicts = some m)
    (h : s.solve fuel = .ok (s', answer)) :
    s'.stats.conflicts ≤ s.stats.conflicts + m + s.numVars := by
  rcases solve_finishes h with ⟨-, -, rfl⟩ | ⟨s₃, ⟨begins, -, ran, asked, -⟩, concluded⟩
  · change s.stats.conflicts ≤ _
    omega
  · have launched := begins.launched r free
    obtain ⟨-, capped, -⟩ := launched.round (begins.running r free) (fun _ => trivial) ran
    rw [(conclude_keeps concluded).1, (withinBudget_gains asked).conflicts]
    exact capped m cap

/-- A search that comes to no answer has found its budget exhausted. -/
theorem solve_exhausted (h : s.solve fuel = .ok (s', .unknown)) :
    s'.level = 0 ∧ s'.pending = none ∧ s'.ok = true ∧
      ∃ s₁ s₂ : Solver, s₁.withinBudget = .ok (s₂, false) ∧ s₂.conclude .unknown = .ok s' ∧
        s.based.Abides s₂ := by
  rcases solve_finishes h with ⟨-, unknown, -⟩ | ⟨s₃, ends, concluded⟩
  · cases unknown
  · obtain ⟨begins, _, ran, asked, ended⟩ := ends
    have running := begins.running r free
    obtain ⟨abides, -⟩ := (begins.launched r free).round running (fun _ => trivial) ran
    have answered := round_answered running (fun _ => trivial) ran
    have within : Running { g with settled := fun _ => True } s₃ :=
      Running.kin answered (kin_withinBudget asked)
    obtain ⟨-, root, idle, -⟩ := conclude_concluded (x := .unknown) within (fun _ => trivial)
      concluded
    obtain ⟨-, -, -, ok⟩ := conclude_keeps concluded
    obtain rfl := ended.resolve_right fun known => known rfl
    exact ⟨root, idle, (ok rfl).trans within.ok, _, s₃, asked, concluded,
      abides.trans (withinBudget_gains asked).abides⟩

/-- A round with a limit ends, with no more conflicts than the limit and the number of
variables together. -/
theorem round_bounded (fuel : Nat) (x : s.Sane) (on : g.sound) (paced : g.paced) (b : s.Begins n s₁)
    (finite : 0 ≤ limit) :
    ((limit.toNat + s.numVars) * (s.numVars + 1) + s.numVars < fuel →
        FailsOnly Fault.Excused (s₁.round fuel limit)) ∧
      (∀ {count s₂}, Passes limit s₁ count s₂ → count ≤ limit.toNat + s.numVars) ∧
      ∀ {s₂ answer}, s₁.round fuel limit = .ok (s₂, answer) →
        s₂.stats.conflicts ≤ s₁.stats.conflicts + limit.toNat + s.numVars := by
  have running := b.running r free
  have launched := b.launched r free
  have vars : s₁.numVars = s.numVars := launched.abides.vars
  have course := running.course launched.root finite
  have sane : s₁.countRound.Sane :=
    (x.moves r.inv.core (b.moves r free)).congr rfl rfl rfl rfl fun c => c
  refine ⟨fun enough => ?_, fun {count s₂} passes => ?_, fun {s₂ answer} ran => ?_⟩
  · refine .bind (.ensure running.ok) fun _ _ => ?_
    refine roundFrom_ends (g := { g with settled := fun _ => True }) (fun _ excused => excused) on
      paced (fun _ => trivial) course sane ?_
    refine Nat.lt_of_le_of_lt ?_ enough
    have left : s₁.stats.conflicts + limit.toNat + s₁.numVars - s₁.stats.conflicts =
        limit.toNat + s₁.numVars := by omega
    change (s₁.stats.conflicts + limit.toNat + s₁.numVars - s₁.stats.conflicts) *
      (s₁.numVars + 1) + (s₁.numVars - s₁.net.trail.size) ≤ _
    rw [left, vars]
    omega
  · obtain ⟨⟨-, -, capped, -⟩, abides, counted⟩ := passes.course (fun _ => trivial) course
    have vars₂ := abides.vars
    unfold Capped at capped
    omega
  · obtain ⟨_, -, ran⟩ := bind_eq_ok.mp ran
    exact vars ▸ (roundFrom_capped course (fun _ => trivial) ran).1

end Search

/-- What calls keep that add clauses at the root level and begin levels in quiet. -/
theorem Reaches.drives
    (run : Reaches options (fun s c => s.AddsAtRoot c ∧ s.BeginsQuietly c) calls s) :
    Ready (regimeOf calls True True fun _ => True) s := by
  induction run with
  | fresh created => exact ready_create created rfl
  | @call calls s s' c fuel reply _ fine performed before =>
      obtain ⟨adds, begins⟩ := fine
      refine (before.call (fun _ _ left => left) (fun _ begun _ => begins begun) ?_ performed).1
      refine ⟨fun d same _ _ high => ?_, fun _ _ same => .inl (adds (same ▸ rfl)),
        fun _ _ => trivial⟩
      exact absurd (adds (same ▸ rfl)) (Nat.ne_of_gt high)

/-- The rounds of a search end, if they have a limit.  A round counts no more conflicts than
its limit allows for and one for each variable, and so does a search for the cap of its
budget.  A search that comes to no answer was stopped by its last look at the budget: the
interrupt flag was set, before the search or in the course of it, a cap had been reached, or
the callback said yes.  It leaves a solver that can be used as before. -/
theorem Reaches.search_bounded
    (run : Reaches options (fun s c => s.AddsAtRoot c ∧ s.BeginsQuietly c) calls s) :
    (∀ {n limit s₁}, s.Begins n s₁ → s₁.RoundLimit n limit → 0 ≤ limit →
      (∀ {fuel f}, (limit.toNat + s.numVars) * (s.numVars + 1) + s.numVars < fuel →
        s₁.round fuel limit = .error f → f.Excused) ∧
      (∀ {count s₂}, Passes limit s₁ count s₂ → count ≤ limit.toNat + s.numVars) ∧
      ∀ {fuel s₂ answer}, s₁.round fuel limit = .ok (s₂, answer) →
        s₂.stats.conflicts ≤ s₁.stats.conflicts + limit.toNat + s.numVars) ∧
    (∀ {m fuel s' answer}, s.budget.conflicts = some m → s.solve fuel = .ok (s', answer) →
      s'.stats.conflicts ≤ s.stats.conflicts + m + s.numVars) ∧
    ∀ {fuel s'}, s.solve fuel = .ok (s', .unknown) →
      s'.level = 0 ∧ s'.pending = none ∧ s'.ok = true ∧
      ∃ s₁ s₂ : Solver, s₁.withinBudget = .ok (s₂, false) ∧ s₂.conclude .unknown = .ok s' ∧
        ((s₂.interrupted = true ∧ (s.interrupted = true ∨
            ∃ k, s.looks < k ∧ k ≤ s'.looks ∧ s.outside.writes k = some true)) ∨
          Reached s.budget.conflicts s'.stats.conflicts s.stats.conflicts ∨
          Reached s.budget.propagations s'.stats.propagations s.stats.propagations ∨
          s.stop.answer s'.stop.polls = true) := by
  have r := run.drives
  have x := run.sane
  have free : ∀ k, (regimeOf calls True True fun _ => True).settled k := fun _ => trivial
  refine ⟨fun begins _ finite => ?_, fun cap h => solve_capped r free cap h, fun h => ?_⟩
  · have bounded := fun fuel => round_bounded r free fuel x trivial trivial begins finite
    refine ⟨fun {fuel f} enough failed => ?_, (bounded 0).2.1, fun {fuel} => (bounded fuel).2.2⟩
    exact (bounded fuel).1 enough f failed
  · obtain ⟨root, idle, ok, s₁, s₂, asked, concluded, abides⟩ := solve_exhausted r free h
    refine ⟨root, idle, ok, s₁, s₂, asked, concluded, ?_⟩
    obtain ⟨stats, stop, looks, -⟩ := conclude_keeps concluded
    have budget : s₂.budget = s.budget := abides.budget
    have base : s₂.budgetBase = (s.stats.conflicts, s.stats.propagations) := abides.base
    have answer : s₂.stop.answer = s.stop.answer := abides.answer
    rw [stats, stop, looks]
    cases (withinBudget_exhausted asked).2.mp rfl with
    | interrupted yes => exact .inl ⟨yes, abides.flagged.flag yes⟩
    | conflicts yes =>
        rw [budget, base] at yes
        exact .inr (.inl yes)
    | propagations yes =>
        rw [budget, base] at yes
        exact .inr (.inr (.inl yes))
    | stopped yes => exact .inr (.inr (.inr (answer ▸ yes)))

/-- The first decision is wrong, and a single conflict is allowed. -/
def wrongDecision : List Call :=
  [.newVar {}, .newVar {}, .newVar {}, .addClause [⟨⟨0⟩, true⟩, ⟨⟨1⟩, true⟩],
    .addClause [⟨⟨0⟩, true⟩, ⟨⟨1⟩, false⟩], .setBudget { conflicts := some 1 }]

/-- The first decision leads to a conflict at once, and the search gives up after it. -/
theorem wrong_decision_bounded :
    ∃ s s₁ s', Reaches {} (fun s c => s.AddsAtRoot c ∧ s.BeginsQuietly c) wrongDecision s ∧
      (s.Begins 0 s₁ ∧ s₁.RoundLimit 0 100 ∧
        ∀ {count s₂}, Passes 100 s₁ count s₂ → count ≤ 103) ∧
      s.solve 4 = .ok (s', .unknown) ∧
      (0 < s'.stats.conflicts ∧ s'.stats.conflicts ≤ 4) ∧ s'.level = 0 ∧ s'.ok = true := by
  have found : ∃ s ∈ (create {} false none).toOption, ∃ s' ∈ s.playAll
      (fun s c => s.AddsAtRoot c ∧ s.BeginsQuietly c) wrongDecision,
      s'.ok = true ∧ s'.numVars = 3 ∧ s'.budget.conflicts = some 1 ∧ s'.stats.conflicts = 0 ∧
      (∃ s₁ ∈ ({ s' with model := #[] }.cancelUntil 0).toOption,
        ∃ factor ∈ (Restart.interval s₁.options.lubyRestart s₁.options.restartIncrease 0).toOption,
          wholePart (factor * Float.ofInt s₁.options.restartFirst) = 100) ∧
      ∃ r ∈ (s'.solve 4).toOption, r.2 = .unknown ∧ 0 < r.1.stats.conflicts := by
    decide +kernel
  obtain ⟨s, run, ok, size, cap, none_, ⟨s₀, cancelled, factor, length, whole⟩,
    ⟨s', _⟩, solved, rfl, counted⟩ := exists_played found
  have solved := eq_ok_of_toOption solved
  have begins : s.Begins 0 s₀.started := .first ok (eq_ok_of_toOption cancelled)
  have limit : s₀.started.RoundLimit 0 100 := ⟨factor, eq_ok_of_toOption length, whole.symm⟩
  obtain ⟨rounds, searches, ends⟩ := run.search_bounded
  obtain ⟨-, passes, -⟩ := rounds begins limit (by decide)
  obtain ⟨root, -, ok', -⟩ := ends solved
  have few := searches cap solved
  rw [none_, size] at few
  refine ⟨s, _, s', run, ⟨begins, limit, fun {count s₂} p => ?_⟩, solved, ⟨counted, few⟩, root, ok'⟩
  have bounded := passes p
  rw [size] at bounded
  exact bounded

end Cdcl.Solver
