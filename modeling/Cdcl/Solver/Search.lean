import Cdcl.Restart
import Cdcl.Solver.Learning
import Cdcl.Solver.Simplification
import Cdcl.Solver.Reduction
import Cdcl.WholePart

/-!
# The search

A search is a sequence of rounds, each of which may have a limited number of
conflicts.  A round propagates; it learns from a conflict if there is one, and
otherwise it decides the next variable.  It ends with a model when nothing is left
to decide, with "unsatisfiable" when a conflict follows from the root level, and
undecided when its conflicts or the budget are used up.

* `step` is one step of a round: a propagation and what follows from it;
* `roundFrom` repeats steps, `rounds` repeats rounds, and `solve` is the whole search.

The number of steps of a round, and of rounds, is bounded by an explicit fuel, whose
exhaustion is a fault of its own.
-/

namespace Cdcl.Solver

/-- Has a counter that was at `base` come to the cap? -/
def hasReached (cap : Option Nat) (count base : Nat) : Except Fault Bool :=
  match cap with
  | some n => do return n ≤ (← checkedSub count base)
  | none => .ok false

/-- Looks at the interrupt flag, into which others may have written since. -/
def look (s : Solver) : Solver :=
  let looks := s.looks + 1
  { s with looks, interrupted := (s.outside.writes looks).getD s.interrupted }

/-- Is there anything left of the budget?  The interrupt flag is looked at first; the
stop callback is asked last, and only if everything else would let the search go on. -/
def withinBudget (s : Solver) : Except Fault (Solver × Bool) := do
  let s := s.look
  if s.interrupted then
    return (s, false)
  else if ← hasReached s.budget.conflicts s.stats.conflicts s.budgetBase.1 then
    return (s, false)
  else if ← hasReached s.budget.propagations s.stats.propagations s.budgetBase.2 then
    return (s, false)
  else
    let (stop, yes) := s.stop.poll
    return ({ s with stop }, !yes)

/-- The share of the search space that has been left behind, counting each level for
less than the ones before it. -/
def progressEstimate (s : Solver) : Except Fault Float := do
  let count := Float.ofNat (max s.numVars 1)
  let share := 1.0 / count
  let sum := (← s.net.trail.levelSizes).zipIdx.foldl
    (fun sum (size, i) => sum + Restart.power share i * Float.ofNat size) 0.0
  return sum / count

/-- The report on a running search. -/
def progress (s : Solver) : Except Fault Progress := do
  let learnt := s.net.db.learntTally
  return {
    conflicts := s.stats.conflicts
    decisionVars := s.order.eligibleCount - (s.net.trail.marks[0]?).getD s.net.trail.size
    clauses := s.net.db.problemTally.clauses
    clauseLits := s.net.db.problemTally.literals
    maxLearnts := s.learntLimit.limit.toUInt64.toNat
    learnts := learnt.clauses
    learntLits := Float.ofNat learnt.literals / Float.ofNat (max learnt.clauses 1)
    estimate := (← s.progressEstimate) * 100.0 }

/-- The factor by which the time between two growths of the learnt limit grows. -/
def periodIncrease : Float := 1.5

/-- Counts a conflict towards the growth of the learnt limit, and reports progress
when the limit grows. -/
def adjustLearntLimit (s : Solver) : Except Fault Solver := do
  let remaining := s.learntLimit.remaining - 1
  if remaining = 0 then
    let period := s.learntLimit.period * periodIncrease
    let learntLimit : LearntLimit :=
      { limit := s.learntLimit.limit * s.options.learntIncrease
        period
        remaining := wholePart period }
    let s := { s with learntLimit }
    return s.report (.progress (← s.progress))
  else
    return { s with learntLimit := { s.learntLimit with remaining } }

/-- Are there as many learnt clauses beyond the assigned variables as the limit
allows? -/
def atLearntLimit (s : Solver) : Bool :=
  s.learntLimit.limit ≤
    Float.ofNat s.net.db.learnts.size - Float.ofNat s.net.trail.size

/-- Chooses the next decision, with the random numbers of a generator. -/
def pickBranchBy (r : Generator) (s : Solver) : Except Fault (Solver × Option Lit) := do
  let order := s.order
  let s := { s with order := default }
  let (order, choice, random) ←
    order.pickBy r s.net.trail s.options.randomVarFreq s.options.randomPolarity
  let s := { s with order }
  if random then
    let randomDecisions := s.stats.randomDecisions + 1
    return ({ s with stats := { s.stats with randomDecisions } }, choice)
  else
    return (s, choice)

/-- Chooses the next decision, with the generator that is built in. -/
def pickBranch (s : Solver) : Except Fault (Solver × Option Lit) := s.pickBranchBy .standard

/-- What a step of a round comes to. -/
inductive Step where
  /-- The round is over, with this answer. -/
  | finished (answer : Truth)
  /-- A conflict was learnt from. -/
  | conflict
  /-- A literal was decided. -/
  | decision
deriving DecidableEq, Repr

/-- The step after a propagation that found a clause false. -/
def stepConflict (s : Solver) (id : ClauseId) : Except Fault (Solver × Step) := do
  let s := s.countConflict
  if s.level = 0 then
    return (s, .finished .fails)
  else
    let s ← s.learn id
    if s.ok then
      return (← s.adjustLearntLimit, .conflict)
    else
      return (s, .finished .fails)

/-- Simplifies if the solver is at the root level.  The answer is no if the clauses
cannot be satisfied. -/
def simplifyAtRoot (s : Solver) : Except Fault (Solver × Bool) := do
  if s.level = 0 then s.simplifyRoot else return (s, true)

/-- Gives up learnt clauses if there are as many as the limit allows. -/
def reduceAtLimit (s : Solver) : Except Fault Solver := do
  if s.atLearntLimit then s.reduce else return s

/-- Decides the next variable, or ends the round with a model. -/
def stepDecision (s : Solver) : Except Fault (Solver × Step) := do
  let s ← s.reduceAtLimit
  match ← s.pickBranch with
  | (s, some l) => return (← s.decide l, .decision)
  | (s, none) => return (s, .finished .holds)

/-- Ends a round that has come to no answer.  Nothing reads the estimate that is made. -/
def giveUp (s : Solver) : Except Fault (Solver × Step) := do
  let _ ← s.progressEstimate
  return (← s.cancelUntil 0, .finished .unknown)

/-- The step after a propagation that found no clause false, in a round that is to
end if `spent` is set. -/
def stepQuiet (s : Solver) (spent : Bool) : Except Fault (Solver × Step) := do
  if spent then
    s.giveUp
  else
    match ← s.withinBudget with
    | (s, false) => s.giveUp
    | (s, true) =>
        match ← s.simplifyAtRoot with
        | (s, false) => return (s, .finished .fails)
        | (s, true) => s.stepDecision

/-- One step of a round: a propagation, and what follows from it. -/
def step (s : Solver) (spent : Bool) : Except Fault (Solver × Step) := do
  match ← s.propagateAll with
  | (s, some id) => s.stepConflict id
  | (s, none) => s.stepQuiet spent

/-- One round, of at most `fuel` steps, with up to `limit` conflicts if that is not
negative; `count` conflicts have been met. -/
def roundFrom (limit : Int) : Nat → Nat → Solver → Except Fault (Solver × Truth)
  | 0, _, _ => .error .outOfFuel
  | fuel + 1, count, s => do
      match ← s.step (0 ≤ limit && limit ≤ count) with
      | (s, .finished answer) => return (s, answer)
      | (s, .conflict) => roundFrom limit fuel (count + 1) s
      | (s, .decision) => roundFrom limit fuel count s

/-- One round. -/
def round (s : Solver) (fuel : Nat) (limit : Int) : Except Fault (Solver × Truth) := do
  ensure s.ok
  roundFrom limit fuel 0 { s with stats := { s.stats with rounds := s.stats.rounds + 1 } }

/-- Rounds from number `n` on, at most as many as the first argument says. -/
def rounds (fuel : Nat) : Nat → Nat → Solver → Except Fault (Solver × Truth)
  | 0, _, _ => .error .outOfFuel
  | more + 1, n, s => do
      let factor ← Restart.interval s.options.lubyRestart s.options.restartIncrease n
      let limit := wholePart (factor * Float.ofInt s.options.restartFirst)
      let (s, answer) ← s.round fuel limit
      let (s, within) ← s.withinBudget
      if !within || answer ≠ .unknown then
        return (s, answer)
      else
        let s := (s.log (.searchRestart n)).report .restart
        rounds fuel more (n + 1) s

/-- The number of conflicts before the learnt limit grows for the first time. -/
def firstPeriod : Float := 100.0

/-- Sets the learnt limit by the number of problem clauses. -/
def startLearntLimit (s : Solver) : Solver :=
  let share := Float.ofNat s.numClauses * s.options.learntFactor
  let least := Float.ofInt s.options.minLearntLimit
  let learntLimit : LearntLimit :=
    { limit := if share < least then least else share
      period := firstPeriod
      remaining := wholePart firstPeriod }
  { s with learntLimit }

/-- The current values of all variables. -/
def assignment (s : Solver) : Array Truth := s.net.trail.values.cells

/-- Ends a search: keeps the model, remembers that the clauses cannot be satisfied,
and goes back to the root level. -/
def conclude (s : Solver) (answer : Truth) : Except Fault Solver := do
  let s := s.report (.result answer)
  let s := match answer with
    | .holds => { s with model := s.assignment }
    | .fails => { s with ok := false }
    | .unknown => s
  let s ← s.cancelUntil 0
  return { s with interrupted := false }.log (.searchResult answer)

/-- Searches for a model within the budget.  The answer is `holds` with a model,
`fails` if the clauses cannot be satisfied, and otherwise `unknown`.  A round has at
most `fuel` steps, and there are at most `fuel` rounds. -/
def solve (fuel : Nat) (s : Solver) : Except Fault (Solver × Truth) := do
  let s := { s with model := #[] }
  if !s.ok then
    return (s, .fails)
  let s ← s.cancelUntil 0
  let s := { s with
    pending := none
    budgetBase := (s.stats.conflicts, s.stats.propagations) }
  let s := (s.startLearntLimit.log .searchStart).report .start
  let (s, answer) ← rounds fuel fuel 0 s
  return (← s.conclude answer, answer)

/-- More steps than any search can make. -/
def ampleFuel : Nat := 0x4000000000000000

end Cdcl.Solver
