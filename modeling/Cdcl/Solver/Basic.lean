import Cdcl.Network
import Cdcl.Order
import Cdcl.Outside

/-!
# The solver

The state of a conflict-driven solver, and the operations that create variables,
change settings and look things up.  A solver is created by `Solver.create`, which
refuses options outside their ranges.
-/

namespace Cdcl

/-- Counters that describe the work done so far. -/
structure Statistics where
  rounds : Nat := 0
  decisions : Nat := 0
  randomDecisions : Nat := 0
  propagations : Nat := 0
  conflicts : Nat := 0
  /-- Literals of learnt clauses before and after they are shortened. -/
  rawLiterals : Nat := 0
  keptLiterals : Nat := 0
  /-- Literals of unreliable variables that were replaced. -/
  replacedLiterals : Nat := 0
deriving DecidableEq, Repr, Inhabited

/-- The limit on learnt clauses, and when it is to grow. -/
structure LearntLimit where
  limit : Float := 0.0
  /-- Conflicts between the last growth and the next. -/
  period : Float := 0.0
  /-- Conflicts until the next growth. -/
  remaining : Int := 0
deriving Inhabited

/-- When the database is simplified again. -/
structure SimplifySchedule where
  /-- The number of assignments at the last simplification. -/
  assigned : Int := -1
  /-- Propagations to be made before the next one. -/
  propagations : Int := 0
deriving DecidableEq, Repr, Inhabited

/-- The state of a solver. -/
structure Solver where
  options : Options
  net : Network
  order : Order
  /-- What each variable stands for. -/
  info : DenseMap Var ChannelInfo
  /-- Variables marked by the analysis of a conflict. -/
  seen : Flags Var
  stats : Statistics := {}
  learntLimit : LearntLimit := {}
  schedule : SimplifySchedule := {}
  /-- Is the clause set not known to be unsatisfiable? -/
  ok : Bool := true
  /-- A clause found false, whose conflict has not been resolved. -/
  pending : Option ClauseId := none
  /-- The last model, if the last search found one. -/
  model : Array Truth := #[]
  interrupted : Bool := false
  budget : Budget := {}
  /-- The conflicts and propagations at the start of the search. -/
  budgetBase : Nat × Nat := (0, 0)
  stop : StopRule := {}
  outside : Outside := {}
  /-- How often a search has looked at the interrupt flag. -/
  looks : Nat := 0
deriving Inhabited

namespace Solver

/-- A solver without variables.  With `listening`, events are recorded. -/
def create (options : Options) (listening : Bool) (threshold : Option Severity)
    (outside : Outside := {}) : Except Fault Solver := do
  if options.valid then
    return {
      options
      outside
      net := .empty { threshold, listening }
      order := .empty options.randomSeed
      info := .empty
      seen := .empty }
  else
    throw .invalidOptions

/-- Applies an operation to the network. -/
@[inline] def updateNet (s : Solver) (f : Network → Except Fault Network) :
    Except Fault Solver :=
  let net := s.net
  let s := { s with net := default }
  match f net with
  | .ok net => .ok { s with net }
  | .error e => .error e

theorem updateNet_eq_ok {s s' : Solver} {f : Network → Except Fault Network} :
    s.updateNet f = .ok s' ↔ ∃ net, f s.net = .ok net ∧ s' = { s with net } := by
  unfold updateNet
  simp only
  split
  next h => simp [h, eq_comm]
  next h => simp [h]

/-- Applies an operation to the decision order. -/
@[inline] def updateOrder (s : Solver) (f : Order → Except Fault Order) :
    Except Fault Solver :=
  let order := s.order
  let s := { s with order := default }
  match f order with
  | .ok order => .ok { s with order }
  | .error e => .error e

theorem updateOrder_eq_ok {s s' : Solver} {f : Order → Except Fault Order} :
    s.updateOrder f = .ok s' ↔ ∃ order, f s.order = .ok order ∧ s' = { s with order } := by
  unfold updateOrder
  simp only
  split
  next h => simp [h, eq_comm]
  next h => simp [h]

/-- Logs a message. -/
def log (s : Solver) (m : Message) : Solver := { s with net := s.net.log m }

/-- Reports an event. -/
def report (s : Solver) (e : Event) : Solver := { s with net := s.net.report e }

/-! ## Looking things up -/

/-- The number of variables. -/
def numVars (s : Solver) : Nat := s.net.trail.numVars

/-- The number of problem clauses. -/
def numClauses (s : Solver) : Nat := s.net.db.problemTally.clauses

/-- The number of learnt clauses. -/
def numLearnts (s : Solver) : Nat := s.net.db.learntTally.clauses

/-- The decision level; 0 is the root. -/
def level (s : Solver) : Nat := s.net.trail.level

/-- The value of a variable. -/
def value (s : Solver) (v : Var) : Except Fault Truth := s.net.trail.value v

/-- The value of a literal. -/
def litValue (s : Solver) (l : Lit) : Except Fault Truth := s.net.trail.litValue l

/-- The value of a literal if it was assigned at the root level. -/
def rootValue (s : Solver) (l : Lit) : Except Fault Truth := s.net.trail.rootValue l

/-- The literals assigned at the root level. -/
def proved (s : Solver) : List Lit := s.net.trail.root

/-- The value of a literal in the last model. -/
def modelValue (s : Solver) (l : Lit) : Truth :=
  match s.model[l.var.index]? with
  | some t => t.flipIf (!l.sign)
  | none => .unknown

/-- The description of a variable. -/
def infoOf (s : Solver) (v : Var) : Except Fault ChannelInfo := s.info.get v

/-- May the variable occur in a learnt clause as an implied literal? -/
def isReliable (s : Solver) (v : Var) : Except Fault Bool := do
  return (← s.info.get v).reliable

/-! ## Settings -/

/-- Says whether a variable is reliable, for the conflicts to come. -/
def setReliable (s : Solver) (v : Var) (b : Bool) : Except Fault Solver := do
  let info ← s.info.get v
  return { s with info := ← s.info.set v { info with reliable := b } }

/-- Says whether a variable is observed. -/
def setObserved (s : Solver) (v : Var) (b : Bool) : Except Fault Solver := do
  let observed ← s.net.observed.set v b
  return { s with net := { s.net with observed } }

/-- Says whether a variable may be decided. -/
def setDecision (s : Solver) (v : Var) (b : Bool) : Except Fault Solver :=
  s.updateOrder (·.setEligible v b)

/-- Sets the caps for the searches to come. -/
def setBudget (s : Solver) (b : Budget) : Solver := { s with budget := b }

/-- Raises or clears the flag that stops a search. -/
def setInterrupt (s : Solver) (b : Bool) : Solver := { s with interrupted := b }

/-- Replaces the stop callback, and counts its polls from zero. -/
def setStop (s : Solver) (answer : Nat → Bool) : Solver :=
  { s with stop := { polls := 0, answer } }

/-! ## Variables -/

/-- Adds a variable. -/
def newVar (s : Solver) (spec : VarSpec) : Except Fault (Solver × Var) := do
  let v : Var := ⟨s.numVars⟩
  let _ ← Var.make (s.numVars + 1)
  let order ← s.order.addVar v s.options.randomActivity spec.polarity spec.decision
  let s := { s with
    net := s.net.addVar v spec.observed
    order
    info := s.info.insert v {} spec.info
    seen := s.seen.reserve v false }
  return (s.log (.newVar v), v)

/-- Adds `n` variables. -/
def newVars (spec : VarSpec) : Nat → Solver → Except Fault Solver
  | 0, s => .ok s
  | n + 1, s => do
      let (s, _) ← s.newVar spec
      newVars spec n s

/-- The variable of an index, adding variables up to it if needed. -/
def varOfIndex (s : Solver) (i : Nat) : Except Fault (Solver × Var) := do
  let s ← newVars {} (i + 1 - s.numVars) s
  return (s, ← Var.make i)

end Solver

end Cdcl
