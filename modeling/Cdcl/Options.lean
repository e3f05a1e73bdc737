import Cdcl.Channel

/-!
# Options and budgets

The parameters of a solver, with the ranges in which they are accepted, and the
caps on one call of the search.
-/

namespace Cdcl

/-- How learnt clauses are shortened. -/
inductive Minimization where
  | none
  /-- Drop each literal whose reason consists of literals of the clause. -/
  | basic
deriving DecidableEq, Repr, Inhabited

namespace Minimization

/-- The mode with a number: 0 for none, 1 for basic. -/
def ofLevel? (n : Int) : Option Minimization :=
  if n = 0 then some none else if n = 1 then some basic else Option.none

/-- The printed form. -/
def text : Minimization → String
  | none => "None"
  | basic => "Basic"

end Minimization

/-- When the value of a variable is remembered as it is unassigned. -/
inductive PhaseSaving where
  | none
  /-- Only on the last of the levels that are undone. -/
  | limited
  | full
deriving DecidableEq, Repr, Inhabited

namespace PhaseSaving

/-- The mode with a number: 0 for none, 1 for limited, 2 for full. -/
def ofLevel? (n : Int) : Option PhaseSaving :=
  if n = 0 then some none
  else if n = 1 then some limited
  else if n = 2 then some full
  else Option.none

/-- The printed form. -/
def text : PhaseSaving → String
  | none => "None"
  | limited => "Limited"
  | full => "Full"

end PhaseSaving

/-- The parameters of a solver. -/
structure Options where
  varDecay : Float := 0.95
  clauseDecay : Float := 0.999
  /-- How often a decision takes a random variable. -/
  randomVarFreq : Float := 0.0
  randomSeed : Float := 91648253.0
  minimization : Minimization := .basic
  phaseSaving : PhaseSaving := .full
  /-- Choose the sign of decisions at random. -/
  randomPolarity : Bool := false
  /-- Start variables with a small random activity. -/
  randomActivity : Bool := false
  lubyRestart : Bool := true
  restartFirst : Int := 100
  restartIncrease : Float := 2.0
  /-- The share of dead words at which the arena is compacted. -/
  garbageFraction : Float := 0.20
  minLearntLimit : Int := 0
  /-- The first limit on learnt clauses, as a share of the problem clauses. -/
  learntFactor : Float := 1.0 / 3.0
  /-- The factor by which that limit grows. -/
  learntIncrease : Float := 1.1
  /-- Remove satisfied problem clauses in simplification too. -/
  removeSatisfied : Bool := true
deriving Inhabited

namespace Options

/-- Greater than every finite number. -/
def infinity : Float := 1.0 / 0.0

/-- Is every parameter in its range? -/
def valid (o : Options) : Bool :=
  (0.0 < o.varDecay && o.varDecay < 1.0) &&
  (0.0 < o.clauseDecay && o.clauseDecay < 1.0) &&
  (0.0 ≤ o.randomVarFreq && o.randomVarFreq ≤ 1.0) &&
  (0.0 < o.randomSeed && o.randomSeed < infinity) &&
  1 ≤ o.restartFirst &&
  (1.0 < o.restartIncrease && o.restartIncrease < infinity) &&
  (0.0 < o.garbageFraction && o.garbageFraction < infinity) &&
  0 ≤ o.minLearntLimit &&
  (0.0 < o.learntFactor && o.learntFactor < infinity) &&
  (1.0 ≤ o.learntIncrease && o.learntIncrease < infinity)

end Options

/-- Caps on one call of the search; each counter starts from zero at the call. -/
structure Budget where
  conflicts : Option Nat := none
  propagations : Option Nat := none
deriving DecidableEq, Repr, Inhabited

/-- The printed form. -/
def Budget.text (b : Budget) : String :=
  "Budget \x7b conflicts: " ++ optionText toString b.conflicts ++
    ", propagations: " ++ optionText toString b.propagations ++ " \x7d"

end Cdcl
