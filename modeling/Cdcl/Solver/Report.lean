import Cdcl.Solver.Basic
import Cdcl.Decimal.Fixed

/-!
# Reports

The texts that describe a solver: its statistics, and its last model as a line of
values.
-/

namespace Cdcl.Solver

open Decimal

/-- The share of decisions that were taken at random, in percent. -/
def randomShare (s : Statistics) : Float :=
  widen (Float32.ofNat s.randomDecisions * 100.0 / Float32.ofNat (max s.decisions 1))

/-- The share of literals that the shortening of learnt clauses removed, in
percent. -/
def removedShare (s : Statistics) : Float :=
  Float.ofNat (s.rawLiterals - s.keptLiterals) * 100.0 / Float.ofNat (max s.rawLiterals 1)

/-- A counter, filled up to a column. -/
def countText (n : Nat) : String := padRight 12 (toString n)

/-- The lines of the statistics. -/
def statisticsLines (s : Solver) : List String :=
  let t := s.stats
  [ "c restarts              : " ++ toString t.rounds,
    "c conflicts             : " ++ countText t.conflicts,
    "c decisions             : " ++ countText t.decisions ++
      "   (" ++ padLeft 4 (fixed 2 (randomShare t)) ++ " % random)",
    "c propagations          : " ++ countText t.propagations,
    "c conflict literals     : " ++ countText t.keptLiterals ++
      "   (" ++ padLeft 4 (fixed 2 (removedShare t)) ++ " % deleted)",
    "c replaced literals     : " ++ countText t.replacedLiterals ]

/-- The literal of a model value: the variable number with a sign, or nothing if the
variable has no value. -/
def modelLiteral (i : Nat) : Truth → String
  | .holds => toString (i + 1) ++ " "
  | .fails => "-" ++ toString (i + 1) ++ " "
  | .unknown => ""

/-- The last model as a line of values. -/
def modelLine (s : Solver) : String :=
  "v " ++ String.join (s.model.toList.zipIdx.map fun (t, i) => modelLiteral i t) ++ "0\n"

end Cdcl.Solver
