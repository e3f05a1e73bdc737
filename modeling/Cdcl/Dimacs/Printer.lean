import Cdcl.Literal

/-!
# Writing clauses

In the clause format, a clause is its literals as signed variable numbers, counted
from one, each followed by a blank, and then a zero.
-/

namespace Cdcl.Dimacs

/-- A literal as a signed number. -/
def literal (l : Lit) : String :=
  (if l.sign then "" else "-") ++ toString (l.var.index + 1)

/-- A clause as a line, without the line end. -/
def clause (lits : List Lit) : String :=
  String.join (lits.map fun l => literal l ++ " ") ++ "0"

end Cdcl.Dimacs
