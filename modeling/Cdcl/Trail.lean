import Cdcl.DenseMap
import Cdcl.Truth
import Cdcl.Arena

/-!
# The trail

The trail is the partial assignment, as the list of literals made true in the order
in which that happened.  It is cut into levels: a mark stands where each level
begins, and what lies before the first mark is the root level.  For each variable
the trail knows its value and, once assigned, the level and the reason.

Literals from `head` on have not been propagated yet.
-/

namespace Cdcl

/-- Why a variable has its value.  Problem clauses of two and three literals are
not named: their other literals, which are false, stand in the reason itself. -/
inductive Reason where
  /-- A decision, or a fact of the root level. -/
  | decision
  | binary (a : Lit)
  | ternary (a b : Lit)
  /-- A clause whose first literal is the one implied. -/
  | clause (id : ClauseId)
deriving DecidableEq, Repr, Inhabited

/-- How a variable came to its value, and at which level. -/
structure Origin where
  reason : Reason := .decision
  level : Nat := 0
deriving DecidableEq, Repr, Inhabited

/-- The partial assignment. -/
structure Trail where
  values : DenseMap Var Truth
  origins : DenseMap Var Origin
  lits : Array Lit
  /-- Where each level above the root begins. -/
  marks : Array Nat
  /-- How many literals have been propagated. -/
  head : Nat
deriving Inhabited

namespace Trail

/-- The trail without variables. -/
def empty : Trail := ⟨.empty, .empty, #[], #[], 0⟩

/-- The number of variables. -/
def numVars (t : Trail) : Nat := t.values.size

/-- The number of assigned variables. -/
def size (t : Trail) : Nat := t.lits.size

/-- The number of levels above the root. -/
def level (t : Trail) : Nat := t.marks.size

/-- The value of a variable. -/
@[inline] def value (t : Trail) (v : Var) : Except Fault Truth := t.values.get v

/-- The value of a literal. -/
@[inline] def litValue (t : Trail) (l : Lit) : Except Fault Truth := do
  return (← t.values.get l.var).flipIf (!l.sign)

/-- The level at which a variable was last assigned. -/
@[inline] def levelOf (t : Trail) (v : Var) : Except Fault Nat := do
  return (← t.origins.get v).level

/-- The reason for which a variable was last assigned. -/
@[inline] def reasonOf (t : Trail) (v : Var) : Except Fault Reason := do
  return (← t.origins.get v).reason

/-- The value of a literal if it was assigned at the root level. -/
def rootValue (t : Trail) (l : Lit) : Except Fault Truth := do
  let value ← t.litValue l
  if (← t.levelOf l.var) = 0 then return value else return .unknown

/-- Adds a variable. -/
def addVar (t : Trail) (v : Var) : Trail :=
  { t with
    values := t.values.insert v .unknown .unknown
    origins := t.origins.insert v {} {} }

/-- Makes a literal true, which may not have a value yet. -/
def push (t : Trail) (p : Lit) (r : Reason) : Except Fault Trail := do
  if (← t.litValue p) = .unknown then
    let ⟨values, origins, lits, marks, head⟩ := t
    let values ← values.set p.var (.ofBool p.sign)
    let origins ← origins.set p.var ⟨r, marks.size⟩
    return ⟨values, origins, lits.push p, marks, head⟩
  else
    throw (.alreadyAssigned p)

/-- Begins a level. -/
def openLevel (t : Trail) : Trail := { t with marks := t.marks.push t.lits.size }

/-- Takes the last literal off and forgets its value. -/
def pop (t : Trail) : Except Fault (Trail × Lit) := do
  match t.lits.back? with
  | some p =>
      let values ← t.values.set p.var .unknown
      return ({ t with values, lits := t.lits.pop }, p)
  | none => throw .outOfRange

/-- The position at which the given level above the root ends. -/
def levelEnd (t : Trail) (level : Nat) : Except Fault Nat :=
  match t.marks[level]? with
  | some i => .ok i
  | none => .error .outOfRange

/-- The literals assigned at the root level. -/
def root (t : Trail) : List Lit :=
  match t.marks[0]? with
  | some i => t.lits.toList.take i
  | none => t.lits.toList

/-- The lengths of the levels that begin at `start` and at the given marks, on a trail of
`size` literals. -/
def levelSizesFrom (size start : Nat) : List Nat → Except Fault (List Nat)
  | [] => do return [← checkedSub size start]
  | m :: ms => do return (← checkedSub m start) :: (← levelSizesFrom size m ms)

/-- The lengths of the levels, the root first. -/
def levelSizes (t : Trail) : Except Fault (List Nat) :=
  levelSizesFrom t.lits.size 0 t.marks.toList

/-- Forgets the reason of a variable. -/
def forgetReason (t : Trail) (v : Var) : Except Fault Trail := do
  let o ← t.origins.get v
  return { t with origins := ← t.origins.set v { o with reason := .decision } }

end Trail

end Cdcl
