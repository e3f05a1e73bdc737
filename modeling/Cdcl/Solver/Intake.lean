import Cdcl.Solver.Backtrack

/-!
# Adding clauses

A clause may be added at any level.  It is sorted, and repeated literals and those
false at the root level are dropped; a clause with a literal that is true at the
root level, or with a literal and its negation, is not stored at all.

Above the root level the solver goes back only as far as it must for the clause to
be watched: to the level where it implies its first literal, or to where at least
two of its literals are not false.

* `normalize` drops literals, `arrange` chooses the literals to watch;
* `addClause` answers no if the clauses cannot be satisfied any more.
-/

namespace Cdcl

/-- Sorts literals by code. -/
def Lit.sort (lits : List Lit) : List Lit := lits.mergeSort fun a b => a.code ≤ b.code

namespace Solver

/-- The literals of a sorted clause that are worth keeping. -/
inductive Normal where
  /-- The clause is satisfied whatever happens; `kept` are the literals that were
  kept before this showed. -/
  | satisfied (kept : List Lit)
  | clause (lits : List Lit)

/-- Drops repetitions and literals false at the root level from a sorted clause;
`kept` are the literals kept so far, the last first. -/
def normalizeFrom (t : Trail) (kept : List Lit) : List Lit → Except Fault Normal
  | [] => .ok (.clause kept.reverse)
  | l :: ls => do
      let value ← t.rootValue l
      if value = .holds || kept.head? = some (-l) then
        return .satisfied kept.reverse
      else if value ≠ .fails && kept.head? ≠ some l then
        normalizeFrom t (l :: kept) ls
      else
        normalizeFrom t kept ls

/-- Drops repetitions and literals false at the root level from a sorted clause. -/
def normalize (t : Trail) (lits : List Lit) : Except Fault Normal :=
  normalizeFrom t [] lits

/-- Makes a literal a fact of the root level and propagates.  The answer is no if
the clauses cannot be satisfied any more. -/
def assertUnit (s : Solver) (l : Lit) : Except Fault (Solver × Bool) := do
  let s ← s.updateNet (·.enqueue l .decision)
  match ← s.propagateAll with
  | (s, none) => return (s, true)
  | (s, some _) => return ({ s with ok := false }, false)

/-- What the choice of watched literals looks at. -/
structure Ranked where
  lit : Lit
  value : Truth
  level : Nat

/-- Looks up what the choice of watched literals depends on. -/
def rank (t : Trail) (l : Lit) : Except Fault Ranked := do
  return ⟨l, ← t.litValue l, ← t.levelOf l.var⟩

/-- Literals without a value come first, then those of higher levels; ties go by
code. -/
def Ranked.le (a b : Ranked) : Bool :=
  if a.value = .unknown then
    b.value ≠ .unknown || a.lit.code ≤ b.lit.code
  else if b.value = .unknown then
    false
  else if a.level = b.level then
    a.lit.code ≤ b.lit.code
  else
    b.level < a.level

/-- Puts the literals to be watched first. -/
def arrange (t : Trail) (lits : List Lit) : Except Fault (List Ranked) := do
  return (← lits.mapM (rank t)).mergeSort Ranked.le

/-- What has to be done before a clause, with its literals arranged, is stored. -/
inductive Retreat where
  /-- Nothing: two literals are not false, or the first is true in good time. -/
  | stay
  /-- All literals are false, and two of them at the same level: go below it. -/
  | below (level : Nat)
  /-- Go to the level at which the clause implies its first literal. -/
  | assertAt (level : Nat)
deriving DecidableEq, Repr

/-- How far the solver has to go back for a clause, judged by its first two
literals. -/
def Retreat.of (a b : Ranked) : Retreat :=
  if b.value = .fails then
    if a.value = .fails ∧ a.level = b.level then .below b.level
    else if a.value = .unknown ∨ b.level < a.level then .assertAt b.level
    else .stay
  else
    .stay

/-- Adds a clause of at least two literals above the root level. -/
def insertArranged (s : Solver) (a b : Ranked) (lits : List Lit) : Except Fault Solver := do
  match Retreat.of a b with
  | .stay =>
      let (net, _) ← s.net.addClause lits false
      return { s with net }
  | .below level =>
      let s ← s.cancelUntil (← checkedSub level 1)
      let (net, _) ← s.net.addClause lits false
      return { s with net }
  | .assertAt level =>
      let s ← s.cancelUntil level
      let (net, id) ← s.net.addClause lits false
      let c ← net.clause id
      return { s with net := ← net.enqueue a.lit (Network.reasonFrom id c) }

/-- Adds a clause at the root level. -/
def addAtRoot (s : Solver) (lits : List Lit) :
    Except Fault (Solver × Bool × List Lit) := do
  let sorted := Lit.sort lits
  match ← normalize s.net.trail sorted with
  | .satisfied kept => return (s, true, kept ++ sorted.drop kept.length)
  | .clause [] => return ({ s with ok := false }, false, [])
  | .clause [l] =>
      let (s, answer) ← s.assertUnit l
      return (s, answer, [l])
  | .clause lits =>
      let (net, _) ← s.net.addClause lits false
      return ({ s with net }, true, lits)

/-- Adds a clause above the root level. -/
def addAboveRoot (s : Solver) (lits : List Lit) :
    Except Fault (Solver × Bool × List Lit) := do
  let sorted := Lit.sort lits
  match ← normalize s.net.trail sorted with
  | .satisfied kept => return (s, true, kept ++ sorted.drop kept.length)
  | .clause [] => return ({ s with ok := false }, false, [])
  | .clause [l] =>
      let s ← s.cancelUntil 0
      let (s, answer) ← s.assertUnit l
      return (s, answer, [l])
  | .clause lits =>
      match ← arrange s.net.trail lits with
      | a :: b :: rest =>
          let lits := (a :: b :: rest).map (·.lit)
          return (← s.insertArranged a b lits, true, lits)
      | _ => throw .outOfRange

/-- Adds a clause.  The answer is no if the clauses cannot be satisfied any more.
Also answers with the literals in the order in which they were left. -/
def addClauseReporting (s : Solver) (lits : List Lit) :
    Except Fault (Solver × Bool × List Lit) := do
  if !s.ok then
    return (s, false, lits)
  if s.level = 0 then
    (s.log (.addAtRoot lits)).addAtRoot lits
  else
    (s.log (.addAtLevel lits s.level)).addAboveRoot lits

/-- Adds a clause.  The answer is no if the clauses cannot be satisfied any more. -/
def addClause (s : Solver) (lits : List Lit) : Except Fault (Solver × Bool) := do
  let (s, answer, _) ← s.addClauseReporting lits
  return (s, answer)

end Solver

end Cdcl
