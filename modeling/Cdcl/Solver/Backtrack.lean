import Cdcl.Solver.Basic
import Cdcl.Propagation

/-!
# Levels

Opening levels, deciding and backtracking.  Backtracking takes literals off the
trail one by one, the last first; each variable that loses its value may have its
sign remembered and goes back into the heap.
-/

namespace Cdcl.Solver

/-- Begins a level. -/
def pushLevel (s : Solver) : Solver :=
  let s := { s with net := { s.net with trail := s.net.trail.openLevel } }
  s.log (.newLevel s.level)

/-- Begins a level with the given literal, which may not have a value. -/
def decide (s : Solver) (p : Lit) : Except Fault Solver := do
  ensure ((← s.litValue p) = .unknown)
  let s := { s with stats := { s.stats with decisions := s.stats.decisions + 1 } }
  let s := s.pushLevel.log (.decide p)
  s.updateNet (·.enqueue p .decision)

/-- Is the sign of the literal at trail position `i` remembered, where the last
level begins at `last`? -/
def savesPhase (mode : PhaseSaving) (last i : Nat) : Bool :=
  match mode with
  | .full => true
  | .limited => last < i
  | .none => false

/-- Takes the last `n` literals off the trail. -/
def undo (mode : PhaseSaving) (last : Nat) :
    Nat → Trail → Order → Except Fault (Trail × Order)
  | 0, t, o => .ok (t, o)
  | n + 1, t, o => do
      let (t, p) ← t.pop
      undo mode last n t (← o.release (savesPhase mode last t.size) p)

/-- Goes back to the end of a level below the current one. -/
def backtrack (s : Solver) (level : Nat) : Except Fault Solver := do
  let t := s.net.trail
  let cut ← t.levelEnd level
  let last ← t.levelEnd (t.level - 1)
  let count ← checkedSub t.size cut
  let (t, order) ← undo s.options.phaseSaving last count t s.order
  let trail := { t with marks := t.marks.shrink level, head := cut }
  return { s with net := { s.net with trail }, order }

/-- Goes back to the end of a level, if it is below the current one.  A pending
conflict is dropped with the levels. -/
def cancelUntil (s : Solver) (level : Nat) : Except Fault Solver := do
  if level < s.level then
    let s ← (s.log (.cancelUntil level)).backtrack level
    return { s with pending := none }
  else
    return s

/-- Propagates everything that waits on the trail.  Answers with the clause found
false, if any. -/
def propagateAll (s : Solver) : Except Fault (Solver × Option ClauseId) := do
  let net := s.net
  let s := { s with net := default }
  let (net, conflict, count) ← net.propagate
  let stats := { s.stats with propagations := s.stats.propagations + count }
  let schedule := { s.schedule with propagations := s.schedule.propagations - count }
  return ({ s with net, stats, schedule }, conflict)

/-- Propagates everything that waits on the trail.  A conflict above the root level
is kept pending, and one at the root level makes the solver unsatisfiable; in both
cases the answer is no. -/
def propagate (s : Solver) : Except Fault (Solver × Bool) := do
  if !s.ok || s.pending.isSome then
    return (s, false)
  match ← s.propagateAll with
  | (s, none) => return (s, true)
  | (s, some id) =>
      if s.level = 0 then
        return ({ s with ok := false }, false)
      else
        return ({ s with pending := some id }, false)

end Cdcl.Solver
