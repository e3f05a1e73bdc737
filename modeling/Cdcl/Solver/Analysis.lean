import Cdcl.Solver.Backtrack

/-!
# Conflict analysis

From a clause that is false, the analysis derives a clause to learn.  It walks the
trail backwards and resolves away the literals of the conflict level, until one of
them is left: the asserting literal.  The literals of lower levels are collected on
the way.

A level may be opened before everything has been propagated.  Then no literal of
the conflict level may take part at all, and the walk resumes at the highest level
that does.  If no level is left, the conflict follows from the root level alone.

An unreliable variable may stay in the learnt clause only as a decision: an implied
one is resolved away, also as the asserting literal.

* `absorb` takes the literals of one clause in, `settle` finds the level at which
  the walk goes on, `walk` is the walk;
* `replaceUnreliable` and `minimize` rework the collected literals;
* `gather` resolves, `compose` makes a lesson of what has been gathered, `testLesson` tests
  it, and `analyze` puts these together.
-/

namespace Cdcl

/-- What has been gathered from the clauses resolved so far. -/
structure Resolvent where
  /-- Literals of levels below the conflict level. -/
  others : Array Lit
  /-- How many literals of the conflict level are still to be resolved. -/
  pending : Nat
  /-- The conflict level. -/
  level : Nat
deriving Inhabited

/-- A clause to learn: the asserting literal, the other literals, and the level to
go back to. -/
structure Lesson where
  asserting : Lit
  others : List Lit
  level : Nat
deriving Repr, Inhabited

namespace Solver

/-- Marks a variable. -/
@[inline] def mark (s : Solver) (v : Var) : Except Fault Solver := do
  return { s with seen := ← s.seen.set v true }

/-- Takes the mark of a variable away. -/
@[inline] def unmark (s : Solver) (v : Var) : Except Fault Solver := do
  return { s with seen := ← s.seen.set v false }

/-- Takes the literals of a clause into the resolvent.  Variables that are marked
already, or that were assigned at the root level, are passed over. -/
def absorb (s : Solver) (r : Resolvent) : List Lit → Except Fault (Solver × Resolvent)
  | [] => .ok (s, r)
  | q :: qs => do
      let level ← s.net.trail.levelOf q.var
      ensure (level ≤ r.level)
      if !(← s.seen.get q.var) && 0 < level then
        let s ← s.updateOrder (·.bump q.var)
        let s ← s.mark q.var
        if level = r.level then
          absorb s { r with pending := r.pending + 1 } qs
        else
          absorb s { r with others := r.others.push q } qs
      else
        absorb s r qs

/-- The greatest level of the literals, or zero. -/
def greatestLevel (t : Trail) : List Lit → Except Fault Nat
  | [] => .ok 0
  | l :: ls => do return max (← t.levelOf l.var) (← greatestLevel t ls)

/-- Splits literals into those of a level, which are counted, and the others. -/
def splitLevel (t : Trail) (level : Nat) :
    List Lit → Except Fault (Nat × List Lit)
  | [] => .ok (0, [])
  | l :: ls => do
      let (n, others) ← splitLevel t level ls
      if (← t.levelOf l.var) = level then
        return (n + 1, others)
      else
        return (n, l :: others)

/-- Finds the level at which the walk goes on, when no literal of the conflict
level is left to be resolved.  Answers with no resolvent if the conflict follows
from the root level. -/
def settle (s : Solver) (r : Resolvent) : Except Fault (Solver × Option Resolvent) := do
  if r.pending ≠ 0 then
    return (s, some r)
  let level ← greatestLevel s.net.trail r.others.toList
  if level = 0 then
    ensure (Flags.isClear s.seen)
    return (s.log .rootConflict, none)
  else
    let (pending, others) ← splitLevel s.net.trail level r.others.toList
    return (s.log (.resume level), some { others := others.toArray, pending, level })

/-- Counts a use of a clause, if it is learnt. -/
def countUse (s : Solver) (id : ClauseId) : Except Fault Solver := do
  if (← s.net.clause id).learnt then s.updateNet (·.bumpClause id) else return s

/-- The literals that stand behind an assigned literal `p`.  A use of a learnt
clause is counted. -/
def explain (s : Solver) (p : Lit) (pending : Nat) (r : Reason) :
    Except Fault (Solver × List Lit) := do
  match r with
  | .decision => throw (.decisionReached p pending)
  | .binary a => return (s, [a])
  | .ternary a b => return (s, [a, b])
  | .clause id =>
      let s ← s.countUse id
      let c ← s.net.clause id
      ensure (c.first = p)
      return (s, c.premises)

/-- Walks along the trail, whose literals are listed with the last first, and
resolves the literals of the conflict level away.  Answers with the asserting
literal, negated, and the other literals, or with nothing if the conflict follows
from the root level. -/
def walk (s : Solver) (r : Resolvent) :
    List Lit → Except Fault (Solver × Option (Lit × List Lit))
  | [] => .error .overflow
  | p :: below => do
      if ← s.seen.get p.var then
        let reason ← s.net.trail.reasonOf p.var
        let s ← s.unmark p.var
        let pending ← checkedSub r.pending 1
        let unreliable := !(← s.isReliable p.var) && reason ≠ .decision
        if pending = 0 && !unreliable then
          return (s, some (p, r.others.toList))
        let s := if pending = 0 then s.log (.skipUnreliable p) else s
        let (s, lits) ← s.explain p pending reason
        let (s, r) ← s.absorb { r with pending } lits
        match ← s.settle r with
        | (s, some r) => walk s r below
        | (s, none) => return (s, none)
      else
        walk s r below

/-- Resolves a false clause up to the asserting literal. -/
def resolve (s : Solver) (conflict : ClauseId) :
    Except Fault (Solver × Option (Lit × List Lit)) := do
  let s ← s.countUse conflict
  let c ← s.net.clause conflict
  let (s, r) ← s.absorb { others := #[], pending := 0, level := s.level } c.lits
  match ← s.settle r with
  | (s, some r) => s.walk r s.net.trail.lits.toList.reverse
  | (s, none) => return (s, none)

/-- Marks those of the literals that are new and not of the root level, and appends
them to the collected literals and to the list of marks. -/
def absorbPremises (s : Solver) (others marked : Array Lit) :
    List Lit → Except Fault (Solver × Array Lit × Array Lit)
  | [] => .ok (s, others, marked)
  | q :: qs => do
      if !(← s.seen.get q.var) && 0 < (← s.net.trail.levelOf q.var) then
        let s ← s.mark q.var
        let s ← s.updateOrder (·.bump q.var)
        absorbPremises s (others.push q) (marked.push q) qs
      else
        absorbPremises s others marked qs

/-- The array without the entry at `i`, whose place the last entry takes. -/
def swapErase (lits : Array Lit) (i : Nat) : Array Lit :=
  match lits.back? with
  | some last => (lits.setIfInBounds i last).pop
  | none => lits

/-- Replaces each unreliable implied literal from place `i` on by its premises, and
those in turn.  A replaced variable stays marked, so it does not come back.  Each of
the `fuel` steps passes one literal or replaces one. -/
def replaceUnreliable : Nat → Solver → Array Lit → Array Lit → Nat →
    Except Fault (Solver × Array Lit × Array Lit)
  | fuel, s, others, marked, i =>
      match others[i]? with
      | none => .ok (s, others, marked)
      | some q =>
          match fuel with
          | 0 => .error .outOfFuel
          | fuel + 1 => do
              let reason ← s.net.trail.reasonOf q.var
              if (← s.isReliable q.var) || reason = .decision then
                replaceUnreliable fuel s others marked (i + 1)
              else
                let premises ← s.net.premises reason
                let stats := { s.stats with
                  replacedLiterals := s.stats.replacedLiterals + 1 }
                let s := { s with stats }.log (.replaceUnreliable q premises)
                let (s, others, marked) ←
                  s.absorbPremises (swapErase others i) marked premises
                replaceUnreliable fuel s others marked i

/-- Is one of the literals neither marked nor of the root level? -/
def anyUncovered (s : Solver) : List Lit → Except Fault Bool
  | [] => .ok false
  | q :: qs => do
      if !(← s.seen.get q.var) && 0 < (← s.net.trail.levelOf q.var) then
        return true
      else
        anyUncovered s qs

/-- Drops each literal whose premises are all marked or of the root level. -/
def minimize (s : Solver) (others : List Lit) : Except Fault (List Lit) := do
  match s.options.minimization with
  | .none => return others
  | .basic =>
      others.filterM fun l => do
        match ← s.net.trail.reasonOf l.var with
        | .decision => return true
        | reason => s.anyUncovered (← s.net.premises reason)

/-- The place of the first literal of the greatest level among those from place `i`
on, and its level; `best` and `level` are the place and level found before. -/
def latest (t : Trail) (best level i : Nat) : List Lit → Except Fault (Nat × Nat)
  | [] => .ok (best, level)
  | l :: ls => do
      let here ← t.levelOf l.var
      if level < here then latest t i here (i + 1) ls else latest t best level (i + 1) ls

/-- Puts a literal of the greatest level first, in exchange with the one that was
there.  Answers with that level too, which is zero if there is no literal. -/
def latestFirst (t : Trail) (others : List Lit) : Except Fault (List Lit × Nat) := do
  match others with
  | [] => return ([], 0)
  | l :: ls =>
      let (best, level) ← latest t 0 (← t.levelOf l.var) 1 ls
      return (others.toArray.swapIfInBounds best 0 |>.toList, level)

/-- Takes the marks of the listed literals away. -/
def clearMarks (s : Solver) : List Lit → Except Fault Solver
  | [] => .ok s
  | l :: ls => do clearMarks (← s.unmark l.var) ls

/-- Do all the literals have the given value? -/
def allHave (t : Trail) (value : Truth) : List Lit → Except Fault Bool
  | [] => .ok true
  | l :: ls => do if (← t.litValue l) = value then allHave t value ls else return false

/-- May all the literals occur in a learnt clause behind the first place? -/
def allAdmissible (s : Solver) : List Lit → Except Fault Bool
  | [] => .ok true
  | l :: ls => do
      if (← s.isReliable l.var) || (← s.net.trail.reasonOf l.var) = .decision then
        allAdmissible s ls
      else
        return false

/-- Resolves a false clause up to the asserting literal, which is true before it is
negated.  Answers with that literal and the others, or with nothing if the conflict follows
from the root level. -/
def gather (s : Solver) (conflict : ClauseId) :
    Except Fault (Solver × Option (Lit × List Lit)) := do
  ensure (Flags.isClear s.seen)
  let place := (← s.net.db.arena.stored conflict).place
  match ← (s.log (.analyze place s.level)).resolve conflict with
  | (s, none) => return (s, none)
  | (s, some (p, others)) =>
      ensure ((← s.litValue p) = .holds)
      return (s, some (p, others))

/-- Replaces the unreliable implied literals among those that have been collected.  Answers
with the literals that are left, and with those whose variables are marked. -/
def replaceAll (s : Solver) (others : List Lit) : Except Fault (Solver × Array Lit × Array Lit) :=
  replaceUnreliable (others.length + s.numVars) s others.toArray others.toArray 0

/-- Counts the lengths of a clause to learn behind its first literal, before and after it is
shortened. -/
def countLiterals (s : Solver) (raw kept : Nat) : Solver :=
  { s with stats := { s.stats with
    rawLiterals := s.stats.rawLiterals + raw + 1
    keptLiterals := s.stats.keptLiterals + kept + 1 } }

/-- Makes a lesson of the literals that have been gathered: replaces those that may not be
learnt, shortens and arranges what is left, and takes the marks away. -/
def compose : Solver × Option (Lit × List Lit) → Except Fault (Solver × Option Lesson)
  | (s, none) => .ok (s, none)
  | (s, some (p, others)) => do
      let (s, others, marked) ← s.replaceAll others
      let kept ← s.minimize others.toList
      let s := s.countLiterals others.size kept.length
      let (kept, level) ← latestFirst s.net.trail kept
      let s ← s.clearMarks marked.toList
      ensure (← allHave s.net.trail .fails (-p :: kept))
      return (s, some { asserting := -p, others := kept, level })

/-- Derives a clause to learn from a clause that is false.  Answers with nothing if the
conflict follows from the root level. -/
def derive (s : Solver) (conflict : ClauseId) : Except Fault (Solver × Option Lesson) := do
  compose (← s.gather conflict)

/-- Tests whether a lesson may be learnt. -/
def testLesson : Solver × Option Lesson → Except Fault (Solver × Option Lesson)
  | (s, none) => .ok (s, none)
  | (s, some lesson) => do
      ensure (← s.allAdmissible lesson.others)
      return (s, some lesson)

/-- Derives a clause to learn, and tests it at the end. -/
def analyze (s : Solver) (conflict : ClauseId) : Except Fault (Solver × Option Lesson) := do
  testLesson (← s.derive conflict)

end Solver

end Cdcl
