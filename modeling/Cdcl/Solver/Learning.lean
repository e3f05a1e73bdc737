import Cdcl.Solver.Analysis

/-!
# Learning from conflicts

A conflict is analysed, the levels above the one named by the analysis are undone,
and the learnt clause is stored; it implies its first literal at once.
-/

namespace Cdcl.Solver

/-- Goes back to the level of a lesson, stores its clause, and makes its asserting
literal true. -/
def assertLesson (s : Solver) (l : Lesson) : Except Fault Solver := do
  let lits := l.asserting :: l.others
  let s ← (s.log (.learnt lits l.level)).cancelUntil l.level
  match l.others with
  | [] =>
      ensure (l.level = 0)
      s.updateNet (·.enqueue l.asserting .decision)
  | _ :: _ =>
      let (net, id) ← s.net.addClause lits true
      let net ← net.bumpClause id
      let c ← net.clause id
      return { s with net := ← net.enqueue l.asserting (Network.reasonFrom id c) }

/-- Goes back to the root level, where the conflict shows that the clauses cannot
be satisfied. -/
def assertRootConflict (s : Solver) : Except Fault Solver := do
  let s ← (s.log (.learnt [] 0)).cancelUntil 0
  return { s with ok := false }

/-- Makes later conflicts count for more, in the activities of variables and of
clauses. -/
def decayActivities (s : Solver) : Solver :=
  let db := { s.net.db with increment := s.net.db.increment * (1.0 / s.options.clauseDecay) }
  { s with order := s.order.decay s.options.varDecay, net := { s.net with db } }

/-- Learns from a clause that is false. -/
def learn (s : Solver) (conflict : ClauseId) : Except Fault Solver := do
  match ← s.analyze conflict with
  | (s, some lesson) => return (← s.assertLesson lesson).decayActivities
  | (s, none) => return (← s.assertRootConflict).decayActivities

/-- Counts a conflict. -/
def countConflict (s : Solver) : Solver :=
  { s with stats := { s.stats with conflicts := s.stats.conflicts + 1 } }

/-- Learns from the pending conflict, if there is one.  The answer is no if the
clauses cannot be satisfied. -/
def resolveConflict (s : Solver) : Except Fault (Solver × Bool) := do
  match s.pending with
  | none => return (s, s.ok)
  | some id =>
      let s := { s with pending := none }.countConflict
      ensure (0 < s.level)
      let s ← s.learn id
      return (s, s.ok)

end Cdcl.Solver
