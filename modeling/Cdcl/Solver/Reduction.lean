import Cdcl.Solver.Collection

/-!
# Reducing the learnt clauses

When there are too many learnt clauses, the less active half of them is given up,
together with those of the other half whose activity is very low.  Clauses of two
literals stay, and so do clauses that are the reason of an assignment.
-/

namespace Cdcl

namespace Network

/-- Looks up what decides whether a learnt clause is kept. -/
def candidate (n : Network) (id : ClauseId) : Except Fault Candidate := do
  let c ← n.clause id
  ensure c.learnt
  return ⟨id, c.size ≤ 2, c.activity⟩

/-- The learnt clauses in the order that `sort` gives them, those to be given up first.
Activities that are not numbers cannot be compared. -/
def candidates (n : Network) (sort : List Candidate → List Candidate) :
    Except Fault (List Candidate) := do
  let cs ← n.db.learnts.toList.mapM n.candidate
  if 2 ≤ cs.length && cs.any (·.activity.isNaN) then
    throw .incomparableActivities
  else
    return sort cs

/-- Gives up the listed clauses that are long and in use by no assignment, and that
stand before place `half` or are less active than `bound`; `i` is the place of the
first of them.  Answers with the clauses that stay, after those already `kept`. -/
def prune (n : Network) (half : Nat) (bound : Float) (kept : Array ClauseId) (i : Nat) :
    List Candidate → Except Fault (Network × Array ClauseId)
  | [] => .ok (n, kept)
  | c :: cs => do
      let idle := !c.short && !(← n.locked c.id)
      if idle && (i < half || widen c.activity < bound) then
        let n ← n.removeClause c.id
        prune n half bound kept (i + 1) cs
      else
        prune n half bound (kept.push c.id) (i + 1) cs

/-- Is every clause that is the reason of an assignment live? -/
def reasonsLive (n : Network) : List Lit → Except Fault Bool
  | [] => .ok true
  | l :: ls => do
      match ← n.trail.reasonOf l.var with
      | .clause id => if n.db.arena.contains id then reasonsLive n ls else return false
      | _ => reasonsLive n ls

/-- Gives up learnt clauses that are of little use, in the order that `sort` gives them. -/
def reduceLearnts (n : Network) (sort : List Candidate → List Candidate) :
    Except Fault Network := do
  let count := n.db.learnts.size
  let bound := n.db.increment / Float.ofNat count
  let n := n.log .reduceStart
  let (n, learnts) ← n.prune (count / 2) bound #[] 0 (← n.candidates sort)
  let n := { n with db := { n.db with learnts } }
  let n := n.log (.reduceDone (count - learnts.size))
  ensure (← n.reasonsLive n.trail.lits.toList)
  return n

end Network

namespace Solver

/-- Gives up learnt clauses that are of little use, in the order that `sort` gives them,
and compacts the arena if that leaves it wasteful. -/
def reduceBy (sort : List Candidate → List Candidate) (s : Solver) : Except Fault Solver := do
  let s ← s.updateNet (·.reduceLearnts sort)
  s.checkGarbage

/-- Gives up learnt clauses that are of little use, in the order in which they come out of
the sort. -/
def reduce (s : Solver) : Except Fault Solver := s.reduceBy s.outside.arrange

end Solver

end Cdcl
