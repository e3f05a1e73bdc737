import Cdcl.Solver.Backtrack

/-!
# Compacting the arena

When too many words of the arena are dead, the live clauses are moved together.
The order of the new places is that of the watch lists, then of the reasons along
the trail, then of the learnt and of the problem clauses.
-/

namespace Cdcl

namespace Network

/-- The clauses watched by the literals of each variable in turn, the negative
literal first. -/
def watchedOrder (n : Network) : Except Fault (List ClauseId) := do
  let lists ← ((List.range n.trail.numVars).map Var.mk).mapM fun v => do
    let negative ← n.watches.get ⟨v, false⟩
    let positive ← n.watches.get ⟨v, true⟩
    return (negative ++ positive).toList.map (·.clause)
  return lists.flatten

/-- Forgets the reasons along the trail whose clauses are no longer live, which may
happen at the root level only.  Answers with the clauses of the other reasons. -/
def liveReasons (arena : Arena) :
    List Lit → Trail → Except Fault (Trail × List ClauseId)
  | [], t => .ok (t, [])
  | l :: ls, t => do
      match ← t.reasonOf l.var with
      | .clause id =>
          if arena.contains id then
            let (t, ids) ← liveReasons arena ls t
            return (t, id :: ids)
          else
            ensure ((← t.levelOf l.var) = 0)
            liveReasons arena ls (← t.forgetReason l.var)
      | _ => liveReasons arena ls t

/-- Moves the live clauses together. -/
def collect (n : Network) : Except Fault Network := do
  let _ ← checkedSub n.db.arena.size n.db.arena.wasted
  let watched ← n.watchedOrder
  let (trail, reasons) ← liveReasons n.db.arena n.trail.lits.toList n.trail
  let order := watched ++ reasons ++ n.db.learnts.toList ++ n.db.problem.toList
  let arena ← n.db.arena.compact order
  let before := n.db.arena.size * Arena.unitSize
  let after := arena.size * Arena.unitSize
  if before < wordSpan then
    let n := (n.log (.collected n.db.arena.size arena.size)).report (.collect before after)
    return { n with trail, db := { n.db with arena } }
  else
    throw .reportTooLarge

/-- Are so many words dead that the arena is to be compacted? -/
def isWasteful (n : Network) (fraction : Float) : Bool :=
  Float.ofNat n.db.arena.size * fraction < Float.ofNat n.db.arena.wasted

end Network

/-- Compacts the arena if it is wasteful. -/
def Solver.checkGarbage (s : Solver) : Except Fault Solver := do
  if s.net.isWasteful s.options.garbageFraction then
    s.updateNet (·.collect)
  else
    return s

end Cdcl
