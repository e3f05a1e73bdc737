import Cdcl.Precision
import Cdcl.Trail
import Cdcl.Journal

/-!
# The propagation network

The trail, the stored clauses and the lists of watchers that connect them.  Every
stored clause has a watcher in the list of the negation of each of its first two
literals, so it is visited when one of them becomes false.

Clauses are kept in two rows, the problem clauses and the learnt ones, with a tally
of each.
-/

namespace Cdcl

/-- An entry of a watch list: a clause, and a literal of it whose truth makes a
visit needless. -/
structure Watcher where
  clause : ClauseId
  blocker : Lit
deriving DecidableEq, Repr, Inhabited

/-- How many clauses there are, and how many literals they have together. -/
structure Tally where
  clauses : Nat := 0
  literals : Nat := 0
deriving DecidableEq, Repr, Inhabited

/-- Counts a clause. -/
def Tally.add (t : Tally) (size : Nat) : Tally :=
  { clauses := t.clauses + 1, literals := t.literals + size }

/-- Counts literals of a clause as gone. -/
def Tally.dropLiterals (t : Tally) (n : Nat) : Except Fault Tally := do
  return { t with literals := ← checkedSub t.literals n }

/-- Counts a clause as gone. -/
def Tally.drop (t : Tally) (size : Nat) : Except Fault Tally := do
  let clauses ← checkedSub t.clauses 1
  let literals ← checkedSub t.literals size
  return { clauses, literals }

/-- The stored clauses. -/
structure Database where
  arena : Arena
  problem : Array ClauseId
  learnts : Array ClauseId
  problemTally : Tally
  learntTally : Tally
  /-- How much a use of a clause adds to its activity. -/
  increment : Float
deriving Inhabited

/-- The database without clauses. -/
def Database.empty : Database := ⟨.empty, #[], #[], {}, {}, 1.0⟩

/-- The trail, the stored clauses and the watch lists. -/
structure Network where
  trail : Trail
  db : Database
  watches : DenseMap Lit (Array Watcher)
  /-- Which variables are observed. -/
  observed : Flags Var
  journal : Journal
deriving Inhabited

namespace Network

/-- The network without variables. -/
def empty (journal : Journal) : Network := ⟨.empty, .empty, .empty, .empty, journal⟩

/-- Adds a variable. -/
def addVar (n : Network) (v : Var) (observed : Bool) : Network :=
  { n with
    trail := n.trail.addVar v
    watches := (n.watches.insert ⟨v, false⟩ #[] #[]).insert ⟨v, true⟩ #[] #[]
    observed := n.observed.insert v false observed }

/-- Logs a message. -/
def log (n : Network) (m : Message) : Network := { n with journal := n.journal.log m }

/-- Reports an event. -/
def report (n : Network) (e : Event) : Network := { n with journal := n.journal.report e }

/-- The clause of a live identifier. -/
@[inline] def clause (n : Network) (id : ClauseId) : Except Fault Clause :=
  n.db.arena.get id

/-- Makes a literal true and tells the observer of its variable. -/
def enqueue (n : Network) (p : Lit) (r : Reason) : Except Fault Network := do
  let observed ← n.observed.get p.var
  let trail ← n.trail.push p r
  if observed then
    return { n with trail, journal := n.journal.notify p }
  else
    return { n with trail }

/-- The reason for which a clause implies its first literal.  Learnt clauses are
always named, so that their use can be counted. -/
def reasonFrom (id : ClauseId) (c : Clause) : Reason :=
  if c.learnt then
    .clause id
  else
    match c.rest with
    | [] => .binary c.second
    | [third] => .ternary c.second third
    | _ => .clause id

/-- The false literals behind a reason. -/
def premises (n : Network) : Reason → Except Fault (List Lit)
  | .decision => .ok []
  | .binary a => .ok [a]
  | .ternary a b => .ok [a, b]
  | .clause id => do return (← n.clause id).premises

/-- Adds a watcher at the end of a list. -/
@[inline] def watch (n : Network) (l : Lit) (w : Watcher) : Except Fault Network := do
  return { n with watches := ← n.watches.modify l (·.push w) }

/-- Takes the watcher of a clause out of a list. -/
def unwatch (n : Network) (l : Lit) (id : ClauseId) : Except Fault Network := do
  let list ← n.watches.get l
  match list.findIdx? (·.clause = id) with
  | some i => return { n with watches := ← n.watches.modify l (·.eraseIdxIfInBounds i) }
  | none => throw .watcherMissing

theorem unwatch_eq_ok {n n' : Network} {l : Lit} {id : ClauseId} (h : n.unwatch l id = .ok n') :
    ∃ list i watches, n.watches.get l = .ok list ∧ list.findIdx? (·.clause = id) = some i ∧
      n.watches.modify l (·.eraseIdxIfInBounds i) = .ok watches ∧ n' = { n with watches } := by
  obtain ⟨list, read, h⟩ := bind_eq_ok.mp h
  split at h
  next i found =>
    obtain ⟨watches, changed, h⟩ := bind_eq_ok.mp h
    cases h
    exact ⟨list, i, watches, read, found, changed, rfl⟩
  next => cases h

/-- Replaces the tally of learnt or of problem clauses. -/
def retally (n : Network) (learnt : Bool) (f : Tally → Except Fault Tally) :
    Except Fault Network := do
  if learnt then
    return { n with db := { n.db with learntTally := ← f n.db.learntTally } }
  else
    return { n with db := { n.db with problemTally := ← f n.db.problemTally } }

/-- Gives a stored clause its two watchers and counts it. -/
def attach (n : Network) (id : ClauseId) : Except Fault Network := do
  let c ← n.clause id
  let n ← n.watch (-c.first) ⟨id, c.second⟩
  let n ← n.watch (-c.second) ⟨id, c.first⟩
  n.retally c.learnt fun t => .ok (t.add c.size)

/-- Takes the two watchers of a clause away and no longer counts it. -/
def detach (n : Network) (id : ClauseId) : Except Fault Network := do
  let c ← n.clause id
  let n ← n.unwatch (-c.first) id
  let n ← n.unwatch (-c.second) id
  n.retally c.learnt fun t => t.drop c.size

/-- Stores a clause, lists it and gives it its watchers. -/
def addClause (n : Network) (lits : List Lit) (learnt : Bool) :
    Except Fault (Network × ClauseId) := do
  let (arena, id) ← n.db.arena.alloc (← Clause.ofLits lits learnt)
  let db :=
    if learnt then
      { n.db with arena, learnts := n.db.learnts.push id }
    else
      { n.db with arena, problem := n.db.problem.push id }
  return (← { n with db }.attach id, id)

/-- Forgets that a clause is the reason for its first literal, if it is. -/
def releaseReason (n : Network) (id : ClauseId) (c : Clause) : Except Fault Network := do
  if (← n.trail.reasonOf c.first.var) = .clause id &&
      (← n.trail.litValue c.first) = .holds then
    return { n with trail := ← n.trail.forgetReason c.first.var }
  else
    return n

/-- Detaches a clause and gives it up.  The caller takes it out of its row. -/
def removeClause (n : Network) (id : ClauseId) : Except Fault Network := do
  let n ← n.detach id
  let n ← n.releaseReason id (← n.clause id)
  let arena ← n.db.arena.free id
  return { n with db := { n.db with arena } }

theorem removeClause_eq_ok {n n' : Network} {id : ClauseId} (h : n.removeClause id = .ok n') :
    ∃ n₁ c n₂ arena, n.detach id = .ok n₁ ∧ n₁.clause id = .ok c ∧
      n₁.releaseReason id c = .ok n₂ ∧ n₂.db.arena.free id = .ok arena ∧
      n' = { n₂ with db := { n₂.db with arena } } := by
  obtain ⟨n₁, detached, h⟩ := bind_eq_ok.mp h
  obtain ⟨c, read, h⟩ := bind_eq_ok.mp h
  obtain ⟨n₂, released, h⟩ := bind_eq_ok.mp h
  obtain ⟨arena, freed, h⟩ := bind_eq_ok.mp h
  cases h
  exact ⟨n₁, c, n₂, arena, detached, read, released, freed, rfl⟩

/-- Is the clause the reason of an assignment?  Small problem clauses are known by
the literals that they left in the reason. -/
def locked (n : Network) (id : ClauseId) : Except Fault Bool := do
  let c ← n.clause id
  if (← n.trail.litValue c.first) != .holds then
    return false
  match ← n.trail.reasonOf c.first.var with
  | .decision => return false
  | .clause r => return r = id
  | .binary a => return c.rest = [] && a = c.second
  | .ternary a b =>
      match c.rest with
      | [third] => return (a = c.second && b = third) || (a = third && b = c.second)
      | _ => return false

/-- The greatest clause activity before all are scaled down. -/
def activityBound : Float32 := 1e20

/-- The factor by which clause activities are scaled down. -/
def activityScale : Float32 := 1e-20

/-- Scales the activity of the listed clauses down. -/
def scaleActivities (arena : Arena) : List ClauseId → Except Fault Arena
  | [] => .ok arena
  | id :: ids => do
      let c ← arena.get id
      ensure c.learnt
      scaleActivities (← arena.set id { c with activity := c.activity * activityScale }) ids

/-- Counts a use of a learnt clause. -/
def bumpClause (n : Network) (id : ClauseId) : Except Fault Network := do
  let c ← n.clause id
  ensure c.learnt
  let activity := c.activity + narrow n.db.increment
  let arena ← n.db.arena.set id { c with activity }
  if activityBound < activity then
    let arena ← scaleActivities arena n.db.learnts.toList
    return { n with db := { n.db with arena, increment := n.db.increment * 1e-20 } }
  else
    return { n with db := { n.db with arena } }

end Network

end Cdcl
