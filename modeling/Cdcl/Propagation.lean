import Cdcl.Network

/-!
# Unit propagation

When a literal becomes true, the clauses that watch its negation are visited in the
order of the list.  A visit keeps the watcher, or moves it to another literal that
is not false, or finds that the clause implies its first literal, or finds that all
its literals are false.

* `visit` is one visit, `scan` the walk along one list, `drain` the loop over the
  literals of the trail that have not been propagated;
* each step of `drain` propagates one literal, and a variable is assigned at most
  once, so as many steps as there are variables suffice.
-/

namespace Cdcl

/-- What a visit does with the watcher. -/
inductive Visit where
  /-- The watcher stays in the list, with this blocker. -/
  | keep (w : Watcher)
  /-- The watcher went to another list. -/
  | moved
  /-- The watcher stays, and the clause is false. -/
  | conflict (w : Watcher)

namespace Network

/-- The first literal of a list that is not false, with what stands before and
after it. -/
def findWatch (t : Trail) : List Lit → Except Fault (Option (List Lit × Lit × List Lit))
  | [] => .ok none
  | l :: ls => do
      if (← t.litValue l) != .fails then
        return some ([], l, ls)
      else
        match ← findWatch t ls with
        | some (before, found, after) => return some (l :: before, found, after)
        | none => return none

/-- Visits a clause that watches the negation of `p`, which has become true. -/
def visit (n : Network) (p : Lit) (w : Watcher) : Except Fault (Network × Visit) := do
  if (← n.trail.litValue w.blocker) = .holds then
    return (n, .keep w)
  let c := (← n.clause w.clause).watchSecond (-p)
  ensure (c.second = -p)
  let w' : Watcher := ⟨w.clause, c.first⟩
  let firstValue ← n.trail.litValue c.first
  if c.first ≠ w.blocker ∧ firstValue = .holds then
    let arena ← n.db.arena.set w.clause c
    return ({ n with db := { n.db with arena } }, .keep w')
  match ← findWatch n.trail c.rest with
  | some (before, found, after) =>
      let arena ← n.db.arena.set w.clause
        { c with second := found, rest := before ++ -p :: after }
      ensure (-found ≠ p)
      let n ← { n with db := { n.db with arena } }.watch (-found) w'
      return (n, .moved)
  | none =>
      let arena ← n.db.arena.set w.clause c
      let n := { n with db := { n.db with arena } }
      if firstValue = .fails then
        return (n, .conflict w')
      else
        return (← n.enqueue c.first (reasonFrom w.clause c), .keep w')

/-- Visits the clauses of a watch list in order, up to the first one that is false.
Answers with the watchers that stay in the list, after those already `kept`. -/
def scan (n : Network) (p : Lit) (kept : Array Watcher) :
    List Watcher → Except Fault (Network × Array Watcher × Option ClauseId)
  | [] => .ok (n, kept, none)
  | w :: ws => do
      match ← n.visit p w with
      | (n, .keep w') => scan n p (kept.push w') ws
      | (n, .moved) => scan n p kept ws
      | (n, .conflict w') => return (n, kept.push w' ++ ws, some w'.clause)

/-- Visits the clauses that watch the negation of a literal that has become true. -/
def visitAll (n : Network) (p : Lit) : Except Fault (Network × Option ClauseId) := do
  let list ← n.watches.get p
  let watches ← n.watches.set p #[]
  let (n, kept, conflict) ← { n with watches }.scan p #[] list.toList
  ensure (← n.watches.get p).isEmpty
  return ({ n with watches := ← n.watches.set p kept }, conflict)

theorem visitAll_eq_ok {n n' : Network} {p : Lit} {conflict : Option ClauseId}
    (h : n.visitAll p = .ok (n', conflict)) : ∃ list watches n₁ kept left watches',
      n.watches.get p = .ok list ∧ n.watches.set p #[] = .ok watches ∧
      { n with watches }.scan p #[] list.toList = .ok (n₁, kept, conflict) ∧
      n₁.watches.get p = .ok left ∧ left.isEmpty = true ∧
      n₁.watches.set p kept = .ok watches' ∧ n' = { n₁ with watches := watches' } := by
  obtain ⟨list, read, h⟩ := bind_eq_ok.mp h
  obtain ⟨watches, emptied, h⟩ := bind_eq_ok.mp h
  obtain ⟨⟨n₁, kept, conflict'⟩, scanned, h⟩ := bind_eq_ok.mp h
  obtain ⟨left, read', h⟩ := bind_eq_ok.mp h
  obtain ⟨_, empty, h⟩ := bind_eq_ok.mp h
  obtain ⟨watches', filled, h⟩ := bind_eq_ok.mp h
  cases h
  exact ⟨list, watches, n₁, kept, left, watches', read, emptied, scanned, read',
    ensure_eq_ok.mp empty, filled, rfl⟩

/-- Moves the head of the queue behind the last literal. -/
def skipQueue (n : Network) : Network :=
  { n with trail := { n.trail with head := n.trail.lits.size } }

/-- Propagates the literals waiting on the trail, at most `fuel` of them, until none
is left or a clause is false; then the queue is emptied.  Answers with the false
clause and with `count` plus the number of literals propagated. -/
def drain : Nat → Network → Nat → Except Fault (Network × Option ClauseId × Nat)
  | fuel, n, count =>
      match n.trail.lits[n.trail.head]? with
      | none => .ok (n, none, count)
      | some p =>
          match fuel with
          | 0 => .error .outOfFuel
          | fuel + 1 => do
              let trail := { n.trail with head := n.trail.head + 1 }
              match ← { n with trail }.visitAll p with
              | (n, some id) => return (n.skipQueue, some id, count + 1)
              | (n, none) => drain fuel n (count + 1)

/-- Propagates everything that waits on the trail.  Answers with the clause found
false, if any, and with the number of literals propagated. -/
def propagate (n : Network) : Except Fault (Network × Option ClauseId × Nat) :=
  drain n.trail.numVars n 0

end Network

end Cdcl
