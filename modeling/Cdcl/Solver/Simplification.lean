import Cdcl.Solver.Collection

/-!
# Simplification

At the root level, once everything is propagated, clauses with a true literal are
removed, and false literals are cut off the others.  The work is done only if there
are new facts, and if enough propagations have been made since the last time.
-/

namespace Cdcl

/-- Cuts the false literals off a list.  The place of a literal that goes is taken by
the last one. -/
def cutFalse (t : Trail) : List Lit → Except Fault (List Lit)
  | [] => .ok []
  | l :: ls => do
      if (← t.litValue l) = .fails then
        ensure ((← t.levelOf l.var) = 0)
        match _h : ls.getLast? with
        | some last => cutFalse t (last :: ls.dropLast)
        | none => return []
      else
        return l :: (← cutFalse t ls)
termination_by ls => ls.length
decreasing_by
  · have nonempty : ls ≠ [] := by
      rintro rfl
      simp at _h
    have := List.length_pos_iff.mpr nonempty
    simp only [List.length_cons, List.length_dropLast]
    omega
  · simp

namespace Network

/-- Is one of the literals true? -/
def anyHolds (t : Trail) : List Lit → Except Fault Bool
  | [] => .ok false
  | l :: ls => do if (← t.litValue l) = .holds then return true else anyHolds t ls

/-- Cuts the false literals off a clause that is not satisfied; the first two, which
are watched, have no value. -/
def trimClause (n : Network) (id : ClauseId) : Except Fault Network := do
  let c ← n.clause id
  ensure ((← n.trail.litValue c.first) = .unknown)
  ensure ((← n.trail.litValue c.second) = .unknown)
  let rest ← cutFalse n.trail c.rest
  let arena ← n.db.arena.shrink id rest
  { n with db := { n.db with arena } }.retally c.learnt
    (·.dropLiterals (c.rest.length - rest.length))

theorem trimClause_eq_ok {n n' : Network} {id : ClauseId} (h : n.trimClause id = .ok n') :
    ∃ c rest arena, n.clause id = .ok c ∧ cutFalse n.trail c.rest = .ok rest ∧
      n.db.arena.shrink id rest = .ok arena ∧
      { n with db := { n.db with arena } }.retally c.learnt
        (·.dropLiterals (c.rest.length - rest.length)) = .ok n' := by
  obtain ⟨c, read, h⟩ := bind_eq_ok.mp h
  obtain ⟨_, -, h⟩ := bind_eq_ok.mp h
  obtain ⟨_, -, h⟩ := bind_eq_ok.mp h
  obtain ⟨_, -, h⟩ := bind_eq_ok.mp h
  obtain ⟨_, -, h⟩ := bind_eq_ok.mp h
  obtain ⟨rest, cut, h⟩ := bind_eq_ok.mp h
  obtain ⟨arena, shrunk, h⟩ := bind_eq_ok.mp h
  exact ⟨c, rest, arena, read, cut, shrunk, h⟩

/-- Removes the satisfied ones of the listed clauses and trims the others.  Answers
with the clauses that stay, after those already `kept`. -/
def sweep (n : Network) (kept : Array ClauseId) :
    List ClauseId → Except Fault (Network × Array ClauseId)
  | [] => .ok (n, kept)
  | id :: ids => do
      let c ← n.clause id
      if ← anyHolds n.trail c.lits then
        let n ← (n.log (.removeSatisfied c.lits)).removeClause id
        sweep n kept ids
      else
        let n ← n.trimClause id
        sweep n (kept.push id) ids

/-- Simplifies the learnt clauses. -/
def sweepLearnts (n : Network) : Except Fault Network := do
  let (n, learnts) ← n.sweep #[] n.db.learnts.toList
  return { n with db := { n.db with learnts } }

/-- Simplifies the problem clauses. -/
def sweepProblem (n : Network) : Except Fault Network := do
  let (n, problem) ← n.sweep #[] n.db.problem.toList
  return { n with db := { n.db with problem } }

/-- Simplifies the learnt clauses, and the problem clauses too if that is asked
for. -/
def sweepAll (n : Network) (problemToo : Bool) : Except Fault Network := do
  let n ← n.sweepLearnts
  if problemToo then n.sweepProblem else return n

end Network

namespace Solver

/-- Removes and trims clauses, and refills the heap. -/
def simplifyNow (s : Solver) : Except Fault Solver := do
  let s ← s.updateNet (·.sweepAll s.options.removeSatisfied)
  let s ← s.checkGarbage
  let order ← s.order.rebuild s.net.trail
  let schedule : SimplifySchedule :=
    { assigned := s.net.trail.size
      propagations := s.net.db.problemTally.literals + s.net.db.learntTally.literals }
  return { s with order, schedule }.report .simplify

theorem simplifyNow_eq_ok {s s' : Solver} (h : s.simplifyNow = .ok s') :
    ∃ n s₁ order schedule, s.net.sweepAll s.options.removeSatisfied = .ok n ∧
      { s with net := n }.checkGarbage = .ok s₁ ∧ s₁.order.rebuild s₁.net.trail = .ok order ∧
      s' = { s₁ with order, schedule }.report .simplify := by
  obtain ⟨s₀, swept, h⟩ := bind_eq_ok.mp h
  obtain ⟨n, sweeping, rfl⟩ := updateNet_eq_ok.mp swept
  obtain ⟨s₁, collected, h⟩ := bind_eq_ok.mp h
  obtain ⟨order, rebuilt, h⟩ := bind_eq_ok.mp h
  cases h
  exact ⟨n, s₁, order, _, sweeping, collected, rebuilt, rfl⟩

/-- Propagates at the root level and simplifies if it is time to.  The answer is no
if the clauses cannot be satisfied. -/
def simplifyRoot (s : Solver) : Except Fault (Solver × Bool) := do
  ensure (s.level = 0)
  if !s.ok then
    return (s, false)
  match ← s.propagateAll with
  | (s, some _) => return ({ s with ok := false }, false)
  | (s, none) =>
      if s.schedule.assigned = s.net.trail.size || 0 < s.schedule.propagations then
        return (s, true)
      else
        return (← s.simplifyNow, true)

/-- Simplifies the clauses by the facts of the root level, at which the solver has
to be.  The answer is no if the clauses cannot be satisfied. -/
def simplify (s : Solver) : Except Fault (Solver × Bool) := do
  if s.level = 0 then s.simplifyRoot else throw .simplifyAboveRoot

end Solver

end Cdcl
