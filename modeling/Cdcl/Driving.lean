import Cdcl.Call

/-!
# Driven search

Search loops that a client can build from the calls of a solver.  `drive` opens up
to `width` levels before it propagates again; `decideFirst` tries the literals of a
list in order, and `block` forbids the last model.
-/

namespace Cdcl.Solver

/-- The first literal of a list without a value. -/
def firstFree (s : Solver) : List Lit → Except Fault (Option Lit)
  | [] => .ok none
  | l :: ls => do if (← s.litValue l) = .unknown then return some l else firstFree s ls

/-- Decides the first literal of a list that has no value. -/
def decideFirst (s : Solver) (lits : List Lit) : Except Fault (Solver × Option Lit) := do
  match ← s.firstFree lits with
  | some l => return (← s.decide l, some l)
  | none => return (s, none)

/-- Decides variables without a value among the last `left` ones, in their order, with
the negative and the positive sign in turn.  `done` of them have been decided, and the
walk stops at `width`.  Answers with the calls that decide, and with the number of
variables that the walk has not come to. -/
def decideSome (width : Nat) : Nat → Nat → Solver → Except Fault (Solver × List Call × Nat)
  | 0, _, s => .ok (s, [], 0)
  | left + 1, done, s => do
      let v : Var := ⟨s.numVars - (left + 1)⟩
      if width ≤ done then
        return (s, [], left + 1)
      else if (← s.value v) = .unknown then
        let p : Lit := ⟨v, done % 2 = 1⟩
        let (s, calls, left) ← decideSome width left (done + 1) (← s.decide p)
        return (s, .decide p :: calls, left)
      else
        decideSome width left done s

/-- Propagates, resolves conflicts and opens levels, up to `width` at a time, until
everything has a value, the clauses are found unsatisfiable, or `max` conflicts have
been met; `count` have been.  All variables but the last `left` have a value: they lose
it only when a conflict is resolved.  Answers with the calls that have been made, too. -/
def driveFrom (width : Nat) (max : Option Nat) :
    Nat → Nat → Nat → Solver → Except Fault (Solver × Truth × List Call)
  | 0, _, _, _ => .error .outOfFuel
  | fuel + 1, count, left, s => do
      let (s, consistent) ← s.propagate
      if consistent then
        match ← decideSome width left 0 s with
        | (s, [], _) => return (s, .holds, [.propagate])
        | (s, decisions, left) =>
            let (s, answer, calls) ← driveFrom width max fuel count left s
            return (s, answer, .propagate :: (decisions ++ calls))
      else
        let (s, ok) ← s.resolveConflict
        if !ok then
          return (s, .fails, [.propagate, .resolveConflict])
        else if max.any (· ≤ count + 1) then
          return (s, .unknown, [.propagate, .resolveConflict])
        else
          let (s, answer, calls) ← driveFrom width max fuel (count + 1) s.numVars s
          return (s, answer, .propagate :: .resolveConflict :: calls)

/-- Propagates, resolves conflicts and opens levels, up to `width` at a time, and answers
with the calls that it comes to. -/
def driveCalls (fuel : Nat) (s : Solver) (width : Nat) (max : Option Nat) :
    Except Fault (Solver × Truth × List Call) :=
  driveFrom width max fuel 0 s.numVars s

/-- Propagates, resolves conflicts and opens levels, up to `width` at a time. -/
def drive (fuel : Nat) (s : Solver) (width : Nat) (max : Option Nat) :
    Except Fault (Solver × Truth) := do
  let (s, answer, _) ← s.driveCalls fuel width max
  return (s, answer)

/-- The negations of the values of the last model. -/
def blockingClause (s : Solver) : List Lit :=
  s.model.toList.zipIdx.filterMap fun (t, i) =>
    match t with
    | .holds => some ⟨⟨i⟩, false⟩
    | .fails => some ⟨⟨i⟩, true⟩
    | .unknown => none

/-- Forbids the last model. -/
def block (s : Solver) : Except Fault (Solver × Bool) := s.addClause s.blockingClause

end Cdcl.Solver
