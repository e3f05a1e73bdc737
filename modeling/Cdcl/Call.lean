import Cdcl.Solver.Loading
import Cdcl.Solver.Search

/-!
# Calls

The operations that a client may call on a solver, as data, so that statements can
range over all sequences of calls.  `perform` carries one call out, and `run` a
sequence of them on a fresh solver; both stop at the first fault.

`Call.clauses` lists the clauses that a call submits, and `submitted` those of a
sequence of calls: the formula that the sequence is about.  `Solver.Reaches` relates a
sequence of calls to the state it leads to, where each call may have to meet a
condition on the state in which it is made.
-/

namespace Cdcl

/-- An operation of a client. -/
inductive Call where
  | newVar (spec : VarSpec)
  | varOfIndex (i : Nat)
  | addClause (lits : List Lit)
  | load (strict : Bool) (bytes : List UInt8)
  | solve
  | simplify
  | propagate
  | resolveConflict
  | decide (l : Lit)
  | pushLevel
  | cancelUntil (level : Nat)
  | setReliable (v : Var) (b : Bool)
  | setDecision (v : Var) (b : Bool)
  | setObserved (v : Var) (b : Bool)
  | setBudget (b : Budget)
  | setInterrupt (b : Bool)
  | setStop (answer : Nat → Bool)

/-- The stop callback is to say yes from the `n`-th poll on, or never. -/
def Call.setStopAfter (n : Option Nat) : Call := .setStop fun poll => n.any (· ≤ poll)

/-- What a call answers. -/
inductive Reply where
  | none
  | flag (b : Bool)
  | truth (t : Truth)
  | created (v : Var)
  /-- Whether the clauses may still be satisfiable, and the literals of the clause
  as they were left. -/
  | clause (b : Bool) (lits : List Lit)
  | loaded (error : Option Dimacs.ReadError)
deriving Repr

/-- The clauses that a call submits. -/
def Call.clauses : Call → List (List Lit)
  | addClause lits => [lits]
  | load strict bytes =>
      (Dimacs.read strict bytes).items.filterMap fun
        | .clause lits => some lits
        | _ => Option.none
  | _ => []

/-- The clauses that calls submit. -/
def submitted (calls : List Call) : List (List Lit) := calls.flatMap Call.clauses

namespace Solver

/-- Carries a call out; `fuel` bounds the steps of a search. -/
def perform (fuel : Nat) (s : Solver) : Call → Except Fault (Solver × Reply)
  | .newVar spec => do
      let (s, v) ← s.newVar spec
      return (s, .created v)
  | .varOfIndex i => do
      let (s, v) ← s.varOfIndex i
      return (s, .created v)
  | .addClause lits => do
      let (s, answer, left) ← s.addClauseReporting lits
      return (s, .clause answer left)
  | .load strict bytes => do
      let (s, error) ← s.load strict bytes
      return (s, .loaded error)
  | .solve => do
      let (s, answer) ← s.solve fuel
      return (s, .truth answer)
  | .simplify => do
      let (s, answer) ← s.simplify
      return (s, .flag answer)
  | .propagate => do
      let (s, answer) ← s.propagate
      return (s, .flag answer)
  | .resolveConflict => do
      let (s, answer) ← s.resolveConflict
      return (s, .flag answer)
  | .decide l => do return (← s.decide l, .none)
  | .pushLevel => .ok (s.pushLevel, .none)
  | .cancelUntil level => do return (← s.cancelUntil level, .none)
  | .setReliable v b => do return (← s.setReliable v b, .none)
  | .setDecision v b => do return (← s.setDecision v b, .none)
  | .setObserved v b => do return (← s.setObserved v b, .none)
  | .setBudget b => .ok (s.setBudget b, .none)
  | .setInterrupt b => .ok (s.setInterrupt b, .none)
  | .setStop answer => .ok (s.setStop answer, .none)

/-- Carries calls out one after the other. -/
def performAll (fuel : Nat) (s : Solver) : List Call → Except Fault (Solver × List Reply)
  | [] => .ok (s, [])
  | c :: cs => do
      let (s, reply) ← s.perform fuel c
      let (s, replies) ← performAll fuel s cs
      return (s, reply :: replies)

/-- Carries calls out on a fresh solver. -/
def run (fuel : Nat) (options : Options) (calls : List Call) :
    Except Fault (Solver × List Reply) := do
  (← create options true none).performAll fuel calls

/-- The calls lead from a fresh solver to the state without a fault, and each of them
was allowed in the state in which it was made.  Every search may take as many steps as
it needs, and whatever comes from outside is allowed. -/
inductive Reaches (options : Options) (allowed : Solver → Call → Prop) :
    List Call → Solver → Prop
  | fresh {listening : Bool} {threshold : Option Severity} {outside : Outside} {s : Solver} :
      create options listening threshold outside = .ok s → Reaches options allowed [] s
  | call {calls : List Call} {s s' : Solver} {c : Call} {fuel : Nat} {reply : Reply} :
      Reaches options allowed calls s → allowed s c → s.perform fuel c = .ok (s', reply) →
      Reaches options allowed (calls ++ [c]) s'

/-- What every call keeps, and a fresh solver has, is so in every state that calls
lead to. -/
theorem Reaches.invariant {options : Options} {allowed : Solver → Call → Prop}
    {holds : List Call → Solver → Prop}
    (atStart : ∀ {listening threshold outside s},
      create options listening threshold outside = .ok s → holds [] s)
    (kept : ∀ {calls s c fuel s' reply}, holds calls s → allowed s c →
      s.perform fuel c = .ok (s', reply) → holds (calls ++ [c]) s')
    {calls : List Call} {s : Solver} (h : Reaches options allowed calls s) :
    holds calls s := by
  induction h with
  | fresh created => exact atStart created
  | call _ fine performed before => exact kept before fine performed

end Solver

end Cdcl
