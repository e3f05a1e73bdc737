import Cdcl.Options
import Cdcl.Region
import Cdcl.Dimacs.Printer

/-!
# The journal

What a solver tells the outside while it works, kept in three lists: the messages
it logs, the events it reports to the callbacks, and the assignments of observed
variables.  Nothing that is written here is read again by the solver.

Messages below a threshold are not kept, and events are kept only if somebody
listens.
-/

namespace Cdcl

/-- How much a message matters. -/
inductive Severity where
  | trace
  | debug
  | info
deriving DecidableEq, Repr, Inhabited

/-- Severities in growing order. -/
def Severity.rank : Severity → Nat
  | trace => 0
  | debug => 1
  | info => 2

/-- A message of the log. -/
inductive Message where
  | newVar (v : Var)
  | newLevel (level : Nat)
  | decide (l : Lit)
  | cancelUntil (level : Nat)
  | analyze (conflict : Ref) (level : Nat)
  | rootConflict
  | resume (level : Nat)
  | skipUnreliable (l : Lit)
  | replaceUnreliable (l : Lit) (premises : List Lit)
  | removeSatisfied (lits : List Lit)
  | addAtRoot (lits : List Lit)
  | addAtLevel (lits : List Lit) (level : Nat)
  | learnt (lits : List Lit) (level : Nat)
  | reduceStart
  | reduceDone (deleted : Nat)
  | collected (before after : Nat)
  | header (vars clauses : Int)
  | searchStart
  | searchRestart (n : Nat)
  | searchResult (answer : Truth)
deriving Repr

namespace Message

/-- How much the message matters. -/
def severity : Message → Severity
  | newVar _ | newLevel _ | decide _ | cancelUntil _ => .trace
  | analyze _ _ | rootConflict | resume _ => .trace
  | skipUnreliable _ | replaceUnreliable _ _ | removeSatisfied _ => .trace
  | addAtRoot _ | addAtLevel _ _ | learnt _ _ => .debug
  | reduceStart | reduceDone _ | collected _ _ | header _ _ => .debug
  | searchStart | searchRestart _ | searchResult _ => .info

/-- The wording. -/
def text : Message → String
  | newVar v => "new var " ++ v.text
  | newLevel level => "new decision level " ++ toString level
  | decide l => "decide " ++ l.text
  | cancelUntil level => "cancel-until " ++ toString level
  | analyze conflict level =>
      "analyze.start " ++ conflict.text ++ " at level " ++ toString level
  | rootConflict => "analyze: conflict holds at level 0"
  | resume level => "analyze: resume at level " ++ toString level
  | skipUnreliable l => "analyze: skip unreliable uip " ++ l.text
  | replaceUnreliable l lits =>
      "analyze: replace unreliable " ++ l.text ++ " by " ++ Lit.listText lits
  | removeSatisfied lits => "remove satisfied clause " ++ Lit.listText lits
  | addAtRoot lits => "add toplevel clause " ++ Lit.listText lits
  | addAtLevel lits level =>
      "add clause " ++ Lit.listText lits ++ " at level " ++ toString level
  | learnt lits level =>
      "learnt " ++ Dimacs.clause lits ++ " (backtrack to " ++ toString level ++ ")"
  | reduceStart => "reduce_db.start"
  | reduceDone deleted => "reduce_db.done (deleted " ++ toString deleted ++ ")"
  | collected before after =>
      "garbage collection: " ++ toString before ++ " -> " ++ toString after ++ " words"
  | header vars clauses =>
      "dimacs header: " ++ toString vars ++ " vars, " ++ toString clauses ++ " clauses"
  | searchStart => "search.start"
  | searchRestart n => "search.restart(" ++ toString n ++ ")"
  | searchResult answer => "search.result " ++ answer.text

end Message

/-- A report on a running search. -/
structure Progress where
  conflicts : Nat
  decisionVars : Nat
  clauses : Nat
  clauseLits : Nat
  maxLearnts : Nat
  learnts : Nat
  learntLits : Float
  estimate : Float
deriving Inhabited

/-- An event that callbacks are told about. -/
inductive Event where
  | start
  | restart
  | simplify
  /-- A compaction, with the size of the arena in bytes before and after. -/
  | collect (before after : Nat)
  | progress (p : Progress)
  | result (answer : Truth)

/-- What has been told to the outside and not been taken yet. -/
structure Journal where
  /-- The least severity that is kept; nothing is kept without one. -/
  threshold : Option Severity := none
  /-- Does anybody listen to events? -/
  listening : Bool := false
  messages : Array Message := #[]
  events : Array Event := #[]
  notices : Array Lit := #[]
deriving Inhabited

namespace Journal

/-- Logs a message. -/
def log (j : Journal) (m : Message) : Journal :=
  match j.threshold with
  | some least =>
      if least.rank ≤ m.severity.rank then
        { j with messages := j.messages.push m }
      else
        j
  | none => j

/-- Reports an event. -/
def report (j : Journal) (e : Event) : Journal :=
  if j.listening then { j with events := j.events.push e } else j

/-- Tells the observer of a variable about its assignment. -/
def notify (j : Journal) (l : Lit) : Journal := { j with notices := j.notices.push l }

/-- The journal with everything taken out. -/
def clear (j : Journal) : Journal :=
  { j with messages := #[], events := #[], notices := #[] }

end Journal

end Cdcl
