import Cdcl.CommandLine.Surroundings
import Cdcl.CommandLine.Invocation
import Cdcl.Call
import Cdcl.Solver.Report
import Cdcl.Decimal.Fixed

/-!
# Runs

A run reads a text, simplifies its clauses, searches for a model and reports.  It has
two stages with the outside in between: `load` takes what the input file holds, then
the output file is created, and `finish` takes whether that went well.  `run` is a whole
run where the outside is a file tree.

The exit code is 10 with a model, 20 if there is none, 0 if the budget is used up,
and 1 if the run could not be carried out.
-/

namespace Cdcl.CommandLine

open Decimal

/-- A line of output.  Two of them show times, which only the outside knows. -/
inductive Line where
  | text (s : String)
  | parseTime
  | processorTime
deriving DecidableEq, Repr

/-- What a run leaves behind. -/
structure Report where
  exitCode : Nat
  /-- The output up to the point where the result is written. -/
  lines : List Line
  /-- What is written to the output file. -/
  result : String := ""
  /-- The output from there on. -/
  closing : List Line := []
  /-- The text on the error stream. -/
  errorText : String := ""

/-- The whole output. -/
def Report.output (r : Report) : List Line := r.lines ++ r.closing

/-- What the input file turned out to be. -/
inductive Input where
  | bytes (bs : List UInt8)
  /-- The file could not be opened, for the given reason. -/
  | closed (reason : String)
  /-- The file could be opened but not read, for the given reason. -/
  | unreadable (reason : String)

/-- The name and version of the program. -/
def versionText : String := "lazysat 0.1.0"

/-- The text on the error stream when the arguments cannot be understood. -/
def usageText : String := "usage error"

/-- The exit code of a run that meets a fault. -/
def faultCode : Nat := 101

/-- The report of a run that is given up with a message. -/
def failure (lines : List Line) (message : String) : Report :=
  { exitCode := 1, lines, errorText := message ++ "\n" }

/-- The report of a run that is given up because its result cannot be written. -/
def Report.cutShort (r : Report) (reason : String) : Report := failure r.lines reason

/-- The report of a run that meets a fault. -/
def faulty (lines : List Line) (f : Fault) : Report :=
  { exitCode := faultCode, lines, errorText := f.message.getD "internal error" ++ "\n" }

/-- The report of arguments that describe no run. -/
def refusal : Refusal → Report
  | .version => { exitCode := 0, lines := [.text versionText] }
  | .usage => { exitCode := 1, lines := [], errorText := usageText }

/-- The settings of a run, or the report if it cannot begin. -/
def prepare (args : List String) : Except Report Invocation :=
  match Arguments.read args with
  | .error r => .error (refusal r)
  | .ok a =>
      match Invocation.ofArguments a with
      | .error e => .error (failure [] e.message)
      | .ok i => .ok i

/-! ## Lines -/

/-- A line of equals signs. -/
def ruleLine : Line :=
  .text "c ==============================================================================="

/-- An empty line of a table. -/
def blankLine : Line :=
  .text "c |                                                                             |"

/-- The lines above the description of the problem. -/
def problemHeader : List Line :=
  [ .text "c ============================[ Problem Statistics ]=============================",
    blankLine ]

/-- The lines above the table of a search. -/
def searchHeader : List Line :=
  [ .text "c ============================[ Search Statistics ]==============================",
    .text "c | Conflicts |          ORIGINAL         |          LEARNT          | Progress |",
    .text "c |           |    Vars  Clauses Literals |    Limit  Clauses Lit/Cl |          |",
    ruleLine ]

/-- The description of the problem. -/
def problemLines (s : Solver) : List Line :=
  [ .text ("c |  Number of variables:  " ++ column 12 s.numVars ++
      "                                         |"),
    .text ("c |  Number of clauses:    " ++ column 12 s.numClauses ++
      "                                         |"),
    .parseTime,
    blankLine ]

/-- The row of the table that reports progress. -/
def progressLine (p : Progress) : Line :=
  .text ("c | " ++ column 9 p.conflicts ++ " | " ++ column 7 p.decisionVars ++ " " ++
    column 8 p.clauses ++ " " ++ column 8 p.clauseLits ++ " | " ++
    column 8 p.maxLearnts ++ " " ++ column 8 p.learnts ++ " " ++
    padLeft 6 (fixed 0 p.learntLits) ++ " | " ++ padLeft 6 (fixed 3 p.estimate) ++ " % |")

/-- The lines for an event. -/
def eventLines (verbosity : Nat) : Event → List Line
  | .start => if 1 ≤ verbosity then searchHeader else []
  | .progress p => if 1 ≤ verbosity then [progressLine p] else []
  | .result _ => if 1 ≤ verbosity then [ruleLine] else []
  | .collect before after =>
      if 2 ≤ verbosity then
        [.text ("c |  Garbage collection:   " ++ column 12 before ++ " bytes => " ++
          column 12 after ++ " bytes             |")]
      else
        []
  | .restart => []
  | .simplify => []

/-- The lines for the events of a solver. -/
def journalLines (verbosity : Nat) (s : Solver) : List Line :=
  s.net.journal.events.toList.flatMap (eventLines verbosity)

/-! ## Stages -/

/-- A run whose clauses have been read. -/
structure Loaded where
  invocation : Invocation
  solver : Solver
  /-- The output so far. -/
  lines : List Line

/-- Reads the clauses of a run, or ends it with a report. -/
def load (i : Invocation) (input : Input) : Except Report Loaded :=
  let name := i.input.getD ""
  let lines :=
    if i.input.isSome then []
    else [.text "c Reading from standard input... Use '--help' for help."]
  match input with
  | .closed reason => .error (failure lines ("cannot open " ++ name ++ ": " ++ reason))
  | .unreadable reason => .error (failure lines reason)
  | .bytes bs =>
      let lines := lines ++ if 1 ≤ i.verbosity then problemHeader else []
      match Solver.create i.options true none with
      | .error f => .error (faulty lines f)
      | .ok s =>
          match (s.setBudget i.budget).load i.strict bs with
          | .error f => .error (faulty lines f)
          | .ok (_, some e) =>
              .error (failure lines ("cannot read DIMACS input: " ++ e.message))
          | .ok (s, none) => .ok { invocation := i, solver := s, lines }

/-- The last line of a run. -/
def verdictLine : Truth → Line
  | .holds => .text "s SATISFIABLE"
  | .fails => .text "s UNSATISFIABLE"
  | .unknown => .text "s INDETERMINATE"

/-- The exit code for an answer. -/
def verdictCode : Truth → Nat
  | .holds => 10
  | .fails => 20
  | .unknown => 0

/-- What is written to the output file for an answer. -/
def resultText (s : Solver) : Truth → String
  | .holds => "s SAT\n" ++ s.modelLine
  | .fails => "s UNSAT\n"
  | .unknown => "s INDET\n"

/-- The statistics of a solver. -/
def statistics (s : Solver) : List Line := s.statisticsLines.map .text

/-- Simplifies, searches and reports.  The result is written as soon as it is known if
simplifying shows that there is no model, and at the very end otherwise. -/
def conclude (fuel : Nat) (r : Loaded) : Report :=
  let verbosity := r.invocation.verbosity
  let loud := decide (1 ≤ verbosity)
  let lines := r.lines ++ if loud then problemLines r.solver else []
  match r.solver.simplify with
  | .error f => faulty lines f
  | .ok (s, false) =>
      { exitCode := verdictCode .fails
        lines := lines ++ journalLines verbosity s
        result := resultText s .fails
        closing :=
          (if loud then ruleLine :: .text "c Solved by unit propagation" :: statistics s
            else []) ++ [verdictLine .fails] }
  | .ok (s, true) =>
      match s.solve fuel with
      | .error f => faulty lines f
      | .ok (s, answer) =>
          { exitCode := verdictCode answer
            lines := lines ++ journalLines verbosity s ++
              (if loud then statistics s ++ [.processorTime] else []) ++
              [verdictLine answer]
            result := resultText s answer }

/-- The second stage of a run.  `refused` is the reason for which the output file
could not be created, if that is so. -/
def finish (fuel : Nat) (r : Loaded) (refused : Option String) : Report :=
  match r.invocation.output, refused with
  | some name, some reason =>
      failure r.lines ("cannot create " ++ name ++ ": " ++ reason)
  | _, _ => conclude fuel r

/-! ## Runs in a file tree -/

/-- What reading a device gives.  A text that begins with a zero is refused there, so that
one of them is enough where they have no end. -/
def FileTree.deviceBytes (t : FileTree) : Device → List UInt8
  | .standardInput => t.standardInput.toUTF8.toList
  | .zeros | .full => [0]
  | .null | .standardOutput | .standardError | .terminal => []

/-- What the input file turns out to be; the standard input if none is named. -/
def FileTree.input (t : FileTree) : Option String → Input
  | none => .bytes (t.deviceBytes .standardInput)
  | some name =>
      match t.read name with
      | .ok (.file text) => .bytes text.toUTF8.toList
      | .ok (.device d) => .bytes (t.deviceBytes d)
      | .ok .directory => .unreadable FileError.isDirectory.message
      | .error e => .closed e.message

/-- The lines of a text in which every line has an end. -/
def textLines (text : String) : List Line := (text.splitOn "\n").dropLast.map .text

/-- Writes the result of a run to a device. -/
def Report.toDevice (r : Report) : Device → Report
  | .full => if r.result = "" then r else r.cutShort FileError.noSpace.message
  | .standardOutput => { r with lines := r.lines ++ textLines r.result }
  | .standardError => { r with errorText := r.result ++ r.errorText }
  | .null | .zeros | .standardInput | .terminal => r

/-- Writes the result of a run at a place. -/
def Report.deliver (r : Report) (t : FileTree) (p : Place) : Report × FileTree :=
  match t.get? p with
  | some (.device d) => (r.toDevice d, t)
  | _ => (r, t.write p r.result)

/-- A whole run with the given arguments: its report, and the files afterwards. -/
def run (fuel : Nat) (t : FileTree) (args : List String) : Report × FileTree :=
  match prepare args with
  | .error r => (r, t)
  | .ok i =>
      match load i (t.input i.input) with
      | .error r => (r, t)
      | .ok loaded =>
          match i.output.map t.create with
          | none => (finish fuel loaded none, t)
          | some (.error e) => (finish fuel loaded (some e.message), t)
          | some (.ok p) => (finish fuel loaded none).deliver t p

end Cdcl.CommandLine
