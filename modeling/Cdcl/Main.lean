import Cdcl.CommandLine.Run

/-!
# The program

The outer layer of the command line: it reads the input, creates the output file,
measures times and prints what a run reports.
-/

namespace Cdcl.Main

open Cdcl.CommandLine

/-- The reason for which a file could not be used, with the number by which the system
knows it. -/
def reasonText : IO.Error → String
  | .noFileOrDirectory _ code details
  | .permissionDenied _ code details
  | .inappropriateType _ code details
  | .invalidArgument _ code details
  | .resourceExhausted _ code details
  | .resourceBusy code details
  | .noSuchThing _ code details
  | .unsupportedOperation code details
  | .otherError code details => details ++ " (os error " ++ toString code ++ ")"
  | e => toString e

/-- Reads a stream to its end, after the bytes of `bytes`.  A text that begins with a zero
is refused there, so that no more of it is read: a device may have no end. -/
partial def readStream (stream : IO.FS.Stream) (bytes : ByteArray) : IO ByteArray := do
  let more ← stream.read 65536
  let all := bytes ++ more
  if more.isEmpty || all[0]? == some 0 then return all else readStream stream all

/-- Reads the input of a run. -/
def readInput (input : Option String) : IO Input := do
  match input with
  | none => return .bytes (← readStream (← IO.getStdin) .empty).toList
  | some name =>
      match ← (IO.FS.Handle.mk name .read).toBaseIO with
      | .error e => return .closed (reasonText e)
      | .ok file =>
          match ← (readStream (.ofHandle file) .empty).toBaseIO with
          | .error e => return .unreadable (reasonText e)
          | .ok bytes => return .bytes bytes.toList

/-- Milliseconds as seconds with a number of places. -/
def secondsText (places ms : Nat) : String :=
  Decimal.unitsText places (ms * Nat.pow 10 places / 1000)

/-- The times of a run, in milliseconds: when it began, and when its input had been
read. -/
structure Clock where
  start : Nat
  parsed : Nat

/-- A line of output, with the times filled in. -/
def lineText (clock : Clock) (now : Nat) : Line → String
  | .text s => s
  | .parseTime =>
      "c |  Parse time:           " ++
        Decimal.padLeft 12 (secondsText 2 (clock.parsed - clock.start)) ++
        " s                                       |"
  | .processorTime =>
      "c CPU time              : " ++ secondsText 3 (now - clock.start) ++ "s"

/-- Prints lines of output. -/
def printLines (clock : Clock) (lines : List Line) : IO Unit := do
  let now ← IO.monoMsNow
  let out ← IO.getStdout
  for line in lines do
    out.putStrLn (lineText clock now line)
  out.flush

/-- Writes the result of a run; the report ends there if that does not go well. -/
def deliver (file : Option IO.FS.Handle) (r : Report) : IO Report := do
  match file with
  | none => return r
  | some file =>
      match ← (do file.putStr r.result; file.flush : IO Unit).toBaseIO with
      | .ok () => return r
      | .error e => return r.cutShort (reasonText e)

/-- Prints a report and writes its result, and gives the exit code. -/
def conveyReport (clock : Clock) (file : Option IO.FS.Handle) (r : Report) : IO UInt32 := do
  printLines clock r.lines
  let r ← deliver file r
  printLines clock r.closing
  IO.eprint r.errorText
  return r.exitCode.toUInt32

/-- Creates the output file of a run, if it has one. -/
def createOutput (output : Option String) : IO (Except String (Option IO.FS.Handle)) := do
  match output with
  | none => return .ok none
  | some name =>
      match ← (IO.FS.Handle.mk name .write).toBaseIO with
      | .ok file => return .ok (some file)
      | .error e => return .error (reasonText e)

/-- Carries a run out. -/
def carryOut (i : Invocation) : IO UInt32 := do
  let start ← IO.monoMsNow
  match load i (← readInput i.input) with
  | .error r => conveyReport ⟨start, start⟩ none r
  | .ok loaded =>
      let clock : Clock := ⟨start, ← IO.monoMsNow⟩
      match ← createOutput i.output with
      | .error reason => conveyReport clock none (finish Solver.ampleFuel loaded (some reason))
      | .ok file => conveyReport clock file (finish Solver.ampleFuel loaded none)

end Cdcl.Main

/-- Runs the program with the given arguments. -/
def main (args : List String) : IO UInt32 := do
  match Cdcl.CommandLine.prepare args with
  | .error r => Cdcl.Main.conveyReport ⟨0, 0⟩ none r
  | .ok i => Cdcl.Main.carryOut i
