import Cdcl.CommandLine.Arguments
import Cdcl.Decimal.Reader
import Cdcl.Options

/-!
# Invocations

What a run is to do, with all settings as values.  A number that cannot be read
stands for the default of its option, or for no cap; settings outside their ranges
are refused with a message, the first of them in a fixed order.
-/

namespace Cdcl.CommandLine

/-- What a run is to do. -/
structure Invocation where
  /-- The file to read, or none for the standard input. -/
  input : Option String
  /-- The file to which the result is written. -/
  output : Option String
  verbosity : Nat
  strict : Bool
  options : Options
  budget : Budget

/-- Why a run ends before it has begun. -/
inductive SettingError where
  | minimization
  | phaseSaving
  | options
  | verbosity (n : Int)

/-- The wording. -/
def SettingError.message : SettingError → String
  | minimization => "invalid value for option \"ccmin-mode\""
  | phaseSaving => "invalid value for option \"phase-saving\""
  | options => "Invalid option value"
  | verbosity n =>
      "ERROR! value <" ++ toString n ++ "> is out of range for option \"verb\"."

/-- The value of an option as a number; `fallback` if it cannot be read. -/
def Arguments.number {α : Type} (a : Arguments) (read : String → Option α)
    (o : ValueOption) (fallback : α) : α :=
  ((a.value? o).bind read).getD fallback

/-- The settings that arguments ask for. -/
def Invocation.ofArguments (a : Arguments) : Except SettingError Invocation := do
  let d : Options := {}
  let some minimization := Minimization.ofLevel? (a.number Decimal.int32? .minimization 1)
    | throw .minimization
  let some phaseSaving := PhaseSaving.ofLevel? (a.number Decimal.int32? .phaseSaving 2)
    | throw .phaseSaving
  let options : Options := { d with
    varDecay := a.number Decimal.float? .varDecay d.varDecay
    clauseDecay := a.number Decimal.float? .clauseDecay d.clauseDecay
    randomVarFreq := a.number Decimal.float? .randomFreq d.randomVarFreq
    randomSeed := a.number Decimal.float? .randomSeed d.randomSeed
    minimization
    phaseSaving
    randomActivity := a.has .randomInit
    lubyRestart := !a.has .noLuby
    restartFirst := a.number Decimal.int32? .restartFirst d.restartFirst
    restartIncrease := a.number Decimal.float? .restartIncrease d.restartIncrease
    garbageFraction := a.number Decimal.float? .garbageFraction d.garbageFraction
    minLearntLimit := a.number Decimal.int32? .minLearnts d.minLearntLimit }
  let verbosity := a.number Decimal.int32? .verbosity 0
  if !options.valid then
    throw .options
  else if verbosity < 0 ∨ 2 < verbosity then
    throw (.verbosity verbosity)
  else
    return {
      input := a.files.reverse[0]?
      output := a.files.reverse[1]?
      verbosity := verbosity.toNat
      strict := a.has .strict
      options
      budget :=
        { conflicts := (a.value? .conflicts).bind Decimal.nat64?
          propagations := (a.value? .propagations).bind Decimal.nat64? } }

end Cdcl.CommandLine
