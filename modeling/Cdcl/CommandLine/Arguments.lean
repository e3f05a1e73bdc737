/-!
# Command-line arguments

The arguments are options, which begin with two dashes, and up to two file names.
An option may take its value after an equals sign or from the next argument; that
may not begin with a dash, unless it is a single dash.  Behind a bare `--` all
arguments are file names.

An option that takes a value may be left without one if it has a default.  No option
may be given twice.  Both are checked only when all arguments have been read.
-/

namespace Cdcl.CommandLine

/-- The options that take a value. -/
inductive ValueOption where
  | verbosity
  | cpuLimit
  | varDecay
  | clauseDecay
  | randomFreq
  | randomSeed
  | minimization
  | phaseSaving
  | restartFirst
  | restartIncrease
  | garbageFraction
  | minLearnts
  | conflicts
  | propagations
deriving DecidableEq, Repr

/-- The options without a value. -/
inductive FlagOption where
  | strict
  | randomInit
  | noLuby
deriving DecidableEq, Repr

/-- The names of the options that take a value. -/
def valueOptions : List (String × ValueOption) :=
  [ ("verb", .verbosity), ("cpu-lim", .cpuLimit), ("var-decay", .varDecay),
    ("cla-decay", .clauseDecay), ("rnd-freq", .randomFreq), ("rnd-seed", .randomSeed),
    ("ccmin-mode", .minimization), ("phase-saving", .phaseSaving),
    ("rfirst", .restartFirst), ("rinc", .restartIncrease),
    ("gc-frac", .garbageFraction), ("min-learnts", .minLearnts),
    ("conflicts", .conflicts), ("propagations", .propagations) ]

/-- The names of the options without a value. -/
def flagOptions : List (String × FlagOption) :=
  [("strict", .strict), ("rnd-init", .randomInit), ("no-luby", .noLuby)]

/-- The value of an option that is given without one. -/
def ValueOption.default? : ValueOption → Option String
  | verbosity => some "1"
  | cpuLimit => some "-1.0"
  | varDecay => some "0.95"
  | clauseDecay => some "0.999"
  | randomFreq => some "0.0"
  | randomSeed => some "91648253.0"
  | minimization => some "1"
  | phaseSaving => some "2"
  | restartFirst => some "100"
  | restartIncrease => some "2.0"
  | garbageFraction => some "0.20"
  | minLearnts => some "0"
  | conflicts => none
  | propagations => none

/-- The arguments read so far: each option with its value, if it has one yet, and
the file names, all with the last first. -/
structure Arguments where
  values : List (ValueOption × Option String) := []
  flags : List FlagOption := []
  files : List String := []
deriving Repr

/-- Why the arguments do not describe a run. -/
inductive Refusal where
  /-- The version is asked for. -/
  | version
  /-- The arguments cannot be understood. -/
  | usage
deriving DecidableEq, Repr

/-- The greatest number of file names. -/
def maxFiles : Nat := 2

namespace Arguments

/-- The value of an option: the one given, or its default. -/
def value? (a : Arguments) (o : ValueOption) : Option String :=
  match a.values.lookup o with
  | some (some v) => some v
  | _ => o.default?

/-- Is the option given? -/
def has (a : Arguments) (o : FlagOption) : Bool := a.flags.contains o

/-- Adds a file name. -/
def addFile (a : Arguments) (name : String) : Except Refusal Arguments :=
  if a.files.length < maxFiles then
    .ok { a with files := name :: a.files }
  else
    .error .usage

/-- Adds an option by its name, with the value that stands behind an equals sign, if
there is one.  The answer is true if the value may follow as the next argument. -/
def addOption (a : Arguments) (name : String) (value : Option String) :
    Except Refusal (Arguments × Bool) :=
  match valueOptions.lookup name with
  | some o => .ok ({ a with values := (o, value) :: a.values }, value.isNone)
  | none =>
      match flagOptions.lookup name with
      | some f => .ok ({ a with flags := f :: a.flags }, false)
      | none => .error (if name = "version" then .version else .usage)

/-- Gives the option read last its value. -/
def setValue (a : Arguments) (value : String) : Arguments :=
  match a.values with
  | (o, _) :: values => { a with values := (o, some value) :: values }
  | [] => a

/-- A name and the value behind the first equals sign; further equals signs at the
start of the value are left out. -/
def splitValue (cs : List Char) : String × Option String :=
  let (name, rest) := cs.span (· ≠ '=')
  match rest with
  | [] => (String.ofList name, none)
  | _ :: value => (String.ofList name, some (String.ofList (value.dropWhile (· = '='))))

/-- Reads on.  `awaiting` says that the option read last may take the next argument
as its value, and `namesOnly` that only file names follow. -/
def readFrom (a : Arguments) (awaiting namesOnly : Bool) :
    List String → Except Refusal Arguments
  | [] => .ok a
  | arg :: args =>
      let cs := arg.toList
      if namesOnly then do
        readFrom (← a.addFile arg) awaiting true args
      else if arg = "--" then
        readFrom a awaiting true args
      else if cs.take 2 = ['-', '-'] then do
        let (name, value) := splitValue (cs.dropWhile (· = '-'))
        let (a, awaiting) ← a.addOption name value
        readFrom a awaiting false args
      else if cs.head? = some '-' ∧ arg ≠ "-" then
        .error (if cs[1]? = some 'V' then .version else .usage)
      else if awaiting then
        readFrom (a.setValue arg) false false args
      else do
        readFrom (← a.addFile arg) false false args

/-- Does no option occur twice, and has each a value or a default? -/
def complete (a : Arguments) : Bool :=
  decide (a.values.map (·.1)).Nodup && decide a.flags.Nodup &&
    a.values.all fun (o, v) => v.isSome || o.default?.isSome

/-- Reads the arguments of a run. -/
def read (args : List String) : Except Refusal Arguments := do
  let a ← readFrom {} false false args
  if a.complete then return a else throw .usage

end Arguments

end Cdcl.CommandLine
