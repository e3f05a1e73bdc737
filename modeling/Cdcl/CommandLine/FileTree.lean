/-!
# File trees

How a name leads to a file.  The parts of a name stand between slashes and are followed
one by one, from the root if the name begins with a slash, and from the working
directory otherwise.  Every part but the last must lead to a directory, and so must the
last if a slash follows it.

`FileTree.read` gives what a name leads to, and `FileTree.create` the place of the file
that is written under a name.  Both give a reason if there is none: the first that is met
on the way.
-/

namespace Cdcl.CommandLine

/-- Why a name or a file cannot be used. -/
inductive FileError where
  | missing
  | noDevice
  | denied
  | notDirectory
  | isDirectory
  | noSpace
  | nameTooLong
deriving DecidableEq, Repr

/-- The wording, with the number by which the system knows the reason. -/
def FileError.message : FileError → String
  | missing => "No such file or directory (os error 2)"
  | noDevice => "No such device or address (os error 6)"
  | denied => "Permission denied (os error 13)"
  | notDirectory => "Not a directory (os error 20)"
  | isDirectory => "Is a directory (os error 21)"
  | noSpace => "No space left on device (os error 28)"
  | nameTooLong => "File name too long (os error 36)"

/-- A place in a file tree: the parts that lead there from the root. -/
abbrev Place := List String

/-- A file that is not kept, but read and written by rule. -/
inductive Device where
  /-- Reads as an empty text, and forgets what is written. -/
  | null
  /-- Reads as zeros without end, and forgets what is written. -/
  | zeros
  /-- Reads as zeros without end, and has no space for what is written. -/
  | full
  /-- Reads as the standard input; what is written there is read by no one. -/
  | standardInput
  /-- What is written appears on the standard output. -/
  | standardOutput
  /-- What is written appears on the error stream. -/
  | standardError
  /-- The terminal of a run that has none; it cannot be opened. -/
  | terminal
deriving DecidableEq, Repr

/-- What can be at a place. -/
inductive Entry where
  | directory
  | file (text : String)
  | device (d : Device)
deriving DecidableEq, Repr

/-- The most bytes in a part of a name. -/
def maxPartLength : Nat := 255

/-- The most bytes in a name. -/
def maxNameLength : Nat := 4095

/-- What is at which place.  The places on the way to an entry, to a link or to the
working directory are directories. -/
structure FileTree where
  entries : List (Place × Entry)
  /-- Places that stand for other places. -/
  links : List (Place × Place)
  /-- Directories in which no file can be made, for the given reason. -/
  closed : List (Place × FileError)
  workingDirectory : Place
  /-- What the standard input holds. -/
  standardInput : String

namespace FileTree

/-! ## Places -/

/-- Is the place on the way to something? -/
def onTheWay (t : FileTree) (p : Place) : Bool :=
  p.isPrefixOf t.workingDirectory || t.entries.any (p.isPrefixOf ·.1) ||
    t.links.any (p.isPrefixOf ·.1)

/-- What is at a place. -/
def get? (t : FileTree) (p : Place) : Option Entry :=
  match t.entries.lookup p with
  | some e => some e
  | none => if t.onTheWay p then some .directory else none

/-- The place for which a place stands, which is itself if it is no link. -/
def settle (t : FileTree) (p : Place) : Place :=
  (t.links.lookup p).getD p

/-- Puts a text at a place. -/
def write (t : FileTree) (p : Place) (text : String) : FileTree :=
  { t with entries := (p, .file text) :: t.entries }

/-- A text that has been put at a place is found there. -/
theorem get?_write (t : FileTree) (p : Place) (text : String) :
    (t.write p text).get? p = some (.file text) := by
  simp [write, get?]

/-- A text that has been put at a place does not change what is kept at another. -/
theorem get?_write_of_ne (t : FileTree) {p q : Place} {e : Entry} (text : String)
    (different : q ≠ p) (kept : t.entries.lookup q = some e) :
    (t.write p text).get? q = some e := by
  simp [write, get?, List.lookup_cons, beq_false_of_ne different, kept]

/-! ## Names -/

/-- The parts of a name. -/
def parts (name : String) : List String :=
  (name.splitOn "/").filter (· ≠ "")

/-- Follows one part of a name. -/
def follow (t : FileTree) (p : Place) (part : String) : Except FileError Place :=
  if t.get? p ≠ some .directory then
    .error .notDirectory
  else if part = "." then
    .ok p
  else if part = ".." then
    .ok p.dropLast
  else if maxPartLength < part.utf8ByteSize then
    .error .nameTooLong
  else
    let next := t.settle (p ++ [part])
    if t.get? next = none then .error .missing else .ok next

/-- Where following a name begins. -/
def start (t : FileTree) (name : String) : Except FileError Place :=
  if name = "" then
    .error .missing
  else if maxNameLength < name.utf8ByteSize then
    .error .nameTooLong
  else if name.startsWith "/" then
    .ok []
  else
    .ok t.workingDirectory

/-- What a name leads to. -/
def read (t : FileTree) (name : String) : Except FileError Entry := do
  let p ← (parts name).foldlM t.follow (← t.start name)
  match t.get? p with
  | none => throw .missing
  | some .directory => return .directory
  | some e =>
      if name.endsWith "/" then throw .notDirectory
      else if e = .device .terminal then throw .noDevice
      else return e

/-- The reason for which no new file can be made in a directory, if there is one. -/
def refusal? (t : FileTree) (directory : Place) : Option FileError :=
  (t.closed.find? (·.1.isPrefixOf directory)).map (·.2)

/-- The place of a file that is written in a directory; `slash` says whether a slash
follows its name. -/
def createIn (t : FileTree) (directory : Place) (last : String) (slash : Bool) :
    Except FileError Place :=
  let p := t.settle (directory ++ [last])
  if t.get? directory ≠ some .directory then
    .error .notDirectory
  else if last = "." ∨ last = ".." ∨ slash then
    .error .isDirectory
  else if maxPartLength < last.utf8ByteSize then
    .error .nameTooLong
  else
    match t.get? p, t.refusal? directory with
    | some .directory, _ => .error .isDirectory
    | some (.device .terminal), _ => .error .noDevice
    | none, some reason => .error reason
    | _, _ => .ok p

/-- The place of the file that is written under a name.  There may be a file already,
which is then written over. -/
def create (t : FileTree) (name : String) : Except FileError Place := do
  let start ← t.start name
  match (parts name).getLast? with
  | none => throw .isDirectory
  | some last =>
      let directory ← (parts name).dropLast.foldlM t.follow start
      t.createIn directory last (name.endsWith "/")

/-- A file is written in a directory, and never in the place of a directory. -/
theorem get?_of_createIn {t : FileTree} {directory p : Place} {last : String} {slash : Bool}
    (h : t.createIn directory last slash = .ok p) :
    t.get? directory = some .directory ∧ t.get? p ≠ some .directory := by
  simp only [createIn] at h
  grind

end FileTree

end Cdcl.CommandLine
