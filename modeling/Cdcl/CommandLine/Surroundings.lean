import Cdcl.CommandLine.FileTree

/-!
# Surroundings

What a run finds around its own files: the usual directories, the devices, and the
streams of the run, which can be named as well.  `FileTree.ofFiles` puts a working
directory with some files into these surroundings.
-/

namespace Cdcl.CommandLine

/-- The place of one of the three streams of a run. -/
def streamPlace (n : Nat) : Place := ["proc", "self", "fd", toString n]

/-- The devices. -/
def usualDevices : List (Place × Entry) :=
  [ (["dev", "null"], .device .null),
    (["dev", "zero"], .device .zeros),
    (["dev", "full"], .device .full),
    (["dev", "tty"], .device .terminal),
    (streamPlace 0, .device .standardInput),
    (streamPlace 1, .device .standardOutput),
    (streamPlace 2, .device .standardError) ]

/-- The directories in which nothing else is kept here. -/
def usualDirectories : List (Place × Entry) :=
  [ ["bin"], ["boot"], ["dev", "pts"], ["dev", "shm"], ["etc"], ["home"], ["lib"],
    ["media"], ["mnt"], ["opt"], ["root"], ["run"], ["sbin"], ["srv"], ["sys"], ["tmp"],
    ["usr", "bin"], ["usr", "lib"], ["usr", "local"], ["usr", "share"], ["var", "lib"],
    ["var", "log"], ["var", "tmp"] ].map fun p => (p, .directory)

/-- The links, for a working directory. -/
def usualLinks (workingDirectory : Place) : List (Place × Place) :=
  [ (["dev", "fd"], ["proc", "self", "fd"]),
    (["dev", "stdin"], streamPlace 0),
    (["dev", "stdout"], streamPlace 1),
    (["dev", "stderr"], streamPlace 2),
    (["proc", "self", "cwd"], workingDirectory),
    (["proc", "self", "root"], []) ]

/-- The directories that show what the system does, where no file can be made. -/
def usualClosed : List (Place × FileError) :=
  [(["proc"], .missing), (["sys"], .denied), (["dev", "pts"], .denied)]

/-- The working directory of a run.  Its own part is empty, as no part of a name is: it
is reached from itself only. -/
def ownDirectory : Place := ["tmp", ""]

/-- A working directory with the given files and nothing else. -/
def FileTree.ofFiles (standardInput : String) (files : List (String × String)) : FileTree :=
  { entries := files.map (fun (name, text) => (ownDirectory ++ parts name, .file text)) ++
      usualDevices ++ usualDirectories
    links := usualLinks ownDirectory
    closed := usualClosed
    workingDirectory := ownDirectory
    standardInput }

end Cdcl.CommandLine
