import Outline.CommandLine.Task
import Outline.Json.Value
import Outline.Loader.Crew
import Outline.Report.IndexSummary
import Outline.Report.SearchReport
import Outline.Report.TreeReport
import Outline.Search.Run

/-!
# Running a command

A command ends with an exit status and with text for the output and for the errors. The status
is 0 if all went well, 1 if a file could not be indexed or nothing was found, and 2 if the command
could not be carried out. What may change on the way are the files of the store. This module
provides:

* `Outcome`, how a command ends;
* `Loader.filesOf` — the files that a command works on; and
* `Task.run`, `Invocation.run` and `runArguments`, from a task to a whole command line.
-/

namespace Outline

/-- How a command ends. -/
structure Outcome where
  exit : Nat
  out : String := ""
  err : String := ""
  deriving DecidableEq, Repr

/-- The outcome of a command that could not be carried out. -/
def CommandError.outcome (e : CommandError) : Outcome :=
  { exit := 2, err := "Error: " ++ e.message ++ "\n" }

/-- How a command line is written. -/
def usageLines : List String := [
  "Usage: stubtree [OPTIONS] <COMMAND>",
  "",
  "Commands:",
  "  index <PATH> [-f pretty|json]                   make the outlines of all files below a path",
  "  show <FILE> [-f pretty|json]                    show the outline of a file",
  "  find <PATH> <NAMES>... [-k KIND] [-s STRATEGY]  find declarations by name",
  "  invalidate <FILE>                               forget what is known about a file",
  "  help                                            show this text",
  "",
  "Options:",
  "  -c, --config <FILE>  settings in YAML",
  "  -h, --help           show this text",
  "  -V, --version        show the version"]

/-- What is wrong with arguments, in words. -/
def UsageFault.message : UsageFault → String
  | .missingRequiredArgument => "a required argument is missing"
  | .unknownArgument => "an argument is not known"
  | .invalidValue => "an option has no value, or a value that it cannot have"
  | .argumentConflict => "an option is given twice"
  | .invalidSubcommand => "there is no such command"
  | .missingSubcommand => "a command is missing"
  | .tooManyValues => "there are too many values"
  | .help => ""
  | .version => ""
  | .helpForLackOfArguments => "a command is missing"

/-- The outcome of arguments that ask for no command. -/
def UsageFault.outcome : UsageFault → Outcome
  | .help => { exit := 0, out := unlines usageLines }
  | .version => { exit := 0, out := "stubtree 0.1.0\n" }
  | e => { exit := 2, err := unlines (("error: " ++ e.message) :: "" :: usageLines) }

namespace Loader

/-- Whether the files in a directory with this name count: those in hidden directories, in code
of others and in what a build makes do not. -/
def enters (name : String) : Bool :=
  !(name.toList.head? == some '.' || ["vendor", "node_modules", "target"].contains name)

/-- The files that a path means: what can be loaded below a directory, or else the one file. The
path comes first, without links and steps. -/
def filesOf (l : Loader) (fs : FileSystem) (p : Path) : Except CommandError (Path × List Path) := do
  let real ← (fs.real? p).mapError (.path p)
  if fs.isDir real then
    let files ← (fs.filesBelow enters real).mapError .listing
    return (real, files.filter l.accepts)
  else return (real, [real])

end Loader

/-- The summary of what was loaded from a path. -/
def IndexSummary.ofLoaded (s : Shelf) (p : Path) (loaded : List (Path × Except LoadError Nat)) :
    IndexSummary :=
  loaded.foldl (fun sum (file, r) =>
    match r with
    | .ok n => (s.tree? n).elim sum sum.addTree
    | .error e => sum.addFailure file e.message) { path := p }

/-- The shards of what was loaded; files that failed are left out. -/
def Shard.ofLoaded (s : Shelf) (loaded : List (Path × Except LoadError Nat)) : List Shard :=
  loaded.filterMap fun (file, r) => do return ⟨file, ← s.tree? (← r.toOption)⟩

/-- A report for which nothing but the format is open. -/
def Format.write (f : Format) (value : Json.Value) (lines : List String) : String :=
  match f with
  | .pretty => unlines lines
  | .json => value.pretty ++ "\n"

namespace Task

/-- Index the files that a path means. -/
def runIndex (g : Grammar) (ink : Ink) (pace : Pace) (l : Loader) (w : Workspace) (p : Path)
    (f : Format) : Except CommandError Outcome × Workspace :=
  match l.filesOf w.files p with
  | .error e => (.error e, w)
  | .ok (_, []) => (.ok { exit := 0, err := "Warning: no files to index\n" }, w)
  | .ok (root, files) =>
    let (loaded, _, w) := l.loadFiles g pace w files
    let s := IndexSummary.ofLoaded w.shelf root loaded
    (.ok { exit := if s.failures.isEmpty then 0 else 1, out := f.write s.toValue (s.lines ink) }, w)

/-- Show the tree of a file. -/
def runShow (g : Grammar) (ink : Ink) (l : Loader) (w : Workspace) (p : Path) (f : Format) :
    Except CommandError Outcome × Workspace :=
  match l.load g w p with
  | (.error e, _, w) => (.error (.load e), w)
  | (.ok n, _, w) =>
    let report := fun (t : Tree) => f.write (t.toReport p) (t.reportLines ink)
    (.ok { exit := 0, out := (w.shelf.tree? n).elim "" report }, w)

/-- The outcome of a search over shards. Files are shown as seen from a directory. -/
def findOutcome (ink : Ink) (dir : Path) (plan : Plan) (f : Format) (shards : List Shard) :
    Outcome :=
  let r := search shards plan
  { exit := if r.isEmpty then 1 else 0,
    out := f.write (r.toReport plan) (r.reportLines plan ink dir) }

/-- Search the files that a path means. They are shown as seen from the directory. -/
def runFind (g : Grammar) (ink : Ink) (pace : Pace) (l : Loader) (w : Workspace) (p : Path)
    (plan : Plan) (f : Format) : Except CommandError Outcome × Workspace :=
  match l.filesOf w.files p with
  | .error e => (.error e, w)
  | .ok (root, files) =>
    let dir := if w.files.isDir root then root else root.parent?.getD root
    let (loaded, _, w) := l.loadFiles g pace w files
    (.ok (findOutcome ink dir plan f (Shard.ofLoaded w.shelf loaded)), w)

/-- Forget all about a file. -/
def runInvalidate (l : Loader) (w : Workspace) (p : Path) :
    Except CommandError Outcome × Workspace :=
  match l.invalidate w p with
  | (.error e, _, w) => (.error (.store e), w)
  | (.ok _, _, w) => (.ok { exit := 0, out := "Invalidated " ++ p.text ++ "\n" }, w)

/-- Carry out a task with a loader; where it takes several files, they are loaded at a pace. -/
def run (g : Grammar) (ink : Ink) (pace : Pace) (l : Loader) (w : Workspace) :
    Task → Except CommandError Outcome × Workspace
  | .index p f => runIndex g ink pace l w p f
  | .showFile p f => runShow g ink l w p f
  | .find p plan f => runFind g ink pace l w p plan f
  | .invalidate p => runInvalidate l w p

end Task

namespace Invocation

/-- Carry out an invocation: its words are understood first, then the settings are read, and then
the store is opened. If the settings let files be loaded side by side, the workers take the given
turns. -/
def attempt (g : Grammar) (ink : Ink) (user : User) (turns : List Nat) (fs : FileSystem)
    (i : Invocation) : Except CommandError Outcome × FileSystem :=
  let read := do
    let t ← i.command.task
    let s ← (Settings.load fs i.config (FileSystem.pathOf fs.current)).mapError .settings
    return (t, s)
  match read with
  | .error e => (.error e, fs)
  | .ok (t, s) =>
    match s.open user fs with
    | (.error e, fs) => (.error (.setup e), fs)
    | (.ok (l, store), fs) =>
      let (r, w) := t.run g ink (s.pace turns) l { files := fs, store := store }
      (r, w.files)

/-- Carry out an invocation, with workers that take the given turns. -/
def runAlong (g : Grammar) (ink : Ink) (user : User) (turns : List Nat) (fs : FileSystem)
    (i : Invocation) : Outcome × FileSystem :=
  match i.attempt g ink user turns fs with
  | (.ok o, fs) => (o, fs)
  | (.error e, fs) => (e.outcome, fs)

/-- Carry out an invocation. -/
def run (g : Grammar) (ink : Ink) (user : User) (fs : FileSystem) (i : Invocation) :
    Outcome × FileSystem :=
  i.runAlong g ink user [] fs

end Invocation

/-- Carry out a command line. -/
def runArguments (g : Grammar) (ink : Ink) (user : User) (fs : FileSystem)
    (arguments : List String) : Outcome × FileSystem :=
  match Invocation.ofArguments arguments with
  | .ok i => i.run g ink user fs
  | .error e => (e.outcome, fs)

end Outline
