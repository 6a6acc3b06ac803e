import Outline.CommandLine.Arguments
import Outline.Path.Basic

/-!
# Commands

What a user can ask for on a command line: to index the files under a path, to show the outline
of a file, to find declarations by name, and to forget what is known about a file. This module
provides `Command`, `Invocation`, and `Invocation.ofArguments`, which reads one.
-/

namespace Outline

/-- What a user asks for. Texts with a fixed set of meanings are kept as they are written. -/
inductive Command
  | index (path : Path) (format : String)
  | showFile (file : Path) (format : String)
  | find (path : Path) (names : List String) (kind : Option String) (strategy format : String)
  | invalidate (file : Path)
  deriving DecidableEq, Repr

/-- The path that a command is about. -/
def Command.path : Command → Path
  | .index p _ => p
  | .showFile p _ => p
  | .find p _ _ _ _ => p
  | .invalidate p => p

/-- A command, and the file that holds the settings if it is given. -/
structure Invocation where
  config : Option Path
  command : Command
  deriving DecidableEq, Repr

namespace Invocation

/-- The option for the file with the settings, which every command knows. -/
def configOption : Parameter := { name := "config", letter := 'c', mayBeEmpty := false }

/-- The option for the format of a report. -/
def formatOption : Parameter := { name := "format", letter := 'f' }

/-- The request for help, which every command knows. -/
def helpRequest : String × Char × UsageFault := ("help", 'h', .help)

/-- The names of the commands. -/
def commandNames : List String := ["index", "show", "find", "invalidate"]

/-- What may stand in front of a command. -/
def outer : Signature where
  options := [configOption]
  requests := [helpRequest, ("version", 'V', .version)]
  commands := commandNames ++ ["help"]

/-- What the command with a name knows. -/
def inner (name : String) : Signature where
  options := configOption ::
    match name with
    | "invalidate" => []
    | "find" =>
      [{ name := "kind", letter := 'k' }, { name := "strategy", letter := 's' }, formatOption]
    | _ => [formatOption]
  requests := [helpRequest]
  places := { name := "path", mayBeEmpty := false } ::
    if name = "find" then [{ name := "names", takesAll := true }] else []

/-- The command with a name and the values of its arguments. -/
def commandOf (name : String) (v : Values) : Command :=
  let path : Path := ⟨(v.first? "path").getD ""⟩
  let format := (v.first? "format").getD "pretty"
  match name with
  | "index" => .index path format
  | "show" => .showFile path format
  | "find" =>
    .find path (v.all "names") (v.first? "kind") ((v.first? "strategy").getD "exact") format
  | _ => .invalidate path

/-- What asking for help on commands comes to: there is help on each command and on none. -/
def helpOn : List String → UsageFault
  | [] => .help
  | [name] => if outer.commands.contains name then .help else .invalidSubcommand
  | _ => .invalidSubcommand

/-- What a list of arguments asks for. A fault behind the name of a command hides those that are
pending in front of it. -/
def ofArguments (arguments : List String) : Except UsageFault Invocation := do
  let (v, found) ← outer.read {} arguments
  match found with
  | some ("help", rest) => .error (helpOn rest)
  | some (name, rest) =>
    let w ← (inner name).readAll rest
    let v ← v.settle
    return ⟨(w.first? "config" <|> v.first? "config").map Path.mk, commandOf name w⟩
  | none =>
    let v ← v.settle
    if v.given.isEmpty then .error .helpForLackOfArguments else .error .missingSubcommand

end Invocation

end Outline
