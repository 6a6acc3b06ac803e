import Outline.CommandLine.Command
import Outline.FileSystem.Below
import Outline.Loader.Basic
import Outline.Search.Request

/-!
# Tasks

The words of a command name a format, a strategy and a kind; a task is a command whose words are
understood. This module provides:

* `Format`, how a report is written;
* `CommandError`, why a command cannot be carried out, with its wording;
* `Task`; and `Command.task`, which understands a command or finds the first word that means
  nothing.
-/

namespace Outline

/-- How a report is written. -/
inductive Format
  /-- for people -/
  | pretty
  | json
  deriving DecidableEq, Repr

/-- The format with a name. -/
def Format.ofName? : String → Option Format
  | "pretty" => some .pretty
  | "json" => some .json
  | _ => none

/-- Why a command cannot be carried out. -/
inductive CommandError
  | format (name : String)
  | strategy (name : String)
  | kind (name : String)
  | settings (cause : SettingsError)
  | setup (cause : SetupError)
  /-- The path of a command leads nowhere. -/
  | path (path : Path) (cause : IoFault)
  | listing (cause : ListingFault)
  /-- The one file of a command cannot be loaded. -/
  | load (cause : LoadError)
  /-- The store does not forget a file. -/
  | store (cause : IoFault)

/-- What went wrong, in words; a fault of the files that lies behind it is told once more. -/
def CommandError.message : CommandError → String
  | .format name => "invalid format " ++ Text.quoted name ++ ", must be 'pretty' or 'json'"
  | .strategy name => Strategy.unknownMessage name
  | .kind name => Kind.unknownMessage name
  | .settings (.io e) => e.message
  | .settings .yaml => "invalid settings"
  | .setup (.store e) => (SetupError.store e).message ++ ": " ++ e.message
  | .setup e => e.message
  | .path p e => "cannot access path " ++ Text.quotedPath p.text ++ ": " ++ e.message
  | .listing (.link p e) => (ListingFault.link p e).message ++ ": " ++ e.message
  | .listing e => e.message
  | .load e => e.message
  | .store e => "storage I/O error: " ++ e.message ++ ": " ++ e.message

/-- What a command asks for once its words are understood. -/
inductive Task
  | index (path : Path) (format : Format)
  | showFile (file : Path) (format : Format)
  | find (path : Path) (plan : Plan) (format : Format)
  | invalidate (file : Path)

namespace Command

/-- The format with a name, or a complaint. -/
def formatOf (name : String) : Except CommandError Format :=
  match Format.ofName? name with
  | some f => .ok f
  | none => .error (.format name)

/-- The strategy with a name, or a complaint. -/
def strategyOf (name : String) : Except CommandError Strategy :=
  match Strategy.ofName? name with
  | some s => .ok s
  | none => .error (.strategy name)

/-- The kind with a name, or a complaint. -/
def kindOf (name : String) : Except CommandError Kind :=
  match Kind.ofName? name with
  | some k => .ok k
  | none => .error (.kind name)

/-- Understand the words of a command: the format first, then the strategy, then the kind. -/
def task : Command → Except CommandError Task
  | .index path format => return .index path (← formatOf format)
  | .showFile file format => return .showFile file (← formatOf format)
  | .find path names kind strategy format => do
    let f ← formatOf format
    let s ← strategyOf strategy
    let k ← kind.mapM kindOf
    return .find path (Plan.ofRequests (names.map fun n => ⟨n, s, k⟩)) f
  | .invalidate file => .ok (.invalidate file)

end Command

end Outline
