import Outline.Filter
import Outline.Path.Basic
import Outline.Yaml.Node

/-!
# Settings

What a project may set: a name and a version, where outlines are stored, which files are left out
and whether files are loaded side by side. Settings are written in YAML; what is not set has a
default, and fields that are not known do not count. This module provides:

* `Settings` and `CacheSettings` with their defaults;
* `Settings.ofYaml?` — settings from a YAML text; and
* `Settings.cacheDir?`, `Settings.filter` — what the settings mean.

A text can be read from any scalar, however it looks; a truth value and "not set" only from the
plain words for them.
-/

namespace Outline

/-- Where outlines are stored. -/
structure CacheSettings where
  /-- Whether they are stored at all. -/
  enabled : Bool := true
  dir : Option Path := none
  deriving DecidableEq, Repr

/-- The settings of a project. -/
structure Settings where
  version : String := ""
  name : String := ""
  cache : CacheSettings := {}
  excludedPaths : List String := []
  languages : List String := []
  parallel : Option Bool := none
  deriving DecidableEq, Repr

namespace Yaml

/-- The tag that a node of no value may carry. -/
def nullTag : String := "tag:yaml.org,2002:null"

/-- The tag that a truth value may carry. -/
def boolTag : String := "tag:yaml.org,2002:bool"

/-- Whether a plain text is a word for "no value". -/
def isNullWord (s : String) : Bool :=
  ["~", "null", "Null", "NULL"].contains s

/-- The truth value that a word stands for. -/
def boolOfWord? (s : String) : Option Bool :=
  if ["true", "True", "TRUE"].contains s then some true
  else if ["false", "False", "FALSE"].contains s then some false
  else none

namespace Document

/-- The text of a scalar. -/
def text? (d : Document) (n : Node) : Option String :=
  match d.resolve? n with
  | some (.scalar text _ _) => some text
  | _ => none

/-- The truth value of a plain scalar, or of a literal one that is tagged as such. -/
def bool? (d : Document) (n : Node) : Option Bool :=
  match d.resolve? n with
  | some (.scalar text .plain _) => boolOfWord? text
  | some (.scalar text .literal (some tag)) => if tag = boolTag then boolOfWord? text else none
  | _ => none

/-- Whether a node says that there is no value; one that is tagged so has to say it. -/
def isNull? (d : Document) (n : Node) : Option Bool :=
  match d.resolve? n with
  | some (.scalar text .plain none) => some (text.isEmpty || isNullWord text)
  | some (.scalar text .plain (some tag)) =>
    if tag = nullTag then (if isNullWord text then some true else none) else some false
  | some _ => some false
  | none => none

/-- A value that may be absent. -/
def optional? {α : Type} (d : Document) (read : Node → Option α) (n : Node) :
    Option (Option α) := do
  if ← d.isNull? n then return none
  return some (← read n)

/-- The items of a sequence; an empty plain scalar has none. -/
def items? (d : Document) (n : Node) : Option (List Node) :=
  match d.resolve? n with
  | some (.sequence items) => some items
  | some (.scalar "" .plain _) => some []
  | _ => none

/-- The pairs of a mapping; an empty plain scalar has none. -/
def pairs? (d : Document) (n : Node) : Option (List (Node × Node)) :=
  match d.resolve? n with
  | some (.mapping pairs) => some pairs
  | some (.scalar "" .plain _) => some []
  | _ => none

/-- The value of a field that stands once at most, or the default. -/
def field? {α : Type} (fields : List (String × Node)) (name : String) (absent : α)
    (read : Node → Option α) : Option α :=
  match fields.filter (·.1 == name) with
  | [] => some absent
  | [(_, n)] => read n
  | _ => none

/-- The fields of a mapping; all keys are scalars. -/
def fields? (d : Document) (n : Node) : Option (List (String × Node)) := do
  (← d.pairs? n).mapM fun (k, v) => do return (← d.text? k, v)

end Document

end Yaml

/-- The settings for storing that a node holds. -/
def CacheSettings.ofNode? (d : Yaml.Document) (n : Yaml.Node) : Option CacheSettings := do
  let fields ← d.fields? n
  let unset : CacheSettings := {}
  return {
    enabled := ← Yaml.Document.field? fields "enabled" unset.enabled d.bool?
    dir := ← Yaml.Document.field? fields "dir" unset.dir
      (d.optional? fun n => (d.text? n).map Path.mk) }

namespace Settings

/-- The settings that a node holds. -/
def ofNode? (d : Yaml.Document) (n : Yaml.Node) : Option Settings := do
  let fields ← d.fields? n
  let unset : Settings := {}
  let texts := fun n => do (← d.items? n).mapM d.text?
  return {
    version := ← Yaml.Document.field? fields "version" unset.version d.text?
    name := ← Yaml.Document.field? fields "name" unset.name d.text?
    cache := ← Yaml.Document.field? fields "cache" unset.cache (CacheSettings.ofNode? d)
    excludedPaths := ← Yaml.Document.field? fields "excluded_paths" unset.excludedPaths texts
    languages := ← Yaml.Document.field? fields "languages" unset.languages texts
    parallel := ← Yaml.Document.field? fields "parallel" unset.parallel (d.optional? d.bool?) }

/-- The settings that a YAML text holds; a text without any node holds the defaults. -/
def ofYaml? (text : String) : Option Settings := do
  let d ← Yaml.Document.ofText? text
  match d.root with
  | none => return {}
  | some n => ofNode? d n

/-- Whether files may be loaded side by side; they may, unless the settings say otherwise. -/
def runParallel (s : Settings) : Bool := s.parallel.getD true

/-- The directory in which outlines are stored, if they are stored: the one that is set, or
otherwise the given one of the user. -/
def cacheDir? (s : Settings) (userDir : Option Path) : Option Path :=
  if s.cache.enabled then s.cache.dir <|> userDir else none

/-- The filter that the settings describe. -/
def filter (s : Settings) : Except GlobError Filter :=
  Filter.ofTexts s.excludedPaths s.languages

/-- The names under which settings are found in a directory; the first one counts. -/
def fileNames : List String := ["stubtree.yaml", ".stubtree.yaml"]

end Settings

/-- The directories of a user, as far as they are known. -/
structure User where
  home : Option String := none
  /-- The directory for data that can be made again. -/
  caches : Option String := none

/-- The directory in which outlines of a user are stored. A directory for such data counts only if
it is absolute; without it, it is a hidden directory at home. -/
def User.outlinesDir? (u : User) : Option Path :=
  let set := (u.caches.map Path.mk).filter (·.isAbsolute)
  let standard := u.home.map fun h => (Path.mk h).join ⟨".cache"⟩
  (set <|> standard).map fun d => (d.join ⟨"stubtree"⟩).join ⟨"stubs"⟩

end Outline
