import Outline.Loader.Workspace
import Outline.Settings
import Outline.Syntax.Languages

/-!
# Loading outlines

A loader answers with the outline of exactly the content that a file has. It looks in three
places, the cheapest first: what it remembers, what the store keeps, and the source text. The
first two are trusted only if the fingerprint of the content agrees. This module provides:

* `Loader` with its filter and memory;
* `Persisted` and `Workspace.persisted` — what the store keeps for a file;
* `Loader.load`, `Loader.loadFile`, `Loader.readOrBuild` and `Loader.readPersisted`; and
* `Loader.invalidate`, after which nothing is known about a file.

Failures of the store never show in what is loaded. An answer is the number of a shared tree.
-/

namespace Outline

/-- What a loader remembers about a file: the fingerprint of its content and the tree it gave. -/
structure Memo where
  fingerprint : Fingerprint
  tree : Nat

/-- What the store keeps for a file, compared with the content of the file. -/
inductive Persisted
  /-- The outline of this content. -/
  | fresh (t : Tree)
  /-- An outline of other content, or in another format. -/
  | stale
  | missing
  /-- The store failed. -/
  | refused (cause : IoFault)
  /-- The bytes are no outline. -/
  | spoiled (cause : DecodeError)

/-- What the store keeps for a file. -/
def Workspace.persisted (w : Workspace) (file : SourceFile) : Persisted :=
  match w.store.get w.files file.key with
  | .error e => .refused e
  | .ok none => .missing
  | .ok (some bytes) =>
    match Tree.decode bytes with
    | .ok (f, t) => if f = file.fingerprint then .fresh t else .stale
    | .error (.version _) => .stale
    | .error e => .spoiled e

/-- A filter, and by key what was given last for a file. -/
structure Loader where
  filter : Filter := {}
  memory : Table String Memo := .empty

namespace Loader

/-- Whether a path is one that can be loaded. -/
def accepts (l : Loader) (p : Path) : Bool :=
  !l.filter.excludes p.text &&
    (Language.ofPath? p).any fun language => l.filter.allows language.name

/-- The tree that is remembered for exactly this content. -/
def remembered? (l : Loader) (file : SourceFile) : Option Nat :=
  match l.memory.get? file.key with
  | some m => if m.fingerprint = file.fingerprint then some m.tree else none
  | none => none

/-- The tree that is remembered for a path, whatever its content was. -/
def cached? (l : Loader) (fs : FileSystem) (p : Path) : Option Nat :=
  (l.memory.get? (fs.key p)).map (·.tree)

/-- Put a new tree on the shelf and remember it for a file. -/
def remember (l : Loader) (w : Workspace) (file : SourceFile) (t : Tree) :
    Nat × Loader × Workspace :=
  let (n, w) := w.shelve t
  (n, { l with memory := l.memory.insert file.key ⟨file.fingerprint, n⟩ }, w)

/-- The tree of a file without making one: what is remembered or kept for its content. -/
def readPersisted (l : Loader) (w : Workspace) (file : SourceFile) :
    Option Nat × Loader × Workspace :=
  match l.remembered? file with
  | some n => (some n, l, w)
  | none =>
    match w.persisted file with
    | .fresh t =>
      let (n, l, w) := l.remember w file t
      (some n, l, w)
    | _ => (none, l, w)

/-- The tree of a file: what is remembered or kept for its content, or else `made`, which is then
kept and remembered. -/
def readOr (l : Loader) (w : Workspace) (file : SourceFile) (made : Except LoadError Tree) :
    Except LoadError Nat × Loader × Workspace :=
  match l.readPersisted w file with
  | (some n, l, w) => (.ok n, l, w)
  | (none, l, w) =>
    match made with
    | .error e => (.error e, l, w)
    | .ok t =>
      let (n, l, w) := l.remember (w.keep file.key (t.encode file.fingerprint)) file t
      (.ok n, l, w)

/-- The tree of a file, made from given declarations if none is remembered or kept. -/
def readOrBuild (l : Loader) (w : Workspace) (file : SourceFile) (entries : List Entry) :
    Except LoadError Nat × Loader × Workspace :=
  l.readOr w file ((Tree.ofEntries entries).mapError .build)

/-- The tree of a source text. -/
def outline (g : Grammar) (file : SourceFile) : Except LoadError Tree :=
  match listingOf? g file.path file.content with
  | none => .error (.unsupported file.path)
  | some entries => (Tree.ofEntries entries).mapError .build

/-- The tree of a file whose content is known. -/
def loadFile (g : Grammar) (l : Loader) (w : Workspace) (file : SourceFile) :
    Except LoadError Nat × Loader × Workspace :=
  l.readOr w file (outline g file)

/-- The tree of a file as it is now. -/
def load (g : Grammar) (l : Loader) (w : Workspace) (p : Path) :
    Except LoadError Nat × Loader × Workspace :=
  if l.accepts p then
    match SourceFile.read w.files p with
    | .ok file => l.loadFile g w file
    | .error e => (.error e, l, w)
  else (.error (.unsupported p), l, w)

/-- Forget all about a file, also in the store. -/
def invalidate (l : Loader) (w : Workspace) (p : Path) :
    Except IoFault Unit × Loader × Workspace :=
  let key := w.files.key p
  let (done, w) := w.drop key
  (done, { l with memory := l.memory.erase key }, w)

end Loader

/-- Why settings make no loader. -/
inductive SetupError
  /-- The directory of the store cannot be made. -/
  | store (cause : IoFault)
  /-- A pattern of excluded paths cannot be read. -/
  | glob (cause : GlobError)
  deriving DecidableEq

/-- What went wrong, in words. -/
def SetupError.message : SetupError → String
  | .store e => "storage I/O error: " ++ e.message
  | .glob e => e.message

/-- The loader and the store that settings describe. The directory of the store is made first,
and stays also if the filter cannot be read. -/
def Settings.open (s : Settings) (user : User) (fs : FileSystem) :
    Except SetupError (Loader × Store) × FileSystem :=
  let withFilter := fun store =>
    (s.filter.mapError .glob).map fun f => (({ filter := f } : Loader), store)
  match s.cacheDir? user.outlinesDir? with
  | none => (withFilter .null, fs)
  | some dir =>
    match Store.openDisk fs dir with
    | .error e => (.error (.store e), fs)
    | .ok (store, fs) => (withFilter store, fs)

/-- Why settings cannot be had. -/
inductive SettingsError
  | io (cause : IoFault)
  /-- The text is not the YAML of settings. -/
  | yaml
  deriving DecidableEq

namespace Settings

/-- The settings in a file. -/
def read (fs : FileSystem) (p : Path) : Except SettingsError Settings := do
  match ofYaml? (← (fs.readText p).mapError .io) with
  | some s => return s
  | none => .error .yaml

/-- The file in a directory that holds settings. -/
def discover (fs : FileSystem) (dir : Path) : Option Path :=
  (fileNames.map fun n => dir.join ⟨n⟩).find? fs.isFile

/-- The settings in a given file, or those found in a directory, or the defaults. -/
def load (fs : FileSystem) (given : Option Path) (dir : Path) : Except SettingsError Settings :=
  match given <|> discover fs dir with
  | some p => read fs p
  | none => .ok {}

end Settings

end Outline
