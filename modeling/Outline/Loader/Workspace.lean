import Outline.FileSystem.Key
import Outline.Live.Slots
import Outline.Store
import Outline.Tree.Document

/-!
# What loaders work with

Loaders read source files, keep outlines in a store, and hand out trees that are shared: whoever
asks for the same tree sees the live nodes that others made in it. This module provides:

* `SourceFile` — the content of a file with its key and fingerprint;
* `Shelf` — the trees that were handed out, with their slots; a tree is known by its number; and
* `Workspace` — the files, a store and a shelf.
-/

namespace Outline

/-- Why no outline of a file can be had. -/
inductive LoadError
  /-- No language belongs to the file, or the filter leaves it out. -/
  | unsupported (path : Path)
  | unreadable (path : Path) (cause : IoFault)
  /-- The declarations of the file make no tree. -/
  | build (cause : BuildError)
  deriving DecidableEq

/-- What went wrong, in words. -/
def LoadError.message : LoadError → String
  | .unsupported p => "no stub producer for " ++ p.text
  | .unreadable p _ => "failed to read " ++ p.text
  | .build e => e.message

/-- The content of a file at some time. -/
structure SourceFile where
  path : Path
  key : String
  content : List UInt8
  fingerprint : Fingerprint

namespace SourceFile

/-- A file with content that is already known. -/
def ofContent (fs : FileSystem) (p : Path) (content : List UInt8) : SourceFile :=
  ⟨p, fs.key p, content, Fingerprint.ofContent content⟩

/-- A file as it is now. -/
def read (fs : FileSystem) (p : Path) : Except LoadError SourceFile :=
  match fs.read p with
  | .ok content => .ok (ofContent fs p content)
  | .error e => .error (.unreadable p e)

end SourceFile

/-- The trees that were handed out, in order, each with its slots. -/
structure Shelf where
  trees : Array (Tree × Slots) := #[]

namespace Shelf

/-- Put a new tree on the shelf. Its number is how many stood there before. -/
def add (s : Shelf) (t : Tree) : Nat × Shelf :=
  (s.trees.size, ⟨s.trees.push (t, .forTree t)⟩)

/-- The tree with a number. -/
def tree? (s : Shelf) (n : Nat) : Option Tree := s.trees[n]?.map (·.1)

/-- Run a query on the tree with a number. -/
def query {α : Type} (s : Shelf) (n : Nat) (q : Tree → Query α) :
    Option (Except LiveError α × Shelf) :=
  s.trees[n]?.map fun (t, slots) =>
    let (answer, slots) := (q t).run slots
    (answer, ⟨s.trees.setIfInBounds n (t, slots)⟩)

end Shelf

/-- The files, a store and the trees that were handed out. -/
structure Workspace where
  files : FileSystem := {}
  store : Store := .null
  shelf : Shelf := {}

namespace Workspace

/-- Put a new tree on the shelf. -/
def shelve (w : Workspace) (t : Tree) : Nat × Workspace :=
  let (n, shelf) := w.shelf.add t
  (n, { w with shelf := shelf })

/-- Keep bytes in the store, if it lets that happen. -/
def keep (w : Workspace) (key : String) (bytes : List UInt8) : Workspace :=
  match w.store.put w.files key bytes with
  | .ok (store, files) => { w with store := store, files := files }
  | .error _ => w

/-- Drop what the store keeps for a key. -/
def drop (w : Workspace) (key : String) : Except IoFault Unit × Workspace :=
  match w.store.remove w.files key with
  | .ok (store, files) => (.ok (), { w with store := store, files := files })
  | .error e => (.error e, w)

end Workspace

end Outline
