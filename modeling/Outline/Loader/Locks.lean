import Outline.Loader.Basic

/-!
# Locks of files

A loader that is shared makes and forgets the tree of a file with the lock of the file taken. The
locks stand in a table by key. A lock comes in when it is wanted for the first time and stays when
it is released, until the file is forgotten while nobody else wants the lock. What is remembered can
be had without a lock. This module provides:

* `Locks` — the table; and
* `LockingLoader` with the calls of a loader, each with the locks that it takes.
-/

namespace Outline

/-- By key, how many calls hold a lock or wait for it. -/
abbrev Locks := Table String Nat

namespace Locks

/-- How many calls hold a lock or wait for it. -/
def users (ls : Locks) (key : String) : Nat := (ls.get? key).getD 0

/-- Take a lock, which is made if it is not there. -/
def take (ls : Locks) (key : String) : Locks := ls.insert key (ls.users key + 1)

/-- Release a lock. It stays in the table. -/
def release (ls : Locks) (key : String) : Locks := ls.insert key (ls.users key - 1)

/-- Release a lock and take it out of the table, unless others want it. -/
def retire (ls : Locks) (key : String) : Locks :=
  if ls.users key = 1 then ls.erase key else ls.release key

end Locks

/-- A loader with the locks of its files. -/
structure LockingLoader extends Loader where
  locks : Locks := .empty

namespace LockingLoader

/-- Work with the lock of a file taken. -/
def holding {α : Type} (l : LockingLoader) (key : String)
    (work : Loader → α × Loader × Workspace) : α × LockingLoader × Workspace :=
  let locks := l.locks.take key
  let (a, m, w) := work l.toLoader
  (a, ⟨m, locks.release key⟩, w)

/-- The tree of a file without making one. It takes no lock. -/
def readPersisted (l : LockingLoader) (w : Workspace) (file : SourceFile) :
    Option Nat × LockingLoader × Workspace :=
  let (n, m, w) := l.toLoader.readPersisted w file
  (n, { l with toLoader := m }, w)

/-- The tree of a file, made from given declarations if none is remembered or kept. -/
def readOrBuild (l : LockingLoader) (w : Workspace) (file : SourceFile) (entries : List Entry) :
    Except LoadError Nat × LockingLoader × Workspace :=
  l.holding file.key fun m => m.readOrBuild w file entries

/-- The tree of a file whose content is known. The lock is taken only if none is remembered. -/
def loadFile (g : Grammar) (l : LockingLoader) (w : Workspace) (file : SourceFile) :
    Except LoadError Nat × LockingLoader × Workspace :=
  match l.remembered? file with
  | some n => (.ok n, l, w)
  | none => l.holding file.key fun m => m.loadFile g w file

/-- The tree of a file as it is now. -/
def load (g : Grammar) (l : LockingLoader) (w : Workspace) (p : Path) :
    Except LoadError Nat × LockingLoader × Workspace :=
  if l.accepts p then
    match SourceFile.read w.files p with
    | .ok file => l.loadFile g w file
    | .error e => (.error e, l, w)
  else (.error (.unsupported p), l, w)

/-- Forget all about a file, also in the store, and its lock unless others want it. -/
def invalidate (l : LockingLoader) (w : Workspace) (p : Path) :
    Except IoFault Unit × LockingLoader × Workspace :=
  let key := w.files.key p
  let locks := l.locks.take key
  let (done, m, w) := l.toLoader.invalidate w p
  (done, ⟨m, locks.retire key⟩, w)

end LockingLoader

end Outline
