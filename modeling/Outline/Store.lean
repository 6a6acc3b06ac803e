import Outline.FileSystem.Temporary
import Outline.Fingerprint

/-!
# Stores of outlines

A store keeps bytes by key. What it keeps may be lost or spoiled at any time, so nothing that is
read back is trusted, and a failure of a store costs no more than the work of making the bytes
again. This module provides:

* `Store` — a store that keeps nothing, one in memory, and one that keeps a file for each key in a
  directory;
* `Store.get`, `Store.put` and `Store.remove`, and for a directory `Store.clear`;
* `Store.putThrough`, which says how a file comes to its place; and
* `Store.filesOf`, what a directory holds.

An operation on a directory changes the file system, so each operation takes one and gives one
back.
-/

namespace Outline

/-- The operations of a store. -/
inductive StoreOp
  | load
  | store
  | remove
  deriving DecidableEq, Repr

/-- A place where bytes are kept by key. -/
inductive Store
  /-- Keeps nothing. -/
  | null
  /-- Keeps bytes in memory; the operations in `failing` are refused. -/
  | memory (entries : Table String (List UInt8)) (failing : List StoreOp)
  /-- Keeps each key in a file of its own in a directory. -/
  | disk (dir : Path)

namespace Store

/-- A store in memory, without keys. -/
def inMemory : Store := .memory .empty []

/-- The extension of the files of a store. -/
def fileExtension : String := "stub"

/-- The name of the file that keeps a key. Keys are paths, and their fingerprints are flat. -/
def fileName (key : String) : String :=
  (Fingerprint.ofContent key.toUTF8.toList).toHex ++ "." ++ fileExtension

/-- The file that keeps a key. -/
def fileOf (dir : Path) (key : String) : Path := dir.join ⟨fileName key⟩

/-- Open a store in a directory, which is made if it is not there. -/
def openDisk (fs : FileSystem) (dir : Path) : Except IoFault (Store × FileSystem) := do
  return (.disk dir, ← fs.makeDirs dir)

/-- The bytes of a key, if there are any. -/
def get (s : Store) (fs : FileSystem) (key : String) : Except IoFault (Option (List UInt8)) :=
  match s with
  | .null => .ok none
  | .memory entries failing =>
    if failing.contains .load then .error .permissionDenied else .ok (entries.get? key)
  | .disk dir =>
    match fs.read (fileOf dir key) with
    | .ok bytes => .ok (some bytes)
    | .error .notFound => .ok none
    | .error e => .error e

/-- Keep bytes for a key, in place of those kept before. -/
def put (s : Store) (fs : FileSystem) (key : String) (bytes : List UInt8) :
    Except IoFault (Store × FileSystem) :=
  match s with
  | .null => .ok (.null, fs)
  | .memory entries failing =>
    if failing.contains .store then .error .permissionDenied
    else .ok (.memory (entries.insert key bytes) failing, fs)
  | .disk dir => (fs.replace (fileOf dir key) bytes).map fun fs => (.disk dir, fs)

/-- Keep bytes for a key. In a directory they are written to a file of a temporary name, which then
takes the place of the file of the key. -/
def putThrough (temporary : String) (s : Store) (fs : FileSystem) (key : String)
    (bytes : List UInt8) : Except IoFault (Store × FileSystem) :=
  match s with
  | .disk dir =>
    (fs.replaceThrough (dir.join ⟨temporary⟩) (fileOf dir key) bytes).map fun fs => (.disk dir, fs)
  | s => s.put fs key bytes

/-- Drop what is kept for a key, if anything is. -/
def remove (s : Store) (fs : FileSystem) (key : String) : Except IoFault (Store × FileSystem) :=
  match s with
  | .null => .ok (.null, fs)
  | .memory entries failing =>
    if failing.contains .remove then .error .permissionDenied
    else .ok (.memory (entries.erase key) failing, fs)
  | .disk dir =>
    match fs.remove (fileOf dir key) with
    | .ok fs => .ok (.disk dir, fs)
    | .error .notFound => .ok (.disk dir, fs)
    | .error e => .error e

/-- The files of a store in a directory. -/
def filesOf (fs : FileSystem) (dir : Path) : Except IoFault (List Path) := do
  let paths := (← fs.list? dir).map fun n => dir.join ⟨n⟩
  return paths.filter (·.extension? == some fileExtension)

/-- Remove files one after another and count them, up to the first that cannot be removed. -/
def removeAll (fs : FileSystem) : List Path → Except IoFault Nat × FileSystem
  | [] => (.ok 0, fs)
  | p :: ps =>
    match fs.remove p with
    | .error e => (.error e, fs)
    | .ok fs =>
      let (n, fs) := removeAll fs ps
      (n.map (· + 1), fs)

/-- Remove all files of a store in a directory and count them. -/
def clear (fs : FileSystem) (dir : Path) : Except IoFault Nat × FileSystem :=
  match filesOf fs dir with
  | .error e => (.error e, fs)
  | .ok ps => removeAll fs ps

end Store

end Outline
