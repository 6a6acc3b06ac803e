import Outline.Path.Basic
import Outline.Table

/-!
# File systems

A file system gives entries to locations. A location is the list of names that leads to it from
the root, free of links and of the steps `.` and `..`; a path is what a user writes. This module
provides:

* `FileSystem` and its entries: files, directories and links;
* `FileSystem.walk` — from a path to a location, through links; and
* the operations on paths: `read`, `write`, `replace`, `remove`, `makeDir`, `makeDirs`, `link`,
  `list?` and `real?`, the path without links.

An operation that fails changes nothing.
-/

namespace Outline

/-- Why an operation on a path fails. -/
inductive IoFault
  | notFound
  | permissionDenied
  | alreadyExists
  | notADirectory
  | isADirectory
  | tooManyLinks
  /-- Text was expected, and the bytes are not text. -/
  | notText
  deriving DecidableEq, Repr

/-- What went wrong, in words. -/
def IoFault.message : IoFault → String
  | .notFound => "No such file or directory (os error 2)"
  | .permissionDenied => "Permission denied (os error 13)"
  | .alreadyExists => "File exists (os error 17)"
  | .notADirectory => "Not a directory (os error 20)"
  | .isADirectory => "Is a directory (os error 21)"
  | .tooManyLinks => "Too many levels of symbolic links (os error 40)"
  | .notText => "stream did not contain valid UTF-8"

/-- The names that lead from the root to a place. -/
abbrev Location := List String

namespace FileSystem

/-- What is at a location. -/
inductive Entry
  | file (content : List UInt8)
  | directory
  /-- A link to another path, seen from the directory of the link. -/
  | link (target : Path)
  deriving DecidableEq

/-- A step of a walk. -/
inductive Step
  | here
  | up
  | name (s : String)
  deriving DecidableEq

/-- The step that a piece of a path stands for; an empty piece is none. -/
def Step.ofPiece? (piece : List Char) : Option Step :=
  if piece = [] then none
  else if piece = ['.'] then some .here
  else if piece = ['.', '.'] then some .up
  else some (.name (String.ofList piece))

/-- The steps of a path. -/
def steps (p : Path) : List Step :=
  (Path.pieces p.text.toList).filterMap Step.ofPiece?

/-- Whether a path ends in a slash, and so can only mean a directory. -/
def endsInSlash (p : Path) : Bool := p.text.toList.getLast? == some '/'

/-- The steps of a path to something that is there. -/
def allSteps (p : Path) : List Step :=
  steps p ++ if endsInSlash p then [.here] else []

/-- The number of links that a walk follows. -/
def maxLinks : Nat := 40

end FileSystem

open FileSystem (Entry Step)

/-- Entries by location, and the current directory. The root is always there. -/
structure FileSystem where
  entries : Table Location Entry := .empty
  current : Location := []

namespace FileSystem

/-- What is at a location. -/
def entry? (fs : FileSystem) (l : Location) : Option Entry :=
  if l.isEmpty then some .directory else fs.entries.get? l

/-- Whether a location is a directory. -/
def isDirAt (fs : FileSystem) (l : Location) : Bool := fs.entry? l == some .directory

/-- Where the walk of a path begins. -/
def start (fs : FileSystem) (p : Path) : Location := if p.isAbsolute then [] else fs.current

/-- Walk from a directory. All links on the way are followed, up to their number `links`, the last
one included. If `creating`, the last name need not be there. -/
def walk (fs : FileSystem) (creating : Bool) (links : Nat) (l : Location) :
    List Step → Except IoFault Location
  | [] => .ok l
  | .here :: r => walk fs creating links l r
  | .up :: r => walk fs creating links l.dropLast r
  | .name n :: r =>
    match fs.entry? (l ++ [n]) with
    | some .directory => walk fs creating links (l ++ [n]) r
    | some (.file _) => if r.isEmpty then .ok (l ++ [n]) else .error .notADirectory
    | some (.link target) =>
      match links with
      | 0 => .error .tooManyLinks
      | links + 1 =>
        walk fs creating links (if target.isAbsolute then [] else l) (allSteps target ++ r)
    | none => if creating && r.isEmpty then .ok (l ++ [n]) else .error .notFound
termination_by steps => (links, steps.length)

/-- The location of a path that is there. -/
def locate (fs : FileSystem) (p : Path) : Except IoFault Location :=
  if p.text.isEmpty then .error .notFound
  else fs.walk false maxLinks (fs.start p) (allSteps p)

/-- The location that a path names in its directory, whether something is there or not; a link
there is not followed. Paths that do not end in a name have none. -/
def place? (fs : FileSystem) (p : Path) : Except IoFault (Option Location) :=
  if p.text.isEmpty then .error .notFound
  else do
    let l ← fs.walk false maxLinks (fs.start p) ((steps p).dropLast ++ [.here])
    match (steps p).getLast? with
    | some (.name n) => return some (l ++ [n])
    | _ => return none

/-- The path of a location. -/
def pathOf (l : Location) : Path := Path.ofNames l

/-- A path without links and steps. -/
def real? (fs : FileSystem) (p : Path) : Except IoFault Path := (fs.locate p).map pathOf

/-- Whether a path is a directory. -/
def isDir (fs : FileSystem) (p : Path) : Bool :=
  match fs.locate p with
  | .ok l => fs.isDirAt l
  | .error _ => false

/-- Whether a path is a file. -/
def isFile (fs : FileSystem) (p : Path) : Bool :=
  match fs.locate p with
  | .ok l => !fs.isDirAt l
  | .error _ => false

/-- The content of a file. -/
def read (fs : FileSystem) (p : Path) : Except IoFault (List UInt8) := do
  match fs.entry? (← fs.locate p) with
  | some (.file content) => return content
  | some .directory => .error .isADirectory
  | _ => .error .notFound

/-- The text of a file. -/
def readText (fs : FileSystem) (p : Path) : Except IoFault String := do
  match String.fromUTF8? ⟨(← fs.read p).toArray⟩ with
  | some text => return text
  | none => .error .notText

/-- Set the entry of a location. -/
def set (fs : FileSystem) (l : Location) (e : Entry) : FileSystem :=
  { fs with entries := fs.entries.insert l e }

/-- Give a file new content; it is made if it is not there. Links are followed. -/
def write (fs : FileSystem) (p : Path) (content : List UInt8) : Except IoFault FileSystem := do
  if p.text.isEmpty then .error .notFound
  let l ← fs.walk true maxLinks (fs.start p) (allSteps p)
  if fs.isDirAt l then .error .isADirectory
  return fs.set l (.file content)

/-- Put a new file in place of what a path names, unless that is a directory. -/
def replace (fs : FileSystem) (p : Path) (content : List UInt8) : Except IoFault FileSystem := do
  match ← fs.place? p with
  | some l => if fs.isDirAt l then .error .isADirectory else return fs.set l (.file content)
  | none => .error .isADirectory

/-- Take away a file or a link. -/
def remove (fs : FileSystem) (p : Path) : Except IoFault FileSystem := do
  match ← fs.place? p with
  | none => .error .isADirectory
  | some l =>
    match fs.entry? l with
    | none => .error .notFound
    | some .directory => .error .isADirectory
    | some _ =>
      if endsInSlash p then .error .notADirectory
      else return { fs with entries := fs.entries.erase l }

/-- Make something new where nothing is. -/
def make (fs : FileSystem) (p : Path) (e : Entry) : Except IoFault FileSystem := do
  match ← fs.place? p with
  | some l => if (fs.entry? l).isSome then .error .alreadyExists else return fs.set l e
  | none => .error .alreadyExists

/-- Make a directory in a directory that is there. -/
def makeDir (fs : FileSystem) (p : Path) : Except IoFault FileSystem := fs.make p .directory

/-- Make a link. -/
def link (fs : FileSystem) (p target : Path) : Except IoFault FileSystem := fs.make p (.link target)

/-- Make a directory, after those around it; `around` bounds their number. -/
def makeDirsWithin (fs : FileSystem) (p : Path) (around : Nat) : Except IoFault FileSystem :=
  if p.text.isEmpty then .ok fs
  else match fs.makeDir p, around with
  | .ok fs, _ => .ok fs
  | .error .notFound, n + 1 =>
    match p.parent? with
    | none => .error .notFound
    | some above => do
      let fs ← fs.makeDirsWithin above n
      match fs.makeDir p with
      | .ok fs => .ok fs
      | .error e => if fs.isDir p then .ok fs else .error e
  | .error e, _ => if fs.isDir p then .ok fs else .error e

/-- Make a directory and those around it that are missing. -/
def makeDirs (fs : FileSystem) (p : Path) : Except IoFault FileSystem :=
  fs.makeDirsWithin p p.components.length

/-- The names in a directory, in order. -/
def namesAt (fs : FileSystem) (l : Location) : List String :=
  let names := fs.entries.entries.filterMap fun (k, _) =>
    if k.dropLast = l then k.getLast? else none
  names.mergeSort (· ≤ ·)

/-- The names in the directory that a path names. -/
def list? (fs : FileSystem) (p : Path) : Except IoFault (List String) := do
  let l ← fs.locate p
  if fs.isDirAt l then return fs.namesAt l else .error .notADirectory

end FileSystem

end Outline
