import Outline.FileSystem.Basic

/-!
# Files below a directory

The files that can be reached from a directory, also through links. A directory whose name is not
wanted is not entered, but the one where the search starts always is. A link that leads nowhere,
or back to a directory around it, makes the whole search fail. This module provides
`FileSystem.filesBelow` with its faults.
-/

namespace Outline

/-- Why the files below a directory cannot be found. -/
inductive ListingFault
  /-- A link cannot be followed. -/
  | link (path : Path) (cause : IoFault)
  /-- A link leads to a directory around it. -/
  | loop (path around : Path)
  deriving DecidableEq, Repr

/-- What went wrong, in words. -/
def ListingFault.message : ListingFault → String
  | .link p e => "IO error for operation on " ++ p.text ++ ": " ++ e.message
  | .loop p a => "File system loop found: " ++ p.text ++ " points to an ancestor " ++ a.text

namespace FileSystem

/-- Whether what stands at a location is a link. -/
def isLinkAt (fs : FileSystem) (l : Location) : Bool :=
  match fs.entry? l with
  | some (.link _) => true
  | _ => false

/-- The files below the first directory of `around`, which holds the directories that were
entered, each with the path that led to it. No more than `depth` directories are entered one in
another. -/
def filesWithin (fs : FileSystem) (enters : String → Bool) (depth : Nat)
    (around : List (Location × Path)) : Except ListingFault (List Path) :=
  match depth, around with
  | depth + 1, (l, p) :: _ => do
    let found ← (fs.namesAt l).mapM fun n => do
      let q := p.join ⟨n⟩
      let m ← (fs.walk false maxLinks l [.name n]).mapError (.link q)
      if fs.isDirAt m then
        match if fs.isLinkAt (l ++ [n]) then around.lookup m else none with
        | some a => .error (.loop q a)
        | none => if enters n then fs.filesWithin enters depth ((m, q) :: around) else return []
      else return [q]
    return found.flatten
  | _, _ => .ok []

/-- The files below a directory, by a path that is there, in the order of paths. Links never lead
twice to one of the directories around, and between two links no directory comes twice, so the
square of the number of directories bounds how deep a search goes. -/
def filesBelow (fs : FileSystem) (enters : String → Bool) (p : Path) :
    Except ListingFault (List Path) := do
  let l ← (fs.locate p).mapError (.link p)
  let places := fs.entries.size + 1
  let found ← fs.filesWithin enters (places * places) [(l, p)]
  return found.mergeSort fun a b => (a.compare b).isLE

end FileSystem

end Outline
