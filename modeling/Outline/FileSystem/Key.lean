import Outline.FileSystem.Basic

/-!
# Keys of files

The key of a file is the absolute path that stands for all spellings of the file. Steps are taken
away as they are spelled; then links are followed in the directories, as far as they are there,
but never in the name of the file. So a file keeps its key when it is deleted. This module
provides:

* `Path.normalize` — the names of a path, seen from a directory, without steps;
* `FileSystem.realPrefix` — names with the links in their longest existing part followed; and
* `FileSystem.key`.
-/

namespace Outline

/-- One component after the names so far: a step up takes the last name away. -/
def Component.follow (names : List String) : Component → List String
  | .root => []
  | .here => names
  | .up => names.dropLast
  | .name s => names ++ [s]

/-- The names of a path seen from a location, without steps. -/
def Path.normalize (base : List String) (p : Path) : List String :=
  p.components.foldl Component.follow base

namespace FileSystem

/-- The location that names lead to, links followed. -/
def realOf? (fs : FileSystem) (names : List String) : Option Location :=
  (fs.walk false maxLinks [] (names.map .name)).toOption

/-- Names, last first, with the links in their longest existing part followed. -/
def realPrefix (fs : FileSystem) : List String → Location
  | [] => []
  | n :: above =>
    match fs.realOf? (n :: above).reverse with
    | some l => l
    | none => realPrefix fs above ++ [n]

/-- The location that a path stands for as a file. -/
def keyLocation (fs : FileSystem) (p : Path) : Location :=
  match (p.normalize fs.current).reverse with
  | [] => []
  | n :: above => fs.realPrefix above ++ [n]

/-- The key of a file. -/
def key (fs : FileSystem) (p : Path) : String := (pathOf (fs.keyLocation p)).text

end FileSystem

end Outline
