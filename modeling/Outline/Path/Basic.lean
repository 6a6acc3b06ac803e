/-!
# Paths

A path is a text; what it means are its components. Two spellings with the same components
(doubled or trailing slashes, `.` in the middle) are the same path, and paths are ordered by
their components, so that everything in a directory stands together. A name whose bytes are not
UTF-8 is spelled by no text, so files of such names are left out. This module provides:

* `Component` and `Path.components`;
* `Path.compare` and `Path.same`;
* the parts of a path: `fileName?`, `extension?`, `parent?`, and
* `Path.join` and `Path.relativeTo`.
-/

namespace Outline

/-- One step of a path. -/
inductive Component where
  /-- the root, in front of an absolute path -/
  | root
  /-- the current directory, in front of a relative path -/
  | here
  /-- the directory above -/
  | up
  | name (s : String)
deriving DecidableEq, Repr

namespace Component

/-- The order of components that are not both names. -/
def rank : Component → Nat
  | root => 0
  | here => 1
  | up => 2
  | name _ => 3

/-- The order of components; names are ordered as texts. -/
def compare : Component → Component → Ordering
  | name s, name t => Ord.compare s t
  | a, b => Ord.compare a.rank b.rank

/-- How a component is written; the root is written by the slash behind it. -/
def text : Component → String
  | root => ""
  | here => "."
  | up => ".."
  | name s => s

end Component

/-- A path as it is written. -/
structure Path where
  text : String
deriving DecidableEq, Repr, Inhabited

namespace Path

/-- The pieces of a text between slashes. -/
def pieces : List Char → List (List Char)
  | [] => [[]]
  | c :: r =>
    if c = '/' then [] :: pieces r
    else match pieces r with
      | p :: ps => (c :: p) :: ps
      | [] => [[c]]

/-- The component that a piece stands for, unless it can be left out. -/
def component? (piece : List Char) : Option Component :=
  if piece = [] || piece = ['.'] then none
  else if piece = ['.', '.'] then some .up
  else some (.name (String.ofList piece))

/-- Whether a path starts at the root. -/
def isAbsolute (p : Path) : Bool :=
  p.text.toList.head? == some '/'

/-- The components of a path. -/
def components (p : Path) : List Component :=
  let ps := pieces p.text.toList
  let steps := ps.filterMap component?
  if p.isAbsolute then .root :: steps
  else if ps.head? = some ['.'] then .here :: steps
  else steps

/-- The order of lists of components: the first difference counts. -/
def compareComponents : List Component → List Component → Ordering
  | [], [] => .eq
  | [], _ :: _ => .lt
  | _ :: _, [] => .gt
  | a :: as, b :: bs => (a.compare b).then (compareComponents as bs)

/-- The order of paths. -/
def compare (p q : Path) : Ordering :=
  compareComponents p.components q.components

/-- Whether two texts spell the same path. -/
def same (p q : Path) : Bool :=
  p.components == q.components

/-- The last component, if it is a name. -/
def fileName? (p : Path) : Option String :=
  match p.components.getLast? with
  | some (.name s) => some s
  | _ => none

/-- What stands behind the last dot of a name. A dot in front of all else starts no
extension. -/
def extensionOf? (name : String) : Option String :=
  let reversed := name.toList.reverse
  match reversed.dropWhile (· ≠ '.') with
  | [] => none
  | [_] => none
  | _ :: _ :: _ => some (String.ofList (reversed.takeWhile (· ≠ '.')).reverse)

/-- The extension of the last component. -/
def extension? (p : Path) : Option String :=
  p.fileName?.bind extensionOf?

/-- A path with the given components. -/
def ofComponents : List Component → Path
  | .root :: cs => ⟨"/" ++ "/".intercalate (cs.map (·.text))⟩
  | cs => ⟨"/".intercalate (cs.map (·.text))⟩

/-- The path without its last component; the root and the empty path have none. -/
def parent? (p : Path) : Option Path :=
  match p.components.getLast? with
  | none => none
  | some .root => none
  | some _ => some (ofComponents p.components.dropLast)

/-- A path as seen from a directory. -/
def join (base p : Path) : Path :=
  if p.isAbsolute then p
  else if base.text.isEmpty || base.text.toList.getLast? == some '/' then ⟨base.text ++ p.text⟩
  else ⟨base.text ++ "/" ++ p.text⟩

/-- The path that leads from a directory to a path below it. -/
def relativeTo (p base : Path) : Option Path :=
  (dropComponents base.components p.components).map ofComponents
where
  /-- What is left of a list behind a list that it starts with. -/
  dropComponents : List Component → List Component → Option (List Component)
    | [], cs => some cs
    | _ :: _, [] => none
    | b :: bs, c :: cs => if b = c then dropComponents bs cs else none

/-- The absolute path through the given names. -/
def ofNames (names : List String) : Path :=
  ⟨"/" ++ "/".intercalate names⟩

end Path

end Outline
