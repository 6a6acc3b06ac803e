import Outline.Json.Value
import Outline.Tree.Basic

/-!
# Live elements

What a declaration becomes when it is asked for: an `Element` has the parts that its sort of
declaration can have, each under its own name. A `LiveNode` is an element together with the
place of its declaration in the tree.
-/

namespace Outline

/-- A declaration with its parts named. -/
inductive Element where
  | file (name : String) (language : Option String)
  | moduleScope (name : String)
  | typeDecl (name : String) (visibility supertype : Option String)
  | callable (name : String) (receiver visibility : Option String)
  | binding (name : String) (constant : Bool) (visibility : Option String)
  | importPath (path : String) (otherName : Option String)
deriving DecidableEq, Repr

namespace Element

/-- What an element is called; an import is called by its path. -/
def name : Element → String
  | file name _ => name
  | moduleScope name => name
  | typeDecl name _ _ => name
  | callable name _ _ => name
  | binding name _ _ => name
  | importPath path _ => path

/-- The sort of an element. -/
def tag : Element → String
  | file _ _ => "file"
  | moduleScope _ => "module"
  | typeDecl _ _ _ => "type"
  | callable _ _ _ => "callable"
  | binding _ _ _ => "variable"
  | importPath _ _ => "import"

/-- Whether an element is a type. -/
def isType : Element → Bool
  | typeDecl _ _ _ => true
  | _ => false

/-- The parts of an element as JSON; a part that is missing is null. -/
def members : Element → List (String × Json.Value)
  | file name language => [("name", .str name), ("language", .str? language)]
  | moduleScope name => [("name", .str name)]
  | typeDecl name visibility supertype =>
    [("name", .str name), ("visibility", .str? visibility), ("supertype", .str? supertype)]
  | callable name receiver visibility =>
    [("name", .str name), ("receiver", .str? receiver), ("visibility", .str? visibility)]
  | binding name constant visibility =>
    [("name", .str name), ("constant", .bool constant), ("visibility", .str? visibility)]
  | importPath path other => [("path", .str path), ("alias", .str? other)]

end Element

/-- An element at its place in a tree. -/
structure LiveNode where
  id : NodeId
  parent : Option NodeId
  kind : Kind
  element : Element
deriving DecidableEq, Repr

namespace LiveNode

/-- What the element is called. -/
def name (n : LiveNode) : String := n.element.name

/-- Whether the element is a type. -/
def isType (n : LiveNode) : Bool := n.element.isType

/-- The members of a live node as JSON: its place, the sort of its element and the parts. -/
def members (n : LiveNode) : List (String × Json.Value) :=
  [("stub", .nat n.id), ("parent", .nat? n.parent), ("kind", .str n.kind.name),
    ("element", .str n.element.tag)] ++ n.element.members

end LiveNode

end Outline
