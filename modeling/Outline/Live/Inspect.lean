import Outline.Live.Slots

/-!
# Descriptions for diagnosis

How a tree and a node of it describe themselves in one line: a tree by the numbers of its nodes
and of the live nodes made so far, a node by its id, kind and name.
-/

namespace Outline

/-- A record with its fields in one line. -/
def inspectRecord (name : String) (fields : List (String × String)) : String :=
  name ++ " \x7b " ++ ", ".intercalate (fields.map fun (k, v) => k ++ ": " ++ v) ++ " \x7d"

/-- The description of a node. -/
def Node.inspect (n : Node) (i : NodeId) : String :=
  inspectRecord "StubRef" [("id", "NodeId(" ++ toString i ++ ")"), ("kind", n.kind.label),
    ("name", Text.quoted n.payload.name)]

/-- The description of a tree. -/
def Tree.inspect (t : Tree) (s : Slots) : String :=
  inspectRecord "StubTree" [("nodes", toString t.size), ("materialized", toString s.count)]

end Outline
