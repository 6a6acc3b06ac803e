import Outline.Path.Basic
import Outline.Report.Ink
import Outline.Tree.Document

/-!
# An outline as a report

The tree of one file, as JSON with one object for each node in pre-order, or for people with one
indented line for each node. This module provides `Tree.toReport` and `Tree.reportLines`.
-/

namespace Outline.Tree

/-- A node as JSON. -/
def nodeValue (t : Tree) (i : NodeId) : Option Json.Value :=
  (t.node? i).map fun n =>
    .obj ([("id", .int i), ("kind", .str n.kind.name)] ++
      (n.parent.map fun p => ("parent", Json.Value.int p)).toList ++
      [("depth", .int (t.depth i))] ++ n.payload.members)

/-- The tree of a file as JSON. -/
def toReport (t : Tree) (file : Path) : Json.Value :=
  .obj [("file", .str file.text), ("nodes", .arr (t.preorder.filterMap t.nodeValue))]

/-- A node in one line, indented by two spaces for each level and one more. -/
def reportLine (t : Tree) (ink : Ink) (i : NodeId) : Option String :=
  (t.node? i).map fun n =>
    "".pushn ' ' (2 * (t.depth i + 1)) ++ ink.kind 0 n.kind ++ " " ++ n.payload.name ++
      ((n.payload.line?.map fun l => ink.paint .dimmed (":" ++ toString l)).getD "")

/-- The tree for people. -/
def reportLines (t : Tree) (ink : Ink) : List String :=
  [""] ++ t.preorder.filterMap (t.reportLine ink) ++ [""]

end Outline.Tree
