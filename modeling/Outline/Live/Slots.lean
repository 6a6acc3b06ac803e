import Outline.Live.Registry

/-!
# Live nodes, each made at most once

A tree has one slot for each node. The first successful request for a node fills its slot, and
from then on the slot answers, whatever registry is given. A request that fails leaves the slot
empty, so that a later one can fill it. This module provides:

* `Slots` — the slots of a tree, with a log of the factory runs;
* `Query` — a computation over slots, which keeps what it filled also where it fails; and
* the queries `live`, `liveChildren` and `findAncestor?`.
-/

namespace Outline

/-- The live nodes of a tree that have been made. -/
structure Slots where
  /-- One slot for each node. -/
  nodes : Array (Option LiveNode)
  /-- The nodes for which a factory was run, the latest first. -/
  runs : List NodeId := []

namespace Slots

/-- The empty slots of a tree. -/
def forTree (t : Tree) : Slots := { nodes := Array.replicate t.size none }

/-- The live node in a slot. -/
def live? (s : Slots) (i : NodeId) : Option LiveNode := s.nodes[i]?.join

/-- The slots with one of them filled. -/
def fill (s : Slots) (i : NodeId) (n : LiveNode) : Slots :=
  { s with nodes := s.nodes.setIfInBounds i (some n) }

/-- The slots with one more run in the log. -/
def note (s : Slots) (i : NodeId) : Slots := { s with runs := i :: s.runs }

/-- The number of slots that are filled. -/
def count (s : Slots) : Nat := (s.nodes.toList.filter Option.isSome).length

end Slots

/-- A computation over the slots of a tree. What was filled stays so if it fails. -/
abbrev Query := ExceptT LiveError (StateM Slots)

namespace Tree

/-- A live node made afresh; if a factory was run, the log tells. -/
def materialize (t : Tree) (r : Registry) (i : NodeId) : Query LiveNode := do
  if (t.node? i).any fun n => r.contains n.kind then modify (·.note i)
  liftExcept (r.materialize t i)
where
  /-- A finished answer as a computation. -/
  liftExcept {α : Type} (x : Except LiveError α) : Query α := fun s => (x, s)

/-- The live node of a declaration, from its slot if that is filled. -/
def live (t : Tree) (r : Registry) (i : NodeId) : Query LiveNode := do
  match (← get).live? i with
  | some n => return n
  | none =>
    let n ← t.materialize r i
    modify (·.fill i n)
    return n

/-- The live nodes of the children whose kinds `p` accepts, up to the first that fails. -/
def liveChildren (t : Tree) (r : Registry) (p : Kind → Bool) (i : NodeId) :
    Query (List LiveNode) :=
  (t.childrenWhere p i).mapM (t.live r)

/-- The first live node of a list of nodes that `p` accepts, up to the first that fails. -/
def findLive? (t : Tree) (r : Registry) (p : LiveNode → Bool) :
    List NodeId → Query (Option LiveNode)
  | [] => return none
  | i :: rest => do
    let n ← t.live r i
    if p n then return some n else findLive? t r p rest

/-- The nearest owner of a node whose live node `p` accepts. -/
def findAncestor? (t : Tree) (r : Registry) (p : LiveNode → Bool) (i : NodeId) :
    Query (Option LiveNode) :=
  t.findLive? r p (t.ancestors i)

end Tree

end Outline
