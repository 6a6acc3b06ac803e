import Outline.Tree.Arena

/-!
# Trees of declarations

A tree is an arena with at least one node; node 0 is its root. This module provides:

* the relations between nodes — `ancestors`, `depth` and `subtree` (a node and everything below
  it, in pre-order);
* `preorder` — all nodes, listed in one walk with a stack;
* `KindIndex` — the nodes of a tree by kind, gathered in one pass over the pre-order;
* `structurallyEqual` — equality of shape, kinds and payloads, whatever the ids; and
* `print` — the text of a tree, one line for each node.

The recursions below go from a node to its children, which stand later in the arena, or to its
parent, which stands earlier; both ends are in the arena's invariant, so no bound is needed.
-/

namespace Outline

/-- An arena with at least one node. -/
structure Tree where
  arena : Arena
  nonempty : 0 < arena.nodes.size

/-- The tree of an arena; an arena without nodes has none. -/
def Arena.toTree (a : Arena) : Except BuildError Tree :=
  if h : 0 < a.nodes.size then .ok ⟨a, h⟩ else .error .empty

namespace Tree

/-- The number of nodes. -/
def size (t : Tree) : Nat := t.arena.nodes.size

/-- The node at a position. -/
def node? (t : Tree) (i : NodeId) : Option Node := t.arena.nodes[i]?

/-- The root. -/
def root (t : Tree) : Node :=
  have := t.nonempty
  t.arena.nodes[0]

/-- The parent of a node. -/
def parent? (t : Tree) (i : NodeId) : Option NodeId := (t.node? i).bind (·.parent)

/-- The children of a node in the order of attachment. -/
def children (t : Tree) (i : NodeId) : List NodeId := ((t.node? i).map (·.children)).getD []

/-- A node that is there has a position in the arena. -/
theorem lt_size_of_node? {t : Tree} {i : Nat} {n : Node} (h : t.node? i = some n) :
    i < t.size :=
  (Array.getElem?_eq_some_iff.1 h).1

/-- Parents stand before their children. -/
theorem parent?_lt {t : Tree} {i p : Nat} (h : t.parent? i = some p) : p < i := by
  obtain ⟨n, hn, hp⟩ := Option.bind_eq_some_iff.1 h
  obtain ⟨hi, rfl⟩ := Array.getElem?_eq_some_iff.1 hn
  exact t.arena.wellFormed.parent_lt i hi p hp

/-- The children of a node are the nodes that name it. -/
theorem mem_children_iff {t : Tree} {i : Nat} {n : Node} (h : t.node? i = some n)
    {c : Nat} : c ∈ n.children ↔ t.parent? c = some i := by
  obtain ⟨hi, rfl⟩ := Array.getElem?_eq_some_iff.1 h
  rw [t.arena.wellFormed.children_eq i hi]
  simp only [List.mem_filter, List.mem_range, beq_iff_eq, parent?, node?]
  refine ⟨fun h => h.2, fun h => ⟨?_, h⟩⟩
  obtain ⟨m, hm, _⟩ := Option.bind_eq_some_iff.1 h
  exact (Array.getElem?_eq_some_iff.1 hm).1

/-- Children stand behind their parent, inside the arena. -/
theorem lt_of_mem_children {t : Tree} {i : Nat} {n : Node} (h : t.node? i = some n)
    {c : Nat} (hc : c ∈ n.children) : i < c ∧ c < t.size := by
  have hp := (mem_children_iff h).1 hc
  obtain ⟨m, hm, _⟩ := Option.bind_eq_some_iff.1 hp
  exact ⟨parent?_lt hp, lt_size_of_node? hm⟩

/-- Going to a child brings the end of the arena nearer. -/
theorem sub_lt_of_mem_children {t : Tree} {i : Nat} {n : Node} (h : t.node? i = some n)
    {c : Nat} (hc : c ∈ n.children) : t.size - c < t.size - i := by
  have := lt_of_mem_children h hc
  omega

/-- The owners of a node from its parent up to the root. -/
def ancestors (t : Tree) (i : NodeId) : List NodeId :=
  match h : t.parent? i with
  | none => []
  | some p =>
    have := parent?_lt h
    p :: t.ancestors p
termination_by i

/-- The number of owners of a node. -/
def depth (t : Tree) (i : NodeId) : Nat := (t.ancestors i).length

/-- A node and everything below it: the node first, then each child with what is below it. -/
def subtree (t : Tree) (i : NodeId) : List NodeId :=
  match h : t.node? i with
  | none => []
  | some n =>
    i :: n.children.attach.flatMap fun ⟨c, hc⟩ =>
      have := sub_lt_of_mem_children h hc
      t.subtree c
termination_by t.size - i

theorem subtree_of_none {t : Tree} {i : Nat} (h : t.node? i = none) : t.subtree i = [] := by
  rw [subtree]
  split
  · rfl
  · rename_i n hn
    rw [h] at hn
    cases hn

/-- A subtree is its node, followed by the subtrees of the node's children. -/
theorem subtree_of_some {t : Tree} {i : Nat} {n : Node} (h : t.node? i = some n) :
    t.subtree i = i :: n.children.flatMap t.subtree := by
  rw [subtree]
  split
  · rename_i hn
    rw [h] at hn
    cases hn
  · rename_i m hm
    obtain rfl : n = m := Option.some.inj (h.symm.trans hm)
    simp

theorem children_of_some {t : Tree} {i : Nat} {n : Node} (h : t.node? i = some n) :
    t.children i = n.children := by
  rw [children, h]
  rfl

theorem children_of_none {t : Tree} {i : Nat} (h : t.node? i = none) : t.children i = [] := by
  rw [children, h]
  rfl

/-- How much of a walk is left: the nodes still to be listed, then the height of the stack. -/
def pending (t : Tree) (stack : List NodeId) : Nat × Nat :=
  ((stack.flatMap t.subtree).length, stack.length)

/-- Listing a node brings the end of the walk nearer, whatever stands below it on the stack. -/
theorem pending_children (t : Tree) (i : NodeId) (rest : List NodeId) :
    Prod.Lex (· < ·) (· < ·) (t.pending (t.children i ++ rest)) (t.pending (i :: rest)) := by
  cases h : t.node? i with
  | none =>
    rw [pending, pending, children_of_none h, List.nil_append, List.flatMap_cons,
      subtree_of_none h, List.nil_append, List.length_cons]
    exact .right _ (Nat.lt_succ_self _)
  | some n =>
    refine .left _ _ ?_
    rw [children_of_some h, List.flatMap_append, List.flatMap_cons, subtree_of_some h,
      List.cons_append, List.length_cons]
    exact Nat.lt_succ_self _

/-- The nodes on a stack, the top first, each with all that is below it. The walk takes the node
on top and puts its children in its place, the first of them on top. -/
def listFrom (t : Tree) : List NodeId → List NodeId
  | [] => []
  | i :: rest => i :: t.listFrom (t.children i ++ rest)
termination_by stack => t.pending stack
decreasing_by exact t.pending_children i rest

/-- All nodes, each before those below it and siblings in order. -/
def preorder (t : Tree) : List NodeId := t.listFrom [0]

/-- Equality of two subtrees in shape, kinds and payloads. -/
def sameFrom (a b : Tree) (i j : NodeId) : Bool :=
  match h : a.node? i, b.node? j with
  | some n, some m =>
    n.kind == m.kind && n.payload == m.payload && n.children.length == m.children.length &&
      (n.children.attach.zip m.children).all fun (⟨c, hc⟩, d) =>
        have := sub_lt_of_mem_children h hc
        a.sameFrom b c d
  | _, _ => false
termination_by a.size - i

/-- Equality of shape, kinds and payloads, whatever the ids. -/
def structurallyEqual (a b : Tree) : Bool :=
  a.size == b.size && a.sameFrom b 0 0

end Tree

/-- How a declaration is shown in one line: its kind, and its name if it has one. -/
def Node.text (n : Node) : String :=
  if n.payload.name.isEmpty then n.kind.name else n.kind.name ++ " " ++ n.payload.name

namespace Tree

/-- The lines of a subtree, each indented by two spaces for each level. -/
def linesFrom (t : Tree) (level : Nat) (i : NodeId) : List String :=
  match h : t.node? i with
  | none => []
  | some n =>
    ("".pushn ' ' (2 * level) ++ n.text) ::
      n.children.attach.flatMap fun ⟨c, hc⟩ =>
        have := sub_lt_of_mem_children h hc
        t.linesFrom (level + 1) c
termination_by t.size - i

/-- The text of a subtree, one line for each node. -/
def printFrom (t : Tree) (i : NodeId) : String :=
  String.join ((t.linesFrom 0 i).map (· ++ "\n"))

/-- The text of the tree. -/
def print (t : Tree) : String := t.printFrom 0

/-- Whether a node has a kind out of those that `p` accepts. -/
def hasKind (t : Tree) (p : Kind → Bool) (i : NodeId) : Bool :=
  (t.node? i).any fun n => p n.kind

/-- The children of the kinds that `p` accepts. -/
def childrenWhere (t : Tree) (p : Kind → Bool) (i : NodeId) : List NodeId :=
  (t.children i).filter (t.hasKind p)

/-- The first child of a kind. -/
def findChild? (t : Tree) (k : Kind) (i : NodeId) : Option NodeId :=
  (t.children i).find? (t.hasKind (· == k))

end Tree

/-- The nodes of a tree by kind: one list, in pre-order, for each kind. -/
structure KindIndex where
  buckets : Vector (Array NodeId) 14

namespace KindIndex

/-- The index without nodes. -/
def empty : KindIndex := ⟨Vector.replicate 14 #[]⟩

/-- The index with one more node of a kind. -/
def add (x : KindIndex) (k : Kind) (i : NodeId) : KindIndex :=
  have := k.index_lt
  ⟨x.buckets.set k.index (x.buckets[k.index].push i)⟩

/-- The nodes of a kind. -/
def nodes (x : KindIndex) (k : Kind) : List NodeId :=
  have := k.index_lt
  x.buckets[k.index].toList

end KindIndex

namespace Tree

/-- The index of a tree, gathered in one pass over its pre-order. -/
def index (t : Tree) : KindIndex :=
  t.preorder.foldl (fun x i => match t.node? i with
    | some n => x.add n.kind i
    | none => x) .empty

/-- The nodes of a kind in pre-order. -/
def nodesOfKind (t : Tree) (k : Kind) : List NodeId := t.index.nodes k

/-- The kinds that occur, with the number of their nodes. -/
def kindCounts (t : Tree) : List (Kind × Nat) :=
  let x := t.index
  (Kind.all.map fun k => (k, (x.nodes k).length)).filter (·.2 ≠ 0)

end Tree

end Outline
