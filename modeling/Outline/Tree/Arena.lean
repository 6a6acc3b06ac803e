import Outline.Kind
import Outline.Payload

/-!
# The arena of a tree

Nodes stand in one array and name each other by position. This module provides:

* `Node` — kind, payload, parent and children of one declaration;
* `WellFormed` — what holds of every arena that grows by attaching nodes: parents stand before
  their children, only node 0 has no parent, the children of a node are exactly the nodes that
  name it, in increasing order, and every payload is without fault;
* `Arena` — an array of nodes with that invariant, and
* `Arena.attach` — the only way to grow one.
-/

namespace Outline

/-- The position of a node in its arena. -/
abbrev NodeId := Nat

/-- How a node id is written in messages. -/
def NodeId.text (id : NodeId) : String :=
  "#" ++ toString id

/-- One declaration in an arena. -/
structure Node where
  kind : Kind
  payload : Payload
  /-- The node that owns this one; the root has none. -/
  parent : Option NodeId
  /-- The nodes that this one owns, in the order of attachment. -/
  children : List NodeId
deriving DecidableEq, Inhabited

/-- Why a tree could not be built. -/
inductive BuildError where
  /-- There is nothing to build from. -/
  | empty
  /-- A second node without a parent. -/
  | secondRoot (index : Nat)
  /-- An entry lies deeper than one level below the entry before it. -/
  | badNesting (index depth max : Nat)
  /-- The named parent is not in the arena. -/
  | unknownParent (id : NodeId)
  /-- The payload may not stand in a tree. -/
  | malformedPayload (fault : PayloadFault)
deriving DecidableEq, Repr

/-- The wording of an error. -/
def BuildError.message : BuildError → String
  | empty => "no stub entries to build from"
  | secondRoot index => "entry " ++ toString index ++ " is a second root"
  | badNesting index depth max =>
      "entry " ++ toString index ++ " has depth " ++ toString depth ++ ", expected 1..=" ++
        toString max
  | unknownParent id => "parent " ++ id.text ++ " has not been attached"
  | malformedPayload fault => "malformed payload: " ++ fault.message

/-- What holds of an arena that grew by attaching one node after another. -/
structure WellFormed (nodes : Array Node) : Prop where
  /-- A parent stands before its children. -/
  parent_lt : ∀ (i : Nat) (h : i < nodes.size) (p : Nat), nodes[i].parent = some p → p < i
  /-- Only the first node has no parent. -/
  root_only : ∀ (i : Nat) (h : i < nodes.size), nodes[i].parent = none → i = 0
  /-- The children of a node are the nodes that name it, in increasing order. -/
  children_eq : ∀ (i : Nat) (h : i < nodes.size), nodes[i].children =
    (List.range nodes.size).filter fun c => nodes[c]?.bind (·.parent) == some i
  /-- Every payload is without fault. -/
  fault_none : ∀ (i : Nat) (h : i < nodes.size), nodes[i].payload.fault? = none

/-- The array without nodes is well formed. -/
theorem WellFormed.nil : WellFormed #[] where
  parent_lt i h := absurd h (Nat.not_lt_zero i)
  root_only i h := absurd h (Nat.not_lt_zero i)
  children_eq i h := absurd h (Nat.not_lt_zero i)
  fault_none i h := absurd h (Nat.not_lt_zero i)

/-- The array with one more node behind the others, entered among the children of its parent. -/
def pushNode (nodes : Array Node) (parent : Option NodeId) (kind : Kind) (payload : Payload) :
    Array Node :=
  let grown := nodes.push ⟨kind, payload, parent, []⟩
  match parent with
  | none => grown
  | some p => grown.modify p fun n => { n with children := n.children ++ [nodes.size] }

/-- One node more. -/
@[simp] theorem size_pushNode (nodes : Array Node) (parent : Option NodeId) (kind : Kind)
    (payload : Payload) : (pushNode nodes parent kind payload).size = nodes.size + 1 := by
  cases parent <;> simp [pushNode]

/-- What stands at each position after one more node. -/
theorem getElem_pushNode (nodes : Array Node) (parent : Option NodeId) (kind : Kind)
    (payload : Payload) (hp : ∀ p : Nat, parent = some p → p < nodes.size) (i : Nat)
    (h : i < (pushNode nodes parent kind payload).size) :
    (pushNode nodes parent kind payload)[i] =
      if hi : i < nodes.size then
        { nodes[i] with
          children := nodes[i].children ++ if parent = some i then [nodes.size] else [] }
      else ⟨kind, payload, parent, []⟩ := by
  cases parent with
  | none =>
    simp only [pushNode, Array.getElem_push]
    split <;> simp
  | some p =>
    have hpn := hp p rfl
    simp only [pushNode, Array.getElem_modify, Array.getElem_push]
    by_cases hi : i < nodes.size
    · by_cases hpi : p = i
      · simp [hi, hpi]
      · simp [hi, hpi]
    · have : p ≠ i := fun e => hi (e ▸ hpn)
      simp [hi, this]

/-- The parent that each position names after one more node. -/
theorem parent_pushNode (nodes : Array Node) (parent : Option NodeId) (kind : Kind)
    (payload : Payload) (hp : ∀ p : Nat, parent = some p → p < nodes.size) (i : Nat) :
    (pushNode nodes parent kind payload)[i]?.bind (·.parent) =
      if i = nodes.size then parent else nodes[i]?.bind (·.parent) := by
  by_cases h : i < (pushNode nodes parent kind payload).size
  · rw [Array.getElem?_eq_getElem h, getElem_pushNode nodes parent kind payload hp i h]
    have h' : i < nodes.size + 1 := by simpa using h
    by_cases hi : i < nodes.size
    · have : i ≠ nodes.size := by omega
      simp [hi, this]
    · have : i = nodes.size := by omega
      simp [this]
  · have h' : ¬ i < nodes.size + 1 := by simpa using h
    have h₁ : i ≠ nodes.size := by omega
    have h₂ : nodes.size ≤ i := by omega
    rw [Array.getElem?_eq_none (by simpa using Nat.le_of_not_lt h)]
    simp [h₁, Array.getElem?_eq_none h₂]

/-- A well-formed array stays so under one more node: the payload has to be without fault, and
the node names a parent that is there unless it is the first. -/
theorem WellFormed.pushNode {nodes : Array Node} (w : WellFormed nodes) {parent : Option NodeId}
    {kind : Kind} {payload : Payload} (hf : payload.fault? = none)
    (hn : parent = none → nodes.size = 0) (hp : ∀ p : Nat, parent = some p → p < nodes.size) :
    WellFormed (pushNode nodes parent kind payload) where
  parent_lt i h p hip := by
    rw [getElem_pushNode nodes parent kind payload hp i h] at hip
    split at hip
    · rename_i hi
      exact w.parent_lt i hi p hip
    · rename_i hi
      have h' : i < nodes.size + 1 := by simpa using h
      have := hp p hip
      omega
  root_only i h hi0 := by
    rw [getElem_pushNode nodes parent kind payload hp i h] at hi0
    split at hi0
    · rename_i hi
      exact w.root_only i hi hi0
    · have h' : i < nodes.size + 1 := by simpa using h
      have := hn hi0
      omega
  children_eq i h := by
    rw [getElem_pushNode nodes parent kind payload hp i h]
    simp only [size_pushNode, List.range_succ, List.filter_append,
      parent_pushNode nodes parent kind payload hp]
    have hold : ∀ j : Nat, (List.range nodes.size).filter (fun c =>
        (if c = nodes.size then parent else nodes[c]?.bind (·.parent)) == some j) =
        (List.range nodes.size).filter fun c => nodes[c]?.bind (·.parent) == some j := by
      intro j
      refine List.filter_congr fun c hc => ?_
      have : c ≠ nodes.size := by
        have := List.mem_range.1 hc
        omega
      simp [this]
    rw [hold i]
    split
    · rename_i hi
      rw [w.children_eq i hi]
      by_cases hpi : parent = some i <;> simp [hpi]
    · rename_i hi
      have h₁ : (List.range nodes.size).filter
          (fun c => nodes[c]?.bind (·.parent) == some i) = [] := by
        refine List.filter_eq_nil_iff.2 fun c hc => ?_
        have hcn := List.mem_range.1 hc
        rw [Array.getElem?_eq_getElem hcn]
        intro e
        exact hi (Nat.lt_trans (w.parent_lt c hcn i (by simpa using e)) hcn)
      have h₂ : parent ≠ some i := fun e => hi (hp i e)
      simp [h₁, h₂]
  fault_none i h := by
    rw [getElem_pushNode nodes parent kind payload hp i h]
    split
    · rename_i hi
      exact w.fault_none i hi
    · exact hf

/-- Nodes that grew by attachment. -/
structure Arena where
  nodes : Array Node
  wellFormed : WellFormed nodes

namespace Arena

/-- The arena without nodes. -/
def empty : Arena := ⟨#[], .nil⟩

/-- The number of nodes. -/
def size (a : Arena) : Nat := a.nodes.size

/-- Attach a node. The payload is looked at first, then the parent: the first node has none,
and every other names one that is there. The new node stands last. -/
def attach (a : Arena) (parent : Option NodeId) (kind : Kind) (payload : Payload) :
    Except BuildError Arena :=
  match hf : payload.fault? with
  | some fault => .error (.malformedPayload fault)
  | none =>
    match parent with
    | none =>
      if h : a.nodes.size = 0 then
        .ok ⟨pushNode a.nodes none kind payload,
          a.wellFormed.pushNode hf (fun _ => h) (fun _ e => nomatch e)⟩
      else .error (.secondRoot a.nodes.size)
    | some p =>
      if h : p < a.nodes.size then
        .ok ⟨pushNode a.nodes (some p) kind payload,
          a.wellFormed.pushNode hf (fun e => nomatch e) (fun _ e => Option.some.inj e ▸ h)⟩
      else .error (.unknownParent p)

end Arena

end Outline
