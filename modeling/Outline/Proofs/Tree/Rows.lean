import Outline.Proofs.Tree.Preorder
import Outline.Tree.Document

/-!
# Outline.Proofs.Tree.Rows

**An arena is the list of its rows.** A row is what a document says of a node: its kind, the node
it names as its parent, and its payload. The lists of children add nothing to the rows, since the
arena's invariant derives them from the parents; so rows are the view through which attachment is
described, and two arenas with the same rows are equal.
-/

namespace Outline

/-! ### The rows of an arena -/

/-- What a document says of a node. -/
def Node.row (n : Node) : DocumentNode := ⟨n.kind, n.parent, n.payload⟩

/-- The rows of an arena in the order of the ids. -/
def Arena.rows (a : Arena) : List DocumentNode := a.nodes.toList.map Node.row

/-- The rows of a tree in the order of the ids. -/
def Tree.rows (t : Tree) : List DocumentNode := t.arena.rows

/-- What has to hold of a row that is added behind `n` others. -/
structure DocumentNode.Fits (r : DocumentNode) (n : Nat) : Prop where
  /-- The payload is without fault. -/
  payload : r.payload.fault? = none
  /-- Only the first row names no parent. -/
  root : r.parent = none → n = 0
  /-- The parent is one of the rows in front. -/
  parent : ∀ p : Nat, r.parent = some p → p < n

@[simp] theorem Arena.rows_empty : Arena.empty.rows = [] := rfl

@[simp] theorem Arena.length_rows (a : Arena) : a.rows.length = a.size := by
  simp [rows, size]

theorem Arena.getElem?_rows (a : Arena) (i : Nat) :
    a.rows[i]? = a.nodes[i]?.map Node.row := by
  simp [rows]

theorem Tree.length_rows (t : Tree) : t.rows.length = t.size := t.arena.length_rows

theorem Tree.getElem?_rows (t : Tree) (i : Nat) : t.rows[i]? = (t.node? i).map Node.row :=
  t.arena.getElem?_rows i

theorem Tree.parent?_eq_rows (t : Tree) (i : Nat) : t.parent? i = t.rows[i]?.bind (·.parent) := by
  rw [t.getElem?_rows, Tree.parent?]
  cases t.node? i <;> rfl

/-- Every row of an arena fits behind those in front of it. -/
theorem Arena.rows_fit (a : Arena) {i : Nat} {r : DocumentNode} (h : a.rows[i]? = some r) :
    r.Fits i := by
  rw [a.getElem?_rows] at h
  obtain ⟨n, hn, rfl⟩ := Option.map_eq_some_iff.1 h
  obtain ⟨hi, rfl⟩ := Array.getElem?_eq_some_iff.1 hn
  exact ⟨a.wellFormed.fault_none i hi, a.wellFormed.root_only i hi, a.wellFormed.parent_lt i hi⟩

/-! ### Rows determine the arena -/

theorem Arena.parent_eq_of_rows_eq {a b : Arena} (h : a.rows = b.rows) (i : Nat) :
    a.nodes[i]?.bind (·.parent) = b.nodes[i]?.bind (·.parent) := by
  have hi : a.nodes[i]?.map Node.row = b.nodes[i]?.map Node.row := by
    rw [← a.getElem?_rows, ← b.getElem?_rows, h]
  have hp : ∀ o : Option Node, o.bind (·.parent) = (o.map Node.row).bind (·.parent) := by
    intro o
    cases o <;> rfl
  rw [hp, hp b.nodes[i]?, hi]

/-- Arenas with the same rows are equal: who owns whom decides the lists of children. -/
theorem Arena.eq_of_rows_eq {a b : Arena} (h : a.rows = b.rows) : a = b := by
  have hsize : a.nodes.size = b.nodes.size := by
    rw [← Arena.size, ← Arena.size, ← a.length_rows, ← b.length_rows, h]
  have hnodes : a.nodes = b.nodes := by
    refine Array.ext hsize fun i ha hb => ?_
    have hrow : a.nodes[i].row = b.nodes[i].row := by
      have := a.getElem?_rows i
      rw [h, b.getElem?_rows, Array.getElem?_eq_getElem ha, Array.getElem?_eq_getElem hb] at this
      exact (Option.some.inj this).symm
    -- Children are not in the rows, but the invariant derives them from the parents.
    have hchildren : a.nodes[i].children = b.nodes[i].children := by
      rw [a.wellFormed.children_eq i ha, b.wellFormed.children_eq i hb, hsize]
      simp only [parent_eq_of_rows_eq h]
    simp only [Node.row, DocumentNode.mk.injEq] at hrow
    obtain ⟨hkind, hparent, hpayload⟩ := hrow
    cases hx : a.nodes[i]
    cases hy : b.nodes[i]
    simp_all
  cases a
  cases b
  simp_all

theorem Tree.eq_of_rows_eq {s t : Tree} (h : s.rows = t.rows) : s = t := by
  cases s
  cases t
  simp only [Tree.mk.injEq]
  exact Arena.eq_of_rows_eq h

/-! ### Attachment through rows -/

/-- One node more is one row more. -/
theorem rows_pushNode {nodes : Array Node} {parent : Option NodeId} {kind : Kind}
    {payload : Payload} (hp : ∀ p : Nat, parent = some p → p < nodes.size) :
    (pushNode nodes parent kind payload).toList.map Node.row =
      nodes.toList.map Node.row ++ [⟨kind, parent, payload⟩] := by
  refine List.ext_getElem (by simp) fun i h₁ h₂ => ?_
  have hi : i < (pushNode nodes parent kind payload).size := by simpa using h₁
  have hi' : i < nodes.size + 1 := by simpa using hi
  rw [List.getElem_map, Array.getElem_toList, getElem_pushNode nodes parent kind payload hp i hi]
  split
  · rename_i hlt
    rw [List.getElem_append_left (by simpa using hlt)]
    simp [Node.row]
  · have : i = nodes.size := by omega
    subst this
    rw [List.getElem_append_right (by simp)]
    simp [Node.row]

/-- A node that fits can be attached, and becomes the last row. -/
theorem Arena.attach_of_fits {a : Arena} {r : DocumentNode} (h : r.Fits a.size) :
    ∃ b, a.attach r.parent r.kind r.payload = .ok b ∧ b.rows = a.rows ++ [r] := by
  obtain ⟨kind, parent, payload⟩ := r
  obtain ⟨hf, hn, hp⟩ := h
  have hrows : (pushNode a.nodes parent kind payload).toList.map Node.row =
      a.nodes.toList.map Node.row ++ [⟨kind, parent, payload⟩] := rows_pushNode hp
  unfold Arena.attach
  split
  · rename_i fault hfault
    rw [hf] at hfault
    cases hfault
  · cases parent with
    | none => exact ⟨_, dif_pos (hn rfl), hrows⟩
    | some p => exact ⟨_, dif_pos (hp p rfl), hrows⟩

/-- A faulty payload is refused before anything else is looked at. -/
theorem Arena.attach_of_fault {a : Arena} {parent : Option NodeId} {kind : Kind}
    {payload : Payload} {fault : PayloadFault} (h : payload.fault? = some fault) :
    a.attach parent kind payload = .error (.malformedPayload fault) := by
  unfold Arena.attach
  split
  · rename_i other hother
    rw [Option.some.inj (h.symm.trans hother)]
  · rename_i hnone
    rw [h] at hnone
    cases hnone

/-- Behind other nodes none is attached without a parent. -/
theorem Arena.attach_of_second_root {a : Arena} {kind : Kind} {payload : Payload}
    (hf : payload.fault? = none) (ha : a.size ≠ 0) :
    a.attach none kind payload = .error (.secondRoot a.size) := by
  unfold Arena.attach
  split
  · rename_i fault hfault
    rw [hf] at hfault
    cases hfault
  · exact dif_neg ha

/-- No node is attached to one that is not there. -/
theorem Arena.attach_of_unknown_parent {a : Arena} {p : NodeId} {kind : Kind} {payload : Payload}
    (hf : payload.fault? = none) (hp : ¬ p < a.size) :
    a.attach (some p) kind payload = .error (.unknownParent p) := by
  unfold Arena.attach
  split
  · rename_i fault hfault
    rw [hf] at hfault
    cases hfault
  · exact dif_neg hp

theorem Arena.toTree_of_pos {a : Arena} (h : 0 < a.size) :
    ∃ t, a.toTree = .ok t ∧ t.rows = a.rows :=
  ⟨⟨a, h⟩, dif_pos h, rfl⟩

theorem Arena.toTree_of_zero {a : Arena} (h : a.size = 0) : a.toTree = .error .empty :=
  dif_neg (by rw [← Arena.size]; omega)

theorem Arena.rows_of_toTree {a : Arena} {t : Tree} (h : a.toTree = .ok t) : t.rows = a.rows := by
  unfold Arena.toTree at h
  split at h
  · cases h
    rfl
  · cases h

end Outline
