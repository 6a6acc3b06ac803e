import Outline.Proofs.Tree.DocumentText
import Outline.Proofs.Tree.Nesting

/-!
# Outline.Proofs.Tree.RoundTrip

**A tree survives being persisted.** A document lists the nodes of a tree in pre-order, so reading
it back renumbers them: the node at position `j` of the pre-order becomes node `j`. Since owners
come first in the pre-order, every row of the document finds its parent (`rows_fit_ofTree`), and
since siblings keep their order there, attaching the rows one after another rebuilds every list of
children (`Renumbers.children`). What comes back is therefore the same tree up to ids, and the same
arena if the ids were in pre-order already.

`t.position i` is the place of node `i` in the pre-order; with `t.preorder[j]?` it makes the two
directions of the renumbering.
-/

namespace Outline

/-! ### Documents that make a tree

Reading fails at the first row that does not fit behind those in front of it. So if every row fits,
all are attached, and the arena has just these rows: there is nothing else that reading could
add. -/

namespace Document

/-- A row that fits is attached, -/
theorem attachNode_of_fits {a : Arena} {r : DocumentNode} (h : r.Fits a.size) :
    ∃ b, attachNode a r = .ok b ∧ b.rows = a.rows ++ [r] := by
  obtain ⟨b, hb, hrows⟩ := Arena.attach_of_fits h
  -- The parent stands in front, so the check for one that comes too late finds nothing.
  have hlate : r.parent.filter (a.size ≤ ·) = none := by
    rw [Option.filter_eq_none_iff]
    intro p hp
    have := h.parent p hp
    simpa using this
  refine ⟨b, ?_, hrows⟩
  rw [attachNode, hlate]
  simp only [hb]

/-- rows that fit one behind the other are attached all, -/
theorem foldlM_attachNode (rows : List DocumentNode) (a : Arena)
    (h : ∀ (i : Nat) (r : DocumentNode), rows[i]? = some r → r.Fits (a.size + i)) :
    ∃ b, rows.foldlM attachNode a = .ok b ∧ b.rows = a.rows ++ rows := by
  induction rows generalizing a with
  | nil => exact ⟨a, rfl, (List.append_nil _).symm⟩
  | cons r rows ih =>
      obtain ⟨b, hb, hrows⟩ := attachNode_of_fits (h 0 r rfl)
      have hsize : b.size = a.size + 1 := by
        rw [← b.length_rows, hrows, List.length_append, a.length_rows]
        rfl
      obtain ⟨c, hc, hrows'⟩ := ih b fun i s hs => by
        have := h (i + 1) s hs
        rwa [hsize, Nat.add_assoc, Nat.add_comm 1 i]
      refine ⟨c, ?_, ?_⟩
      · rw [List.foldlM_cons, hb]
        exact hc
      · rw [hrows', hrows, List.append_assoc]
        rfl

/-- and a document of such rows is a tree. -/
theorem toTree_of_fits {d : Document} {f : Fingerprint} (hformat : d.format = formatVersion)
    (hf : Fingerprint.ofHex? d.fingerprint = some f) (hpos : 0 < d.nodes.length)
    (h : ∀ (i : Nat) (r : DocumentNode), d.nodes[i]? = some r → r.Fits i) :
    ∃ t, d.toTree = .ok (f, t) ∧ t.rows = d.nodes := by
  obtain ⟨a, ha, hrows⟩ := foldlM_attachNode d.nodes .empty fun i r hr => by
    rw [show Arena.empty.size = 0 from rfl, Nat.zero_add]
    exact h i r hr
  have hsize : 0 < a.size := by
    rw [← a.length_rows, hrows]
    exact hpos
  obtain ⟨t, ht, htrows⟩ := Arena.toTree_of_pos hsize
  refine ⟨t, ?_, htrows.trans hrows⟩
  rw [toTree, if_neg (not_not_intro hformat), hf]
  simp only [ha, ht]

end Document

namespace Tree

variable {t : Tree}

/-! ### Positions in the pre-order

The pre-order has every node once, so positions and nodes determine each other. Of its order two
facts are used: an owner is in front of what it owns, and siblings are in the order of their ids. -/

/-- The place of a node in the pre-order. -/
def position (t : Tree) (i : Nat) : Nat := t.preorder.idxOf i

/-- Who stands at a place has it for position, -/
theorem position_of_getElem? {i j : Nat} (h : t.preorder[j]? = some i) : t.position i = j := by
  obtain ⟨hj, rfl⟩ := List.getElem?_eq_some_iff.1 h
  exact t.nodup_preorder.idxOf_getElem j hj

/-- and at the position of a node stands the node. -/
theorem getElem?_position {i : Nat} (h : i < t.size) :
    t.preorder[t.position i]? = some i :=
  List.getElem?_idxOf (mem_preorder_iff.2 h)

/-- There is no position behind the last. -/
theorem position_lt {i : Nat} (h : i < t.size) : t.position i < t.size := by
  rw [← t.length_preorder]
  exact List.idxOf_lt_length_of_mem (mem_preorder_iff.2 h)

/-- At every place stands a node. -/
theorem getElem?_preorder_of_lt {j : Nat} (h : j < t.size) :
    ∃ i, t.preorder[j]? = some i ∧ i < t.size := by
  rw [← t.length_preorder] at h
  exact ⟨_, List.getElem?_eq_getElem h, mem_preorder_iff.1 (List.getElem_mem h)⟩

/-- The root comes first. -/
theorem position_zero (t : Tree) : t.position 0 = 0 := by
  obtain ⟨n, hn⟩ := node?_of_lt t.nonempty
  rw [position, preorder_eq, subtree_of_some hn, List.idxOf_cons_self]

/-- What stands at two positions stands in the order of the listing. -/
theorem ordered_of_position_lt {a b : Nat} (ha : a < t.size) (hb : b < t.size)
    (h : t.position a < t.position b) : t.Ordered a b := by
  have hordered := List.pairwise_iff_getElem.1 t.preorder_ordered (t.position a) (t.position b)
  obtain ⟨hja, hga⟩ := List.getElem?_eq_some_iff.1 (getElem?_position ha)
  obtain ⟨hjb, hgb⟩ := List.getElem?_eq_some_iff.1 (getElem?_position hb)
  have := hordered hja hjb h
  rwa [hga, hgb] at this

/-- An owner stands before what it owns. -/
theorem position_parent_lt {i p : Nat} (h : t.parent? i = some p) :
    t.position p < t.position i := by
  have hi := lt_size_of_parent? h
  have hp := Nat.lt_trans (parent?_lt h) hi
  rcases Nat.lt_trichotomy (t.position p) (t.position i) with hlt | heq | hgt
  · exact hlt
  · have hpi : some p = some i := by
      rw [← getElem?_position hp, heq, getElem?_position hi]
    exact absurd (Option.some.inj hpi) (Nat.ne_of_lt (parent?_lt h))
  -- in front of its owner no node can stand, by the order of the listing
  · exact absurd h (ordered_of_position_lt hi hp hgt).2.1

end Tree

/-! ### The rows of a document

The code makes a table of positions first and then maps the parents through it. That the table holds
the positions is an induction over what is entered, in which every entry is at a place of its
own. -/

namespace Document

/-- Entering the members of a list in a table, each with its place from `k` on. -/
theorem getD_foldl_zipIdx {l : List Nat} (h : l.Nodup) (k : Nat) (ps : Array Nat) {i : Nat}
    (hi : i < ps.size) :
    ((l.zipIdx k).foldl (fun ps (i, pos) => ps.setIfInBounds i pos) ps).getD i 0 =
      if i ∈ l then k + l.idxOf i else ps.getD i 0 := by
  induction l generalizing k ps with
  | nil => rfl
  | cons a l ih =>
      obtain ⟨hal, hl⟩ := List.nodup_cons.1 h
      rw [List.zipIdx_cons, List.foldl_cons, ih hl (k + 1) _ (by simpa using hi)]
      by_cases hia : i = a
      · subst hia
        rw [if_neg hal, if_pos List.mem_cons_self, List.idxOf_cons_self]
        simp [Array.getD, hi]
      · have hmem : i ∈ a :: l ↔ i ∈ l := by simp [hia]
        have hidx : (a :: l).idxOf i = l.idxOf i + 1 := by
          rw [List.idxOf_cons_ne _ (Ne.symm hia)]
        simp only [hmem, hidx]
        split
        · omega
        · simp [Array.getD, hi, Ne.symm hia]

/-- The table of positions holds the position of every node. -/
theorem getD_positions {t : Tree} {i : Nat} (h : i < t.size) :
    (positions t).getD i 0 = t.position i := by
  rw [positions, getD_foldl_zipIdx t.nodup_preorder 0 _ (by simpa using h),
    if_pos (Tree.mem_preorder_iff.2 h), Nat.zero_add]
  rfl

/-- A list in which nothing is left out is filtered place by place. -/
theorem getElem?_filterMap_of_isSome {α β : Type} {g : α → Option β} {l : List α}
    (h : ∀ a ∈ l, (g a).isSome) (j : Nat) : (l.filterMap g)[j]? = l[j]?.bind g := by
  induction l generalizing j with
  | nil => rfl
  | cons a l ih =>
      obtain ⟨b, hb⟩ := Option.isSome_iff_exists.1 (h a List.mem_cons_self)
      rw [List.filterMap_cons_some hb]
      cases j with
      | zero => exact hb.symm
      | succ j => exact ih (fun x hx => h x (List.mem_cons_of_mem _ hx)) j

/-- Row `j` of a document describes node `j` of the pre-order, its parent by its position. -/
theorem getElem?_nodes_ofTree {t : Tree} (f : Fingerprint) (j : Nat) :
    (ofTree t f).nodes[j]? = t.preorder[j]?.bind fun i =>
      (t.node? i).map fun n => ⟨n.kind, (t.parent? i).map t.position, n.payload⟩ := by
  have hnode : ∀ i ∈ t.preorder, ((t.node? i).map fun n =>
      (⟨n.kind, n.parent.map ((positions t).getD · 0), n.payload⟩ : DocumentNode)).isSome := by
    intro i hi
    obtain ⟨n, hn⟩ := Tree.node?_of_lt (Tree.mem_preorder_iff.1 hi)
    rw [hn]
    rfl
  rw [ofTree, getElem?_filterMap_of_isSome hnode]
  cases hj : t.preorder[j]? with
  | none => rfl
  | some i =>
      have hi : i < t.size := Tree.mem_preorder_iff.1 (List.mem_of_getElem? hj)
      obtain ⟨n, hn⟩ := Tree.node?_of_lt hi
      simp only [Option.bind_some, hn, Option.map_some, ← Tree.parent?_of_some hn]
      cases hp : t.parent? i with
      | none => rfl
      | some p =>
          rw [Option.map_some, getD_positions (Nat.lt_trans (Tree.parent?_lt hp) hi)]
          rfl

/-- A document has a row for each node. -/
theorem length_nodes_ofTree (t : Tree) (f : Fingerprint) : (ofTree t f).nodes.length = t.size := by
  refine Nat.le_antisymm ?_ ?_
  -- with more rows there would be one at a place that the pre-order has not
  · refine Nat.le_of_not_lt fun hlt => ?_
    have hnone : (ofTree t f).nodes[t.size]? = none := by
      rw [getElem?_nodes_ofTree, List.getElem?_eq_none (Nat.le_of_eq t.length_preorder)]
      rfl
    exact absurd (List.getElem?_eq_none_iff.1 hnone) (Nat.not_le_of_lt hlt)
  · refine Nat.le_of_not_lt fun hlt => ?_
    obtain ⟨i, hi, hlt'⟩ := Tree.getElem?_preorder_of_lt hlt
    obtain ⟨n, hn⟩ := Tree.node?_of_lt hlt'
    have hrow := getElem?_nodes_ofTree f (t := t) (ofTree t f).nodes.length
    rw [hi, Option.bind_some, hn, List.getElem?_eq_none (Nat.le_refl _)] at hrow
    cases hrow

/-- Every row of the document of a tree fits behind those in front of it. -/
theorem rows_fit_ofTree {t : Tree} (f : Fingerprint) (j : Nat) (r : DocumentNode)
    (h : (ofTree t f).nodes[j]? = some r) : r.Fits j := by
  rw [getElem?_nodes_ofTree] at h
  obtain ⟨i, hj, hi⟩ := Option.bind_eq_some_iff.1 h
  obtain ⟨n, hn, rfl⟩ := Option.map_eq_some_iff.1 hi
  -- The row of the node fits in the arena of `t`; what is left is to follow its parent.
  have hfits : n.row.Fits i := t.arena.rows_fit (by rw [← Tree.rows, t.getElem?_rows, hn]; rfl)
  have hposition := Tree.position_of_getElem? hj
  refine ⟨hfits.payload, fun hroot => ?_, fun p hp => ?_⟩
  · have hzero : i = 0 :=
      Tree.eq_zero_of_parent?_eq_none (Tree.lt_size_of_node? hn) (Option.map_eq_none_iff.1 hroot)
    rw [← hposition, hzero, t.position_zero]
  · obtain ⟨q, hq, rfl⟩ := Option.map_eq_some_iff.1 hp
    rw [← hposition]
    exact Tree.position_parent_lt hq

end Document

/-! ### Renumbering

From here on the bytes and the documents are left behind: `Renumbers` is all that is known of the
tree that came back, and its shape is shown to be that of the first by carrying ownership over both
ways. -/

namespace Tree

/-- `d` is `t` with the nodes numbered by their positions in the pre-order. -/
structure Renumbers (d t : Tree) : Prop where
  size : d.size = t.size
  /-- The node at a position keeps its kind, its payload and its owner. -/
  row : ∀ i j : Nat, t.preorder[j]? = some i →
    (d.node? j).map Node.row = (t.node? i).map fun n =>
      ⟨n.kind, (t.parent? i).map t.position, n.payload⟩

variable {d t : Tree}

/-- A tree with the rows of the document of another is that tree, renumbered. -/
theorem renumbers_of_rows {f : Fingerprint} (h : d.rows = (Document.ofTree t f).nodes) :
    d.Renumbers t where
  size := by rw [← d.length_rows, h, Document.length_nodes_ofTree]
  row i j hj := by
    rw [← d.getElem?_rows, h, Document.getElem?_nodes_ofTree, hj]
    rfl

namespace Renumbers

/-- The node at a position, seen from both trees. -/
theorem node (h : d.Renumbers t) {i j : Nat} (hj : t.preorder[j]? = some i) :
    ∃ n m, t.node? i = some n ∧ d.node? j = some m ∧ m.kind = n.kind ∧ m.payload = n.payload ∧
      m.parent = n.parent.map t.position := by
  obtain ⟨n, hn⟩ := node?_of_lt (mem_preorder_iff.1 (List.mem_of_getElem? hj))
  have hrow := h.row i j hj
  rw [hn, parent?_of_some hn] at hrow
  obtain ⟨m, hm, hmn⟩ := Option.map_eq_some_iff.1 hrow
  rw [Node.row, DocumentNode.mk.injEq] at hmn
  exact ⟨n, m, hn, hm, hmn.1, hmn.2.2, hmn.2.1⟩

/-- The owner of a node is renumbered with it. -/
theorem parent? (h : d.Renumbers t) {i j : Nat} (hj : t.preorder[j]? = some i) :
    d.parent? j = (t.parent? i).map t.position := by
  obtain ⟨n, m, hn, hm, -, -, hp⟩ := h.node hj
  rw [parent?_of_some hm, parent?_of_some hn, hp]

/-- The nodes of `d` in the numbering of `t`. -/
theorem getElem? (h : d.Renumbers t) {j : Nat} (hj : j < d.size) :
    t.preorder[j]? = some (t.preorder.getD j 0) := by
  rw [h.size] at hj
  obtain ⟨i, hi, -⟩ := getElem?_preorder_of_lt hj
  rw [List.getD_eq_getElem?_getD, hi]
  rfl

/-- The numbering and the positions are inverse to each other, -/
theorem position_getD (h : d.Renumbers t) {j : Nat} (hj : j < d.size) :
    t.position (t.preorder.getD j 0) = j :=
  position_of_getElem? (h.getElem? hj)

/-- The numbering leads to nodes. -/
theorem getD_lt (h : d.Renumbers t) {j : Nat} (hj : j < d.size) : t.preorder.getD j 0 < t.size :=
  mem_preorder_iff.1 (List.mem_of_getElem? (h.getElem? hj))

/-- in both directions. -/
theorem getD_position {i : Nat} (hi : i < t.size) : t.preorder.getD (t.position i) 0 = i := by
  rw [List.getD_eq_getElem?_getD, getElem?_position hi]
  rfl

/-- Ownership is carried over. -/
theorem parent?_iff (h : d.Renumbers t) {c j : Nat} (hc : c < d.size) :
    d.parent? c = some j ↔
      j < d.size ∧ t.parent? (t.preorder.getD c 0) = some (t.preorder.getD j 0) := by
  rw [h.parent? (h.getElem? hc)]
  constructor
  · intro hp
    obtain ⟨q, hq, rfl⟩ := Option.map_eq_some_iff.1 hp
    have hqt := Nat.lt_trans (parent?_lt hq) (h.getD_lt hc)
    exact ⟨h.size ▸ position_lt hqt, by rw [hq, getD_position hqt]⟩
  · rintro ⟨hj, hp⟩
    rw [hp, Option.map_some, h.position_getD hj]

/-- Siblings keep their order, so the children of a node are carried over as a list. -/
theorem children (h : d.Renumbers t) {j : Nat} (hj : j < d.size) :
    t.children (t.preorder.getD j 0) = (d.children j).map (t.preorder.getD · 0) := by
  -- Both lists are sorted, so it is enough that they have the same members. The image is sorted
  -- because siblings stand in the pre-order of `t` as they were attached.
  have hmap : ((d.children j).map (t.preorder.getD · 0)).Pairwise (· < ·) := by
    refine List.pairwise_map.2 ((d.pairwise_children j).imp_of_mem fun {a b} ha hb hab => ?_)
    have hpa := mem_children.1 ha
    have hpb := mem_children.1 hb
    have hda := lt_size_of_parent? hpa
    have hdb := lt_size_of_parent? hpb
    have hordered : t.Ordered (t.preorder.getD a 0) (t.preorder.getD b 0) := by
      refine ordered_of_position_lt (h.getD_lt hda) (h.getD_lt hdb) ?_
      rw [h.position_getD hda, h.position_getD hdb]
      exact hab
    refine hordered.2.2 ?_
    rw [((h.parent?_iff hda).1 hpa).2, ((h.parent?_iff hdb).1 hpb).2]
  have hmem : ∀ x, x ∈ t.children (t.preorder.getD j 0) ↔
      x ∈ (d.children j).map (t.preorder.getD · 0) := by
    intro x
    rw [mem_children, List.mem_map]
    constructor
    · intro hx
      have hxt := lt_size_of_parent? hx
      have hxd : t.position x < d.size := h.size ▸ position_lt hxt
      refine ⟨t.position x, mem_children.2 ((h.parent?_iff hxd).2 ⟨hj, ?_⟩), getD_position hxt⟩
      rw [getD_position hxt, hx]
    · rintro ⟨c, hc, rfl⟩
      have hp := mem_children.1 hc
      exact ((h.parent?_iff (lt_size_of_parent? hp)).1 hp).2
  have hsorted := t.pairwise_children (t.preorder.getD j 0)
  -- lists that are sorted strictly and have the same members are the same
  refine List.Perm.eq_of_pairwise (fun _ _ _ _ hab hba => absurd hba (Nat.lt_asymm hab)) hsorted
    hmap ((List.perm_ext_iff_of_nodup ?_ ?_).2 hmem)
  · exact hsorted.imp Nat.ne_of_lt
  · exact hmap.imp Nat.ne_of_lt

/-- The nodes of `d` are numbered in pre-order. -/
theorem preorder_eq (h : d.Renumbers t) : d.preorder = List.range d.size := by
  have hzero : t.preorder.getD 0 0 = 0 := by
    have := getD_position t.nonempty
    rwa [t.position_zero] at this
  have hmap : t.preorder = d.preorder.map (t.preorder.getD · 0) := by
    have := subtree_map (f := (t.preorder.getD · 0)) (fun j hj => h.getD_lt hj)
      (fun j hj => h.children hj) d.nonempty
    rwa [hzero, ← t.preorder_eq, ← d.preorder_eq] at this
  -- So node `c` at place `j` of the one pre-order has the image that node `j` has, and is `j`.
  refine List.ext_getElem? fun j => ?_
  rcases Nat.lt_or_ge j d.size with hj | hj
  · obtain ⟨c, hc, hcd⟩ := getElem?_preorder_of_lt hj
    have hcj := h.getElem? hj
    rw [hmap, List.getElem?_map, hc, ← hmap] at hcj
    have hpos := h.position_getD hcd
    rw [show t.preorder.getD c 0 = _ from Option.some.inj hcj, h.position_getD hj] at hpos
    rw [hc, List.getElem?_range hj, hpos]
  · rw [List.getElem?_eq_none (by rw [d.length_preorder]; exact hj),
      List.getElem?_eq_none (by rw [List.length_range]; exact hj)]

end Renumbers

/-! ### Equality up to ids

`structurallyEqual` goes down both trees at once, and so does the induction: below a node of `d` and
the node of `t` that it is a copy of, the children are copies of each other in order. -/

/-- Two nodes are the same in structure if they agree and their children are so pairwise. -/
theorem sameFrom_of_some {i j : Nat} {n m : Node} (hn : d.node? i = some n)
    (hm : t.node? j = some m) : d.sameFrom t i j =
      (n.kind == m.kind && n.payload == m.payload && n.children.length == m.children.length &&
        (n.children.zip m.children).all fun p => d.sameFrom t p.1 p.2) := by
  rw [sameFrom]
  split
  · rename_i n' m' hn' hm'
    obtain rfl : n = n' := Option.some.inj (hn.symm.trans hn')
    obtain rfl : m = m' := Option.some.inj (hm.symm.trans hm')
    -- The definition carries membership along, which its recursion needs and its value does not.
    have hzip : n.children.zip m.children =
        (n.children.attach.zip m.children).map fun p => (p.1.val, p.2) := by
      conv_lhs => rw [← n.children.attach_map_subtype_val]
      rw [List.zip_map_left]
      rfl
    rw [hzip, List.all_map]
    rfl
  · rename_i hnone
    exact absurd hm (hnone n m hn)

/-- A node and what it was renumbered from are the same in structure. -/
theorem Renumbers.sameFrom (h : d.Renumbers t) {j : Nat} (hj : j < d.size) :
    d.sameFrom t j (t.preorder.getD j 0) = true := by
  induction j using d.induction_below with
  | outside j hn =>
      obtain ⟨m, hm⟩ := node?_of_lt hj
      rw [hn] at hm
      cases hm
  | inside j m hm ih =>
      obtain ⟨n, m', hn, hm', hkind, hpayload, -⟩ := h.node (h.getElem? hj)
      obtain rfl : m = m' := Option.some.inj (hm.symm.trans hm')
      have hchildren := h.children hj
      rw [children_of_some hn, children_of_some hm] at hchildren
      have hzip : m.children.zip (m.children.map (t.preorder.getD · 0)) =
          m.children.map fun c => (c, t.preorder.getD c 0) := by
        conv_lhs => rw [← List.map_id m.children, List.map_map, List.zip_map']
        rfl
      rw [sameFrom_of_some hm hn, hchildren, hkind, hpayload, List.length_map, hzip, List.all_map]
      simp only [beq_self_eq_true, Bool.true_and, List.all_eq_true]
      exact fun c hc => ih c hc (lt_of_mem_children hm hc).2

/-- So are the trees. -/
theorem Renumbers.structurallyEqual (h : d.Renumbers t) : d.structurallyEqual t = true := by
  have hsame := h.sameFrom d.nonempty
  have hzero := Renumbers.getD_position t.nonempty
  rw [t.position_zero] at hzero
  rw [hzero] at hsame
  rw [Tree.structurallyEqual, h.size, hsame, beq_self_eq_true, Bool.true_and]

end Tree

namespace Document

/-- A tree that is numbered in pre-order stands in its document as it is. -/
theorem nodes_ofTree_of_preorder {t : Tree} (f : Fingerprint)
    (h : t.preorder = List.range t.size) : (ofTree t f).nodes = t.rows := by
  have hposition : ∀ i, i < t.size → t.position i = i := by
    intro i hi
    refine Tree.position_of_getElem? ?_
    rw [h, List.getElem?_range hi]
  refine List.ext_getElem? fun j => ?_
  rw [getElem?_nodes_ofTree, t.getElem?_rows, h]
  rcases Nat.lt_or_ge j t.size with hj | hj
  · obtain ⟨n, hn⟩ := Tree.node?_of_lt hj
    have hparent : (t.parent? j).map t.position = n.parent := by
      have hnp := Tree.parent?_of_some hn
      cases hp : t.parent? j with
      | none => rw [← hnp, hp, Option.map_none]
      | some p =>
          rw [← hnp, hp, Option.map_some, hposition p (Nat.lt_trans (Tree.parent?_lt hp) hj)]
    rw [List.getElem?_range hj, Option.bind_some, hn, hparent]
    rfl
  · rw [List.getElem?_eq_none (by rw [List.length_range]; exact hj), Tree.node?,
      Array.getElem?_eq_none hj]
    rfl

/-- The parents of the document of a tree fit 32 bits if the nodes can be counted with them. -/
theorem short_ofTree {t : Tree} (f : Fingerprint) (h : t.size ≤ Nat.pow 2 32) :
    (ofTree t f).Short := by
  intro n hn p hp
  obtain ⟨j, hj⟩ := List.mem_iff_getElem?.1 hn
  have hlt := (List.getElem?_eq_some_iff.1 hj).1
  rw [length_nodes_ofTree] at hlt
  have := (rows_fit_ofTree f j n hj).parent p hp
  omega

end Document

namespace Tree

/-- What comes back from the bytes of a tree. -/
theorem exists_decode (t : Tree) (f : Fingerprint) (h : t.size ≤ Nat.pow 2 32) :
    ∃ d, decode (t.encode f) = .ok (f, d) ∧ d.rows = (Document.ofTree t f).nodes := by
  have hpos : 0 < (Document.ofTree t f).nodes.length := by
    rw [Document.length_nodes_ofTree]
    exact t.nonempty
  have hdigits : Fingerprint.ofHex? (Document.ofTree t f).fingerprint = some f :=
    Fingerprint.ofHex?_toHex f
  obtain ⟨d, hd, hrows⟩ := Document.toTree_of_fits rfl hdigits hpos (Document.rows_fit_ofTree f)
  refine ⟨d, ?_, hrows⟩
  have hformat : (Document.ofTree t f).format < Nat.pow 2 32 := by
    show formatVersion < Nat.pow 2 32
    decide
  rw [decode, encode, Document.read_render hformat (Document.short_ofTree f h)]
  exact hd

/-- A tree that is numbered in pre-order comes back as it is. -/
theorem decode_encode_of_preorder {t : Tree} (f : Fingerprint) (h : t.size ≤ Nat.pow 2 32)
    (hpre : t.preorder = List.range t.size) : decode (t.encode f) = .ok (f, t) := by
  obtain ⟨d, hd, hrows⟩ := exists_decode t f h
  rw [Document.nodes_ofTree_of_preorder f hpre] at hrows
  rw [hd, eq_of_rows_eq hrows]

/-- What was read back is numbered in pre-order, -/
theorem preorder_of_decode {s t : Tree} {g g' : Fingerprint} (h : s.size ≤ Nat.pow 2 32)
    (ht : decode (s.encode g) = .ok (g', t)) : t.preorder = List.range t.size := by
  obtain ⟨d, hd, hrows⟩ := exists_decode s g h
  rw [hd] at ht
  cases ht
  exact (renumbers_of_rows hrows).preorder_eq

/-- and so is a tree from a listing, whose entries come in that order. -/
theorem preorder_of_ofEntries {es : List Entry} {t : Tree} (h : ofEntries es = .ok t) :
    t.preorder = List.range t.size := by
  have hdescribes := describes_of_ofEntries h
  rw [hdescribes.preorder, hdescribes.size]

/-- **A tree survives being persisted.** Whatever the order in which the nodes of a tree were
attached, its bytes are read back with its fingerprint as a tree that has the same structure and
whose node `j` is node `j` of the pre-order; the bytes of that tree are the same again. A tree from
a listing, or one that was itself read back, comes back as the identical arena. -/
theorem decode_encode (t : Tree) (f : Fingerprint) (h : t.size ≤ Nat.pow 2 32) :
    ∃ d, decode (t.encode f) = .ok (f, d) ∧ d.structurallyEqual t = true ∧
      (∀ i j : Nat, t.preorder[j]? = some i → ∃ n m, t.node? i = some n ∧ d.node? j = some m ∧
        m.kind = n.kind ∧ m.payload = n.payload) ∧
      d.preorder = List.range t.size ∧
      d.encode f = t.encode f ∧
      (((∃ es, ofEntries es = .ok t) ∨
        ∃ (s : Tree) (g g' : Fingerprint), s.size ≤ Nat.pow 2 32 ∧
          decode (s.encode g) = .ok (g', t)) → d = t) := by
  obtain ⟨d, hd, hrows⟩ := exists_decode t f h
  have hrenumbers := renumbers_of_rows hrows
  have hpreorder := hrenumbers.preorder_eq
  refine ⟨d, hd, hrenumbers.structurallyEqual, fun i j hj => ?_, ?_, ?_, fun hfrom => ?_⟩
  · obtain ⟨n, m, hn, hm, hkind, hpayload, -⟩ := hrenumbers.node hj
    exact ⟨n, m, hn, hm, hkind, hpayload⟩
  · rw [hpreorder, hrenumbers.size]
  -- what came back is numbered in pre-order, so its document is made of its own rows
  · have hnodes : (Document.ofTree d f).nodes = (Document.ofTree t f).nodes := by
      rw [Document.nodes_ofTree_of_preorder f hpreorder, hrows]
    have hdocument : ∀ s, Document.ofTree s f =
        ⟨formatVersion, f.toHex, (Document.ofTree s f).nodes⟩ := fun _ => rfl
    rw [encode, encode, hdocument d, hdocument t, hnodes]
  -- what is numbered in pre-order already comes back as it is
  · have hpre : t.preorder = List.range t.size := by
      rcases hfrom with ⟨es, hes⟩ | ⟨s, g, g', hs, ht⟩
      · exact preorder_of_ofEntries hes
      · exact preorder_of_decode hs ht
    rw [decode_encode_of_preorder f h hpre] at hd
    cases hd
    rfl

/-- The last node belongs to one that was attached before its sibling, and the texts need escapes.
-/
theorem decode_encode_late :
    let rows : List DocumentNode := [⟨.file, none, ⟨"a\\b.py", .empty⟩⟩,
      ⟨.classType, some 0, ⟨"Köln", .ofList [("doc", "\"tab\"\t\x01")]⟩⟩,
      ⟨.function, some 0, ⟨"f", .empty⟩⟩, ⟨.method, some 1, ⟨"m", .empty⟩⟩]
    let f := Fingerprint.ofContent []
    ∃ t d : Tree, t.rows = rows ∧ t.size ≤ Nat.pow 2 32 ∧ decode (t.encode f) = .ok (f, d) ∧
      d.structurallyEqual t = true := by
  intro rows f
  have hfits : ∀ (i : Nat) (r : DocumentNode), rows[i]? = some r → r.Fits (0 + i) := by
    rintro (_ | _ | _ | _ | i) r ⟨⟩ <;>
      exact ⟨by decide, by decide, fun p hp => by cases hp <;> decide⟩
  obtain ⟨a, -, hrows⟩ := Document.foldlM_attachNode rows .empty hfits
  have hsize : a.size = 4 := by
    rw [← a.length_rows, hrows]
    rfl
  obtain ⟨t, -, ht⟩ := Arena.toTree_of_pos (a := a) (by omega)
  have htsize : t.size ≤ Nat.pow 2 32 := by
    rw [← t.length_rows, ht, a.length_rows, hsize]
    decide
  obtain ⟨d, hd, hequal, -⟩ := decode_encode t f htsize
  exact ⟨t, d, ht.trans hrows, htsize, hd, hequal⟩

end Tree

end Outline
