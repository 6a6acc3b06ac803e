import Mathlib.Data.List.Forall2
import Outline.Proofs.Loader.History
import Outline.Proofs.Tree.Attachment
import Outline.Proofs.Tree.RoundTrip

/-!
# Outline.Proofs.Tree.Equality

**Trees of the same structure are those with the same persisted form.** Three steps lead round:

* trees of the same structure have the same entries, that is kinds, payloads and levels in
  pre-order (`entries_eq_of_structurallyEqual`);
* the entries decide which entry a node belongs to, so trees with the same entries have the same
  rows in their documents (`nodes_ofTree_eq_of_entries`); and
* both trees have the structure of what is read back from these rows
  (`structurallyEqual_of_renumbers`).

Since the entries know nothing of ids, neither does the comparison.
-/

namespace Outline.Tree

variable {a b d : Tree}

/-! ### Comparing from two nodes on

### Comparing from two nodes on

The comparison of the code goes down both trees at once, so what is known of it is proved by
induction over one of them, with the node of the other left open. -/

/-- Two nodes are the same in structure if they agree and their children are so pairwise. -/
theorem sameFrom_iff {i j : Nat} {n m : Node} (hn : a.node? i = some n) (hm : b.node? j = some m) :
    a.sameFrom b i j = true ↔ n.kind = m.kind ∧ n.payload = m.payload ∧
      List.Forall₂ (fun c d => a.sameFrom b c d = true) n.children m.children := by
  rw [sameFrom_of_some hn hm, List.forall₂_iff_zip]
  simp only [Bool.and_eq_true, beq_iff_eq, List.all_eq_true, Prod.forall, and_assoc]

theorem structurallyEqual_iff_sameFrom :
    a.structurallyEqual b = true ↔ a.size = b.size ∧ a.sameFrom b 0 0 = true := by
  rw [structurallyEqual, Bool.and_eq_true, beq_iff_eq]

/-- Nodes that are the same as one node are the same. -/
theorem sameFrom_of_sameFrom {i j k : Nat} (hi : i < d.size) (hj : j < a.size) (hk : k < b.size)
    (ha : d.sameFrom a i j = true) (hb : d.sameFrom b i k = true) : a.sameFrom b j k = true := by
  induction i using d.induction_below generalizing j k with
  | outside i hn =>
      obtain ⟨l, hl⟩ := node?_of_lt hi
      rw [hn] at hl
      cases hl
  | inside i l hl ih =>
      obtain ⟨n, hn⟩ := node?_of_lt hj
      obtain ⟨m, hm⟩ := node?_of_lt hk
      obtain ⟨hkind, hpayload, hchildren⟩ := (sameFrom_iff hl hn).1 ha
      obtain ⟨hkind', hpayload', hchildren'⟩ := (sameFrom_iff hl hm).1 hb
      refine (sameFrom_iff hn hm).2 ⟨hkind ▸ hkind', hpayload ▸ hpayload', ?_⟩
      have hinside : ∀ c ∈ l.children, c < d.size := fun c hc => (lt_of_mem_children hl hc).2
      have hinside₁ : ∀ c ∈ n.children, c < a.size := fun c hc => (lt_of_mem_children hn hc).2
      have hinside₂ : ∀ c ∈ m.children, c < b.size := fun c hc => (lt_of_mem_children hm hc).2
      -- the three lists of children are gone through in step
      generalize l.children = ls at hchildren hchildren' ih hinside
      generalize n.children = ns at hchildren hinside₁ ⊢
      generalize m.children = ms at hchildren' hinside₂ ⊢
      induction hchildren generalizing ms with
      | nil =>
          cases hchildren'
          exact .nil
      | cons hc hcs ihcs =>
          cases hchildren' with
          | cons hd hds =>
              rw [List.forall_mem_cons] at ih hinside hinside₁ hinside₂
              exact .cons (ih.1 hinside.1 hinside₁.1 hinside₂.1 hc hd)
                (ihcs ih.2 hinside.2 hinside₁.2 _ hds hinside₂.2)

/-- Two numberings of one tree have the same structure. -/
theorem structurallyEqual_of_renumbers (ha : d.Renumbers a) (hb : d.Renumbers b) :
    a.structurallyEqual b = true := by
  obtain ⟨hsize, hsame⟩ := structurallyEqual_iff_sameFrom.1 ha.structurallyEqual
  obtain ⟨hsize', hsame'⟩ := structurallyEqual_iff_sameFrom.1 hb.structurallyEqual
  exact structurallyEqual_iff_sameFrom.2 ⟨hsize.symm.trans hsize',
    sameFrom_of_sameFrom d.nonempty a.nonempty b.nonempty hsame hsame'⟩

/-! ### From structure to entries

### From structure to entries

Beside kinds and payloads an entry has the level of its node, which the comparison never looks at.
It agrees all the same: the roots lie equally deep, and a child lies one level below its parent in
both trees. -/

/-- The entry of a node. -/
def entryAt? (t : Tree) (i : NodeId) : Option Entry :=
  (t.node? i).map fun n => ⟨n.kind, n.payload, t.depth i⟩

theorem entries_eq (t : Tree) : t.entries = (t.subtree 0).filterMap t.entryAt? := by
  rw [entries, preorder_eq]
  rfl

/-- Nodes that are the same have the same entries below them, if they lie equally deep. -/
theorem entries_subtree_eq {i j : Nat} (hi : i < a.size) (hj : j < b.size)
    (h : a.sameFrom b i j = true) (hdepth : a.depth i = b.depth j) :
    (a.subtree i).filterMap a.entryAt? = (b.subtree j).filterMap b.entryAt? := by
  induction i using a.induction_below generalizing j with
  | outside i hn =>
      obtain ⟨n, hn'⟩ := node?_of_lt hi
      rw [hn] at hn'
      cases hn'
  | inside i n hn ih =>
      obtain ⟨m, hm⟩ := node?_of_lt hj
      obtain ⟨hkind, hpayload, hchildren⟩ := (sameFrom_iff hn hm).1 h
      have hentry : a.entryAt? i = b.entryAt? j := by
        rw [entryAt?, entryAt?, hn, hm, Option.map_some, Option.map_some, hkind, hpayload, hdepth]
      rw [subtree_of_some hn, subtree_of_some hm, List.filterMap_cons, List.filterMap_cons, hentry,
        List.filterMap_flatMap, List.filterMap_flatMap]
      have hbelow : n.children.flatMap (fun c => (a.subtree c).filterMap a.entryAt?) =
          m.children.flatMap fun c => (b.subtree c).filterMap b.entryAt? := by
        have hparent : ∀ c ∈ n.children, a.parent? c = some i := fun c => (mem_children_iff hn).1
        have hparent' : ∀ c ∈ m.children, b.parent? c = some j := fun c => (mem_children_iff hm).1
        generalize n.children = ns at hchildren hparent ih
        generalize m.children = ms at hchildren hparent'
        induction hchildren with
        | nil => rfl
        | cons hc _ ihcs =>
            rw [List.forall_mem_cons] at ih hparent hparent'
            rw [List.flatMap_cons, List.flatMap_cons, ihcs hparent.2 ih.2 hparent'.2]
            congr 1
            refine ih.1 (lt_size_of_parent? hparent.1) (lt_size_of_parent? hparent'.1) hc ?_
            rw [depth_of_parent? hparent.1, depth_of_parent? hparent'.1, hdepth]
      rw [hbelow]

/-- Trees of the same structure have the same entries. -/
theorem entries_eq_of_structurallyEqual (h : a.structurallyEqual b = true) :
    a.entries = b.entries := by
  obtain ⟨-, hsame⟩ := structurallyEqual_iff_sameFrom.1 h
  rw [entries_eq, entries_eq]
  exact entries_subtree_eq a.nonempty b.nonempty hsame (by rw [depth_root, depth_root])

/-! ### From entries to documents

### From entries to documents

A row of a document has the position of the parent where an entry has a level. The parent can be
found from the levels alone: it is the nearest entry before the node that is one level higher, which
is what belonging to an entry means (`Belongs`). -/

variable {t : Tree}

/-- Entry `j` is that of node `j` of the pre-order. -/
theorem getElem?_entries (t : Tree) (j : Nat) :
    t.entries[j]? = t.preorder[j]?.bind t.entryAt? := by
  refine Document.getElem?_filterMap_of_isSome (fun i hi => ?_) j
  obtain ⟨n, hn⟩ := node?_of_lt (mem_preorder_iff.1 hi)
  rw [hn]
  rfl

theorem getElem?_entries_position {i : Nat} {n : Node} (hn : t.node? i = some n) :
    t.entries[t.position i]? = some ⟨n.kind, n.payload, t.depth i⟩ := by
  rw [getElem?_entries, getElem?_position (lt_size_of_node? hn), Option.bind_some, entryAt?, hn]
  rfl

/-- What stands in the pre-order between a node and something below it is below the node too. -/
theorem mem_subtree_of_position {i p x : Nat} (hp : p < t.size) (hx : x < t.size)
    (hi : i ∈ t.subtree p) (hpx : t.position p < t.position x) (hxi : t.position x < t.position i) :
    x ∈ t.subtree p := by
  obtain ⟨before, after, hstretch⟩ := subtree_stretch_preorder hp
  obtain ⟨n, hn⟩ := node?_of_lt hp
  have hnodup := t.nodup_preorder
  rw [← hstretch, List.append_assoc] at hnodup
  -- `p` opens its stretch and `i` is in it, so `x` comes neither before the stretch nor after it
  have hat : ∀ y ∈ t.subtree p, t.position y = before.length + (t.subtree p).idxOf y := by
    intro y hy
    have hyb : y ∉ before := fun hyb =>
      (List.nodup_append.1 hnodup).2.2 y hyb y (List.mem_append_left _ hy) rfl
    rw [position, ← hstretch, List.append_assoc, List.idxOf_append_of_notMem hyb,
      List.idxOf_append_of_mem hy]
  have hposp : t.position p = before.length := by
    rw [hat p (self_mem_subtree hp), subtree_of_some hn, List.idxOf_cons_self, Nat.add_zero]
  have hlen := List.idxOf_lt_length_of_mem hi
  have hposi := hat i hi
  have hget := getElem?_position hx
  rw [← hstretch, List.append_assoc, List.getElem?_append_right (by omega),
    List.getElem?_append_left (by omega)] at hget
  exact List.mem_of_getElem? hget

/-- In the entries of a tree a node belongs to its parent. -/
theorem belongs_position {i p : Nat} (h : t.parent? i = some p) :
    Belongs t.entries (t.position i) (t.position p) := by
  have hi := lt_size_of_parent? h
  have hp := Nat.lt_trans (parent?_lt h) hi
  obtain ⟨n, hn⟩ := node?_of_lt hi
  obtain ⟨m, hm⟩ := node?_of_lt hp
  -- -- Of the three facts the last is the one with an argument: no entry between the two is as high
  -- as the parent.
  refine ⟨position_parent_lt h, ⟨_, _, getElem?_entries_position hm, getElem?_entries_position hn,
    (depth_of_parent? h).symm⟩, fun j x e hpj hji hx he => ?_⟩
  obtain ⟨y, hy, hyt⟩ := getElem?_preorder_of_lt (Nat.lt_trans hji (position_lt hi))
  obtain ⟨l, hl⟩ := node?_of_lt hyt
  obtain rfl := position_of_getElem? hy
  rw [getElem?_entries_position hl] at hx
  rw [getElem?_entries_position hn] at he
  cases hx
  cases he
  have hbelow : y ∈ t.subtree p := mem_subtree_of_position hp hyt
    (mem_subtree_of_parent? (self_mem_subtree hp) h) hpj hji
  have hne : y ≠ p := fun hyp => absurd hpj (by rw [hyp]; exact Nat.lt_irrefl _)
  have hdeeper := depth_lt_of_mem_subtree hbelow hne
  have hlevel := depth_of_parent? h
  dsimp only
  omega

/-- The position of a parent can be read off the entries. -/
theorem map_position_parent?_of_entries (h : a.entries = b.entries) {i k : Nat}
    (hposition : a.position i = b.position k) (hdepth : a.depth i = b.depth k) :
    (a.parent? i).map a.position = (b.parent? k).map b.position := by
  cases hp : a.parent? i with
  | none =>
      cases hq : b.parent? k with
      | none => rfl
      | some q =>
          rw [depth_of_none hp, depth_of_parent? hq] at hdepth
          cases hdepth
  | some p =>
      cases hq : b.parent? k with
      | none =>
          rw [depth_of_parent? hp, depth_of_none hq] at hdepth
          cases hdepth
      | some q =>
          have hbelongs := belongs_position hp
          rw [h, hposition] at hbelongs
          rw [Option.map_some, Option.map_some, hbelongs.unique (belongs_position hq)]

/-- The entries of a tree decide the rows of its document. -/
theorem nodes_ofTree_eq_of_entries (f : Fingerprint) (h : a.entries = b.entries) :
    (Document.ofTree a f).nodes = (Document.ofTree b f).nodes := by
  refine List.ext_getElem? fun j => ?_
  have hj := congrArg (·[j]?) h
  simp only [getElem?_entries] at hj
  rw [Document.getElem?_nodes_ofTree, Document.getElem?_nodes_ofTree]
  cases hi : a.preorder[j]? with
  | none =>
      cases hk : b.preorder[j]? with
      | none => rfl
      | some k =>
          obtain ⟨m, hm⟩ := node?_of_lt (mem_preorder_iff.1 (List.mem_of_getElem? hk))
          rw [hi, hk, Option.bind_none, Option.bind_some, entryAt?, hm] at hj
          cases hj
  | some i =>
      have hia := mem_preorder_iff.1 (List.mem_of_getElem? hi)
      obtain ⟨n, hn⟩ := node?_of_lt hia
      cases hk : b.preorder[j]? with
      | none =>
          rw [hi, hk, Option.bind_none, Option.bind_some, entryAt?, hn] at hj
          cases hj
      | some k =>
          have hkb := mem_preorder_iff.1 (List.mem_of_getElem? hk)
          obtain ⟨m, hm⟩ := node?_of_lt hkb
          rw [hi, hk, Option.bind_some, Option.bind_some, entryAt?, entryAt?, hn, hm,
            Option.map_some, Option.map_some, Option.some.injEq, Entry.mk.injEq] at hj
          have hposition : a.position i = b.position k := by
            rw [position_of_getElem? hi, position_of_getElem? hk]
          rw [Option.bind_some, Option.bind_some, hn, hm, Option.map_some, Option.map_some,
            map_position_parent?_of_entries h hposition hj.2.2, hj.1, hj.2.1]

/-! ### Other ids

### Other ids

The ids of a tree are the order in which its nodes were attached. A map of ids that respects the
root and the lists of children keeps the structure; it need not be a bijection by hypothesis, since
it turns out to carry one pre-order to the other. -/

/-- `b` is `a` with other ids: `g` carries the root, every node and its list of children over. -/
structure Relabels (g : NodeId → NodeId) (a b : Tree) : Prop where
  root : g 0 = 0
  node : ∀ i n, a.node? i = some n → ∃ m, b.node? (g i) = some m ∧ m.kind = n.kind ∧
    m.payload = n.payload ∧ m.children = n.children.map g

namespace Relabels

variable {g : NodeId → NodeId}

theorem sameFrom (h : Relabels g a b) {i : Nat} (hi : i < a.size) :
    a.sameFrom b i (g i) = true := by
  induction i using a.induction_below with
  | outside i hn =>
      obtain ⟨n, hn'⟩ := node?_of_lt hi
      rw [hn] at hn'
      cases hn'
  | inside i n hn ih =>
      obtain ⟨m, hm, hkind, hpayload, hchildren⟩ := h.node i n hn
      refine (sameFrom_iff hn hm).2 ⟨hkind.symm, hpayload.symm, ?_⟩
      rw [hchildren, List.forall₂_map_right_iff, List.forall₂_same]
      exact fun c hc => ih c hc (lt_of_mem_children hn hc).2

theorem structurallyEqual (h : Relabels g a b) : a.structurallyEqual b = true := by
  have hnode : ∀ i, i < a.size → g i < b.size := by
    intro i hi
    obtain ⟨n, hn⟩ := node?_of_lt hi
    obtain ⟨m, hm, -⟩ := h.node i n hn
    exact lt_size_of_node? hm
  have hchildren : ∀ i, i < a.size → b.children (g i) = (a.children i).map g := by
    intro i hi
    obtain ⟨n, hn⟩ := node?_of_lt hi
    obtain ⟨m, hm, -, -, hchildren⟩ := h.node i n hn
    rw [children_of_some hm, children_of_some hn, hchildren]
  -- everything is below the root, so nothing of `b` is left out
  have hpreorder := subtree_map hnode hchildren a.nonempty
  rw [h.root, ← preorder_eq, ← preorder_eq] at hpreorder
  have hsame := h.sameFrom a.nonempty
  rw [h.root] at hsame
  refine structurallyEqual_iff_sameFrom.2 ⟨?_, hsame⟩
  rw [← a.length_preorder, ← b.length_preorder, hpreorder, List.length_map]

end Relabels

/-! ### Equality and the persisted form

### Equality and the persisted form

Equal bytes are equal rows, since bytes can be read back; that is the only place where the size of a
tree matters. -/

theorem nodes_ofTree_eq_of_encode {f : Fingerprint} (ha : a.size ≤ Nat.pow 2 32)
    (hb : b.size ≤ Nat.pow 2 32) (h : a.encode f = b.encode f) :
    (Document.ofTree a f).nodes = (Document.ofTree b f).nodes := by
  obtain ⟨d, hd, hrows⟩ := exists_decode a f ha
  obtain ⟨e, he, hrows'⟩ := exists_decode b f hb
  rw [h, he, Except.ok.injEq, Prod.mk.injEq] at hd
  rw [← hrows, ← hrows', hd.2]

/-- Trees whose documents have the same rows have the same structure, even if they are too large
to be read back. -/
theorem structurallyEqual_of_nodes {f : Fingerprint}
    (h : (Document.ofTree a f).nodes = (Document.ofTree b f).nodes) :
    a.structurallyEqual b = true := by
  have hpos : 0 < (Document.ofTree a f).nodes.length := by
    rw [Document.length_nodes_ofTree]
    exact a.nonempty
  obtain ⟨d, -, hrows⟩ := Document.toTree_of_fits (d := Document.ofTree a f) rfl
    (Fingerprint.ofHex?_toHex f) hpos (Document.rows_fit_ofTree f)
  exact structurallyEqual_of_renumbers (renumbers_of_rows hrows) (renumbers_of_rows (hrows.trans h))

theorem structurallyEqual_iff_entries (a b : Tree) :
    a.structurallyEqual b = true ↔ a.entries = b.entries :=
  ⟨entries_eq_of_structurallyEqual, fun h =>
    structurallyEqual_of_nodes (nodes_ofTree_eq_of_entries (.ofContent []) h)⟩

theorem structurallyEqual_equivalence :
    Equivalence fun a b : Tree => a.structurallyEqual b = true := by
  simp only [structurallyEqual_iff_entries]
  exact ⟨fun _ => rfl, Eq.symm, Eq.trans⟩

/-- **Structural equality is equality of the persisted form.** Two trees have the same structure
exactly if they have the same bytes, for any fingerprint, and exactly if their nodes have the same
kinds, payloads and levels in pre-order. So the comparison is an equivalence, other ids make no
difference to it, and neither do calls for live nodes of any tree. -/
theorem structurallyEqual_exact (a b : Tree) (f : Fingerprint) (ha : a.size ≤ Nat.pow 2 32)
    (hb : b.size ≤ Nat.pow 2 32) :
    (a.structurallyEqual b = true ↔ a.encode f = b.encode f) ∧
      (a.structurallyEqual b = true ↔ a.entries = b.entries) ∧
      (Equivalence fun a b : Tree => a.structurallyEqual b = true) ∧
      (∀ g h a' b', Relabels g a a' → Relabels h b b' →
        a'.structurallyEqual b' = a.structurallyEqual b) ∧
      ∀ (s : Shelf) (calls : List (Nat × LiveCall)) (m n : Nat),
        s.tree? m = some a → s.tree? n = some b →
          ∃ a' b', (calls.foldl (fun s c => s.asked c.1 c.2) s).tree? m = some a' ∧
            (calls.foldl (fun s c => s.asked c.1 c.2) s).tree? n = some b' ∧
            a'.structurallyEqual b' = a.structurallyEqual b := by
  refine ⟨⟨fun h => ?_, fun h => ?_⟩, structurallyEqual_iff_entries a b,
    structurallyEqual_equivalence, fun g h a' b' hg hh => ?_, fun s calls m n hm hn => ?_⟩
  · have hnodes := nodes_ofTree_eq_of_entries f (entries_eq_of_structurallyEqual h)
    have hdocument : ∀ s, Document.ofTree s f =
        ⟨formatVersion, f.toHex, (Document.ofTree s f).nodes⟩ := fun _ => rfl
    rw [encode, encode, hdocument a, hdocument b, hnodes]
  · exact structurallyEqual_of_nodes (nodes_ofTree_eq_of_encode ha hb h)
  · rw [Bool.eq_iff_iff, structurallyEqual_iff_entries, structurallyEqual_iff_entries,
      entries_eq_of_structurallyEqual hg.structurallyEqual,
      entries_eq_of_structurallyEqual hh.structurallyEqual]
  · have hkept : ∀ k, (calls.foldl (fun s c => s.asked c.1 c.2) s).tree? k = s.tree? k := by
      intro k
      clear hm hn
      induction calls generalizing s with
      | nil => rfl
      | cons c calls ih => rw [List.foldl_cons, ih, Shelf.tree?_asked]
    exact ⟨a, b, by rw [hkept, hm], by rw [hkept, hn], rfl⟩

/-- A method that is attached after a function of the file, and the same nodes in pre-order: the ids
differ and the bytes do not. -/
theorem structurallyEqual_exact_late :
    let early : List DocumentNode := [⟨.file, none, ⟨"a.py", .empty⟩⟩,
      ⟨.classType, some 0, ⟨"A", .empty⟩⟩, ⟨.method, some 1, ⟨"m", .empty⟩⟩,
      ⟨.function, some 0, ⟨"f", .empty⟩⟩]
    let late : List DocumentNode := [⟨.file, none, ⟨"a.py", .empty⟩⟩,
      ⟨.classType, some 0, ⟨"A", .empty⟩⟩, ⟨.function, some 0, ⟨"f", .empty⟩⟩,
      ⟨.method, some 1, ⟨"m", .empty⟩⟩]
    let f := Fingerprint.ofContent []
    ∃ a b : Tree, a.rows = early ∧ b.rows = late ∧ a.size ≤ Nat.pow 2 32 ∧
      b.size ≤ Nat.pow 2 32 ∧ a.structurallyEqual b = true ∧ a.encode f = b.encode f := by
  intro early late f
  let a : Tree := ⟨(Assembly.run early).arena, by decide⟩
  let b : Tree := ⟨(Assembly.run late).arena, by decide⟩
  have hrelabels : Relabels (fun i => if i = 2 then 3 else if i = 3 then 2 else i) a b := by
    refine ⟨rfl, ?_⟩
    rintro (_ | _ | _ | _ | i) n ⟨⟩ <;> exact ⟨_, rfl, rfl, rfl, rfl⟩
  have ha : a.size ≤ Nat.pow 2 32 := by decide
  have hb : b.size ≤ Nat.pow 2 32 := by decide
  have hequal := hrelabels.structurallyEqual
  exact ⟨a, b, rfl, rfl, ha, hb, hequal, (structurallyEqual_exact a b f ha hb).1.1 hequal⟩

end Outline.Tree
