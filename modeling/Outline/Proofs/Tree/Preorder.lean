import Mathlib.Data.List.Perm.Basic
import Mathlib.Data.List.Nodup
import Outline.Tree.Basic

/-!
# Outline.Proofs.Tree.Preorder

**The pre-order of a tree lists every node once, owners first.** The pre-order comes from a walk
with a stack, which is the recursion of `Tree.subtree` from a node to its children
(`listFrom_eq`); everything later modules need to know about that recursion is proved here, from the
arena's invariant alone:

* `mem_preorder_iff` and `nodup_preorder`: every node is listed, and none twice;
* `preorder_ordered`: an owner is listed before what it owns, and siblings are listed in the
  order in which they were attached;
* `preorder_eq_range`: if nothing between an owner and what it owns rises to the owner's level,
  the pre-order is the order of the ids; and
* `subtree_map`: a map that carries the children of each node over to the children of its image
  carries whole subtrees over.
-/

namespace Outline.Tree

variable {t : Tree}

/-! ### The recursion over subtrees -/

theorem node?_of_lt {i : Nat} (h : i < t.size) : ∃ n, t.node? i = some n :=
  ⟨t.arena.nodes[i], Array.getElem?_eq_getElem h⟩

/-- Being a child and naming a parent are the same. -/
theorem mem_children {i c : Nat} : c ∈ t.children i ↔ t.parent? c = some i := by
  cases hn : t.node? i with
  | some n => rw [children_of_some hn, mem_children_iff hn]
  | none =>
      rw [children_of_none hn]
      refine ⟨fun h => absurd h List.not_mem_nil, fun hp => ?_⟩
      obtain ⟨m, hm, -⟩ := Option.bind_eq_some_iff.1 hp
      obtain ⟨n, hn'⟩ := node?_of_lt (Nat.lt_trans (parent?_lt hp) (lt_size_of_node? hm))
      rw [hn] at hn'
      cases hn'

theorem parent?_of_some {i : Nat} {n : Node} (h : t.node? i = some n) : t.parent? i = n.parent := by
  rw [parent?, h]
  rfl

theorem lt_size_of_parent? {c p : Nat} (h : t.parent? c = some p) : c < t.size := by
  obtain ⟨m, hm, -⟩ := Option.bind_eq_some_iff.1 h
  exact lt_size_of_node? hm

/-- Only node 0 has no parent. -/
theorem eq_zero_of_parent?_eq_none {i : Nat} (hi : i < t.size) (h : t.parent? i = none) :
    i = 0 := by
  obtain ⟨n, hn⟩ := node?_of_lt hi
  rw [parent?, hn] at h
  obtain ⟨_, rfl⟩ := Array.getElem?_eq_some_iff.1 hn
  exact t.arena.wellFormed.root_only i hi h

/-- Children are listed in the order of their ids. -/
theorem pairwise_children (t : Tree) (i : Nat) : (t.children i).Pairwise (· < ·) := by
  cases hn : t.node? i with
  | none =>
      rw [children_of_none hn]
      exact .nil
  | some n =>
      obtain ⟨hi, rfl⟩ := Array.getElem?_eq_some_iff.1 hn
      rw [children_of_some hn, t.arena.wellFormed.children_eq i hi]
      exact List.pairwise_lt_range.filter _

/-- Induction from the children to their parent: a recursion over a tree ends because ids grow
towards the leaves. -/
theorem induction_below {motive : Nat → Prop} (t : Tree)
    (outside : ∀ i, t.node? i = none → motive i)
    (inside : ∀ i n, t.node? i = some n → (∀ c ∈ n.children, motive c) → motive i)
    (i : Nat) : motive i := by
  induction hk : t.size - i using Nat.strongRecOn generalizing i with
  | ind k ih =>
      cases hn : t.node? i with
      | none => exact outside i hn
      | some n =>
          refine inside i n hn fun c hc => ih (t.size - c) ?_ c rfl
          rw [← hk]
          exact sub_lt_of_mem_children hn hc

/-- The walk lists the nodes on its stack, each with all that is below it. -/
theorem listFrom_eq (stack : List NodeId) (h : ∀ i ∈ stack, i < t.size) :
    t.listFrom stack = stack.flatMap t.subtree := by
  fun_induction t.listFrom stack with
  | case1 => rfl
  | case2 i rest ih =>
      obtain ⟨hi, hrest⟩ := List.forall_mem_cons.1 h
      obtain ⟨n, hn⟩ := node?_of_lt hi
      have hstack : ∀ c ∈ t.children i ++ rest, c < t.size := by
        intro c hc
        rcases List.mem_append.1 hc with hc | hc
        · exact lt_size_of_parent? (mem_children.1 hc)
        · exact hrest c hc
      rw [ih hstack, List.flatMap_append, List.flatMap_cons, subtree_of_some hn,
        children_of_some hn, List.cons_append]

/-- The pre-order is the root with all that is below it. -/
theorem preorder_eq (t : Tree) : t.preorder = t.subtree 0 := by
  have hroot : ∀ i ∈ [0], i < t.size := fun i hi => List.mem_singleton.1 hi ▸ t.nonempty
  rw [preorder, listFrom_eq [0] hroot, List.flatMap_singleton]

/-! ### What a subtree holds -/

/-- Nothing in a subtree stands before its node, or outside the arena. -/
theorem le_of_mem_subtree {i j : Nat} (h : j ∈ t.subtree i) : i ≤ j ∧ j < t.size := by
  induction i using t.induction_below with
  | outside i hn =>
      rw [subtree_of_none hn] at h
      cases h
  | inside i n hn ih =>
      rw [subtree_of_some hn] at h
      rcases List.mem_cons.1 h with rfl | h
      · exact ⟨Nat.le_refl _, lt_size_of_node? hn⟩
      · obtain ⟨c, hc, hj⟩ := List.mem_flatMap.1 h
        have := ih c hc hj
        have := lt_of_mem_children hn hc
        omega

/-- What is below a child stands behind the child's parent. -/
theorem lt_of_mem_subtree {i c j : Nat} (hc : t.parent? c = some i) (hj : j ∈ t.subtree c) :
    i < j :=
  Nat.lt_of_lt_of_le (parent?_lt hc) (le_of_mem_subtree hj).1

theorem self_mem_subtree {i : Nat} (h : i < t.size) : i ∈ t.subtree i := by
  obtain ⟨n, hn⟩ := node?_of_lt h
  rw [subtree_of_some hn]
  exact List.mem_cons_self

/-- A subtree is closed under going to a child. -/
theorem mem_subtree_of_parent? {i p c : Nat} (hp : p ∈ t.subtree i)
    (h : t.parent? c = some p) : c ∈ t.subtree i := by
  induction i using t.induction_below with
  | outside i hn =>
      rw [subtree_of_none hn] at hp
      cases hp
  | inside i n hn ih =>
      rw [subtree_of_some hn] at hp ⊢
      refine List.mem_cons_of_mem _ (List.mem_flatMap.2 ?_)
      rcases List.mem_cons.1 hp with rfl | hp
      · exact ⟨c, (mem_children_iff hn).2 h, self_mem_subtree (lt_size_of_parent? h)⟩
      · obtain ⟨d, hd, hpd⟩ := List.mem_flatMap.1 hp
        exact ⟨d, hd, ih d hd hpd⟩

/-- Whatever is below the node of a subtree has its parent in the subtree. -/
theorem parent?_mem_subtree {i j : Nat} (h : j ∈ t.subtree i) (hne : j ≠ i) :
    ∃ p ∈ t.subtree i, t.parent? j = some p := by
  induction i using t.induction_below with
  | outside i hn =>
      rw [subtree_of_none hn] at h
      cases h
  | inside i n hn ih =>
      rw [subtree_of_some hn] at h ⊢
      rcases List.mem_cons.1 h with rfl | h
      · exact absurd rfl hne
      · obtain ⟨c, hc, hj⟩ := List.mem_flatMap.1 h
        by_cases hjc : j = c
        · exact ⟨i, List.mem_cons_self, hjc ▸ (mem_children_iff hn).1 hc⟩
        · obtain ⟨p, hp, hpj⟩ := ih c hc hj hjc
          exact ⟨p, List.mem_cons_of_mem _ (List.mem_flatMap.2 ⟨c, hc, hp⟩), hpj⟩

/-- The subtrees of two children of one node have nothing in common. -/
theorem disjoint_subtree {i c d j : Nat} (hc : t.parent? c = some i)
    (hd : t.parent? d = some i) (hjc : j ∈ t.subtree c) (hjd : j ∈ t.subtree d) : c = d := by
  -- The induction climbs from the common member: its parent would be in both subtrees as well,
  -- until one of the two children is met.
  induction j using Nat.strongRecOn with
  | ind j ih =>
      have hic := parent?_lt hc
      have hid := parent?_lt hd
      by_cases hec : j = c
      · subst hec
        by_contra hne
        obtain ⟨p, hp, hpj⟩ := parent?_mem_subtree hjd hne
        obtain rfl : i = p := Option.some.inj (hc.symm.trans hpj)
        have := (le_of_mem_subtree hp).1
        omega
      · obtain ⟨p, hp, hpj⟩ := parent?_mem_subtree hjc hec
        by_cases hed : j = d
        · subst hed
          obtain rfl : i = p := Option.some.inj (hd.symm.trans hpj)
          have := (le_of_mem_subtree hp).1
          omega
        · obtain ⟨q, hq, hqj⟩ := parent?_mem_subtree hjd hed
          obtain rfl : p = q := Option.some.inj (hpj.symm.trans hqj)
          exact ih p (parent?_lt hpj) hp hq

/-- Every node is in the pre-order, and nothing else is. -/
theorem mem_preorder_iff {j : Nat} : j ∈ t.preorder ↔ j < t.size := by
  rw [preorder_eq]
  refine ⟨fun h => (le_of_mem_subtree h).2, fun h => ?_⟩
  induction j using Nat.strongRecOn with
  | ind j ih =>
      cases hp : t.parent? j with
      | none =>
          rw [eq_zero_of_parent?_eq_none h hp]
          exact self_mem_subtree t.nonempty
      | some p =>
          have hlt := parent?_lt hp
          exact mem_subtree_of_parent? (ih p hlt (Nat.lt_trans hlt h)) hp

/-! ### The order of the listing -/

/-- The order in which a subtree is listed: no node stands before its owner, and siblings stand
in the order of their ids. -/
def Ordered (t : Tree) (a b : Nat) : Prop :=
  a ≠ b ∧ t.parent? a ≠ some b ∧ (t.parent? a = t.parent? b → a < b)

/-- A member of a child's subtree is that child, or its parent is in the same subtree. -/
theorem parent?_cases {i c a : Nat} (hc : t.parent? c = some i) (ha : a ∈ t.subtree c) :
    a = c ∨ ∃ p ∈ t.subtree c, t.parent? a = some p ∧ i < p := by
  by_cases hac : a = c
  · exact .inl hac
  · obtain ⟨p, hp, hpa⟩ := parent?_mem_subtree ha hac
    exact .inr ⟨p, hp, hpa, lt_of_mem_subtree hc hp⟩

/-- Members of the subtrees of two children of one node stand in the order of these children. -/
theorem ordered_of_siblings {i c d a b : Nat} (hc : t.parent? c = some i)
    (hd : t.parent? d = some i) (hcd : c < d) (ha : a ∈ t.subtree c) (hb : b ∈ t.subtree d) :
    t.Ordered a b := by
  have hne : c ≠ d := Nat.ne_of_lt hcd
  have hbi := lt_of_mem_subtree hd hb
  refine ⟨fun hab => hne (disjoint_subtree hc hd ha (hab ▸ hb)), fun hab => ?_, fun hab => ?_⟩
  · rcases parent?_cases hc ha with rfl | ⟨p, hp, hpa, -⟩
    · exact Nat.ne_of_lt hbi (Option.some.inj (hc.symm.trans hab))
    · obtain rfl : p = b := Option.some.inj (hpa.symm.trans hab)
      exact hne (disjoint_subtree hc hd hp hb)
  · -- a common parent is either `i`, and then the two are `c` and `d`, or in both subtrees
    rcases parent?_cases hc ha with rfl | ⟨p, hp, hpa, hip⟩ <;>
      rcases parent?_cases hd hb with rfl | ⟨q, hq, hqb, hiq⟩
    · exact hcd
    · exact absurd (Option.some.inj (hc.symm.trans (hab.trans hqb))) (Nat.ne_of_lt hiq)
    · exact absurd (Option.some.inj (hd.symm.trans (hab.symm.trans hpa))) (Nat.ne_of_lt hip)
    · obtain rfl : p = q := Option.some.inj (hpa.symm.trans (hab.trans hqb))
      exact absurd (disjoint_subtree hc hd hp hq) hne

/-- A relation holds all along a subtree if it leads from a node to all that is below it, and from
all that is below a child to all that is below a later one. -/
theorem pairwise_subtree {r : Nat → Nat → Prop}
    (hbelow : ∀ i c j : Nat, t.parent? c = some i → j ∈ t.subtree c → r i j)
    (hacross : ∀ i c d a b : Nat, t.parent? c = some i → t.parent? d = some i → c < d →
      a ∈ t.subtree c → b ∈ t.subtree d → r a b) (i : Nat) : (t.subtree i).Pairwise r := by
  induction i using t.induction_below with
  | outside i hn =>
      rw [subtree_of_none hn]
      exact .nil
  | inside i n hn ih =>
      rw [subtree_of_some hn]
      refine List.pairwise_cons.2 ⟨fun j hj => ?_, List.pairwise_flatMap.2 ⟨ih, ?_⟩⟩
      · obtain ⟨c, hc, hjc⟩ := List.mem_flatMap.1 hj
        exact hbelow i c j ((mem_children_iff hn).1 hc) hjc
      · have hsorted := t.pairwise_children i
        rw [children_of_some hn] at hsorted
        refine hsorted.imp_of_mem fun {c d} hc hd hcd a ha b hb => ?_
        exact hacross i c d a b ((mem_children_iff hn).1 hc) ((mem_children_iff hn).1 hd) hcd ha hb

/-- Owners are listed before what they own, siblings in the order of attachment. -/
theorem preorder_ordered (t : Tree) : t.preorder.Pairwise t.Ordered := by
  rw [preorder_eq]
  refine pairwise_subtree (fun i c j hc hj => ?_) (fun i c d a b => ordered_of_siblings) 0
  have hij := lt_of_mem_subtree hc hj
  exact ⟨Nat.ne_of_lt hij, fun hp => Nat.lt_asymm hij (parent?_lt hp), fun _ => hij⟩

theorem nodup_preorder (t : Tree) : t.preorder.Nodup :=
  t.preorder_ordered.imp fun h => h.1

theorem preorder_perm (t : Tree) : t.preorder.Perm (List.range t.size) :=
  (List.perm_ext_iff_of_nodup t.nodup_preorder List.nodup_range).2 fun j => by
    rw [mem_preorder_iff, List.mem_range]

theorem length_preorder (t : Tree) : t.preorder.length = t.size := by
  rw [t.preorder_perm.length_eq, List.length_range]

/-! ### Levels -/

theorem ancestors_of_parent? {i p : Nat} (h : t.parent? i = some p) :
    t.ancestors i = p :: t.ancestors p := by
  rw [ancestors]
  split
  · rename_i hn
    rw [h] at hn
    cases hn
  · rename_i q hq
    rw [Option.some.inj (h.symm.trans hq)]

theorem ancestors_of_none {i : Nat} (h : t.parent? i = none) : t.ancestors i = [] := by
  rw [ancestors]
  split
  · rfl
  · rename_i q hq
    rw [h] at hq
    cases hq

theorem depth_of_parent? {i p : Nat} (h : t.parent? i = some p) : t.depth i = t.depth p + 1 := by
  rw [depth, ancestors_of_parent? h]
  rfl

theorem depth_of_none {i : Nat} (h : t.parent? i = none) : t.depth i = 0 := by
  rw [depth, ancestors_of_none h]
  rfl

theorem depth_root (t : Tree) : t.depth 0 = 0 := by
  cases hp : t.parent? 0 with
  | none => exact depth_of_none hp
  | some p => exact absurd (parent?_lt hp) (Nat.not_lt_zero p)

/-- Nothing that stands between an owner and what it owns rises to the owner's level. -/
def Compact (t : Tree) : Prop :=
  ∀ i p j : Nat, t.parent? i = some p → p < j → j < i → t.depth p < t.depth j

/-- In a compact tree all that stands between a node and a member of its subtree is below the
node's level. -/
theorem Compact.depth_lt (h : t.Compact) {c a : Nat} (ha : a ∈ t.subtree c) :
    ∀ y : Nat, c < y → y ≤ a → t.depth c < t.depth y := by
  -- The induction climbs from the member to its parent, which splits the stretch up to `a`: what
  -- is behind the parent is deeper by compactness, what is not by induction.
  induction a using Nat.strongRecOn with
  | ind a ih =>
      intro y hcy hya
      have hne : a ≠ c := by omega
      obtain ⟨p, hp, hpa⟩ := parent?_mem_subtree ha hne
      have hpc : t.depth c ≤ t.depth p := by
        rcases Nat.eq_or_lt_of_le (le_of_mem_subtree hp).1 with rfl | hcp
        · exact Nat.le_refl _
        · exact Nat.le_of_lt (ih p (parent?_lt hpa) hp p hcp (Nat.le_refl _))
      rcases Nat.lt_or_ge p y with hpy | hyp
      · rcases Nat.eq_or_lt_of_le hya with rfl | hya
        · rw [depth_of_parent? hpa]
          exact Nat.lt_succ_of_le hpc
        · exact Nat.lt_of_le_of_lt hpc (h a p y hpa hpy hya)
      · exact ih p (parent?_lt hpa) hp y hcy hyp

theorem Compact.pairwise_lt_subtree (h : t.Compact) (i : Nat) :
    (t.subtree i).Pairwise (· < ·) := by
  refine pairwise_subtree (fun i c j => lt_of_mem_subtree) (fun i c d a b hc hd hcd ha hb => ?_) i
  -- If `d` stood among what is below `c`, it would have to be deeper than `c`.
  have hlevel : t.depth c = t.depth d := by rw [depth_of_parent? hc, depth_of_parent? hd]
  have had : ¬ d ≤ a := fun hda => Nat.ne_of_lt (h.depth_lt ha d hcd hda) hlevel
  exact Nat.lt_of_lt_of_le (Nat.lt_of_not_le had) (le_of_mem_subtree hb).1

/-- The pre-order of a compact tree is the order of the ids. -/
theorem preorder_eq_range (h : t.Compact) : t.preorder = List.range t.size :=
  t.preorder_perm.eq_of_pairwise (fun _ _ _ _ hab hba => absurd hba (Nat.lt_asymm hab))
    (t.preorder_eq ▸ h.pairwise_lt_subtree 0) List.pairwise_lt_range

/-! ### Carrying subtrees over -/

/-- A map that carries the children of every node over to the children of its image carries
subtrees over. -/
theorem subtree_map {s t : Tree} {f : Nat → Nat}
    (hnode : ∀ i, i < s.size → f i < t.size)
    (hchildren : ∀ i, i < s.size → t.children (f i) = (s.children i).map f)
    {i : Nat} (hi : i < s.size) : t.subtree (f i) = (s.subtree i).map f := by
  induction i using s.induction_below with
  | outside i hn =>
      obtain ⟨n, hn'⟩ := node?_of_lt hi
      rw [hn] at hn'
      cases hn'
  | inside i n hn ih =>
      obtain ⟨m, hm⟩ := node?_of_lt (hnode i hi)
      have hch := hchildren i hi
      rw [children_of_some hm, children_of_some hn] at hch
      rw [subtree_of_some hm, subtree_of_some hn, hch, List.map_cons, List.map_flatMap,
        List.flatMap_map]
      congr 1
      rw [List.flatMap_def, List.flatMap_def]
      congr 1
      exact List.map_congr_left fun c hc => ih c hc (lt_of_mem_children hn hc).2

end Outline.Tree
