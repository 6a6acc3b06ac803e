import Outline.Proofs.Tree.Preorder

/-!
# Outline.Proofs.Tree.Descent

**A subtree is one stretch of the pre-order.** It holds its node and the nodes that have it among
their owners, and nothing else (`mem_subtree_iff`), and it is listed without a gap
(`subtree_stretch_preorder`). So whatever stands between a node and something below it is below the
node too, and lies deeper.
-/

namespace Outline.Tree

variable {t : Tree}

/-! ### Owners -/

theorem mem_ancestors_iff {i j : Nat} :
    i ∈ t.ancestors j ↔ ∃ p, t.parent? j = some p ∧ (i = p ∨ i ∈ t.ancestors p) := by
  cases hp : t.parent? j with
  | none => simp [ancestors_of_none hp]
  | some p => simp [ancestors_of_parent? hp]

/-- Owners stand before what they own, and are fewer levels deep. -/
theorem lt_of_mem_ancestors {i j : Nat} (h : i ∈ t.ancestors j) :
    i < j ∧ t.depth i < t.depth j := by
  induction j using Nat.strongRecOn with
  | ind j ih =>
      obtain ⟨p, hp, hip⟩ := mem_ancestors_iff.1 h
      have hlt := parent?_lt hp
      rw [depth_of_parent? hp]
      rcases hip with rfl | hip
      · exact ⟨hlt, Nat.lt_succ_self _⟩
      · have := ih p hlt hip
        omega

/-- The owners of a node end with the root. -/
theorem getLast?_ancestors {i : Nat} (h : i < t.size) :
    (t.ancestors i).getLast? = if i = 0 then none else some 0 := by
  induction i using Nat.strongRecOn with
  | ind i ih =>
      cases hp : t.parent? i with
      | none =>
          rw [ancestors_of_none hp, if_pos (eq_zero_of_parent?_eq_none h hp), List.getLast?_nil]
      | some p =>
          have hlt := parent?_lt hp
          rw [ancestors_of_parent? hp, List.getLast?_cons, ih p hlt (Nat.lt_trans hlt h),
            if_neg (Nat.ne_zero_of_lt hlt)]
          by_cases h0 : p = 0 <;> simp [h0]

/-- The owners of a node: its parent, the parent of that, and so on. -/
theorem isChain_ancestors (t : Tree) (i : Nat) :
    (i :: t.ancestors i).IsChain fun c p => t.parent? c = some p := by
  induction i using Nat.strongRecOn with
  | ind i ih =>
      cases hp : t.parent? i with
      | none => simp [ancestors_of_none hp]
      | some p =>
          rw [ancestors_of_parent? hp]
          exact List.isChain_cons_cons.2 ⟨hp, ih p (parent?_lt hp)⟩

/-! ### What is below a node -/

/-- A subtree holds its node and all that the node owns. -/
theorem mem_subtree_iff {i j : Nat} (hj : j < t.size) :
    j ∈ t.subtree i ↔ j = i ∨ i ∈ t.ancestors j := by
  -- The induction climbs from the member to the node of the subtree.
  induction j using Nat.strongRecOn with
  | ind j ih =>
      by_cases hji : j = i
      · exact ⟨fun _ => .inl hji, fun _ => hji ▸ self_mem_subtree hj⟩
      rw [mem_ancestors_iff]
      constructor
      · intro h
        obtain ⟨p, hp, hpj⟩ := parent?_mem_subtree h hji
        have hlt := parent?_lt hpj
        exact .inr ⟨p, hpj, ((ih p hlt (Nat.lt_trans hlt hj)).1 hp).imp_left Eq.symm⟩
      · rintro (rfl | ⟨p, hpj, hip⟩)
        · exact absurd rfl hji
        · have hlt := parent?_lt hpj
          exact mem_subtree_of_parent?
            ((ih p hlt (Nat.lt_trans hlt hj)).2 (hip.imp_left Eq.symm)) hpj

/-- What is below a node lies deeper. -/
theorem depth_lt_of_mem_subtree {i j : Nat} (h : j ∈ t.subtree i) (hne : j ≠ i) :
    t.depth i < t.depth j := by
  have hj := (le_of_mem_subtree h).2
  exact (lt_of_mem_ancestors (((mem_subtree_iff hj).1 h).resolve_left hne)).2

/-- The subtree of a member is one stretch of a subtree. -/
theorem subtree_stretch {i p : Nat} (h : p ∈ t.subtree i) : t.subtree p <:+: t.subtree i := by
  induction i using t.induction_below with
  | outside i hn =>
      rw [subtree_of_none hn] at h
      cases h
  | inside i n hn ih =>
      rw [subtree_of_some hn] at h ⊢
      rcases List.mem_cons.1 h with rfl | h
      · exact (subtree_of_some hn).symm ▸ List.infix_refl _
      · obtain ⟨c, hc, hp⟩ := List.mem_flatMap.1 h
        obtain ⟨before, after, hchildren⟩ := List.append_of_mem hc
        have hstretch : t.subtree c <:+: n.children.flatMap t.subtree := by
          rw [hchildren, List.flatMap_append, List.flatMap_cons, ← List.append_assoc]
          exact List.infix_append _ _ _
        exact (ih c hc hp).trans (hstretch.trans (List.suffix_cons i _).isInfix)

/-- Nothing is listed before what owns it. -/
theorem preorder_owners_first (t : Tree) :
    t.preorder.Pairwise fun a b => b ∉ t.ancestors a := by
  rw [preorder_eq]
  refine pairwise_subtree (fun i c j hc hj => ?_) (fun i c d a b hc hd hcd ha hb hba => ?_) 0
  · exact fun hji => Nat.lt_asymm (lt_of_mem_subtree hc hj) (lt_of_mem_ancestors hji).1
  · -- an owner of `a` below `d` would put `a` below both `c` and `d`
    have hab := (mem_subtree_iff (le_of_mem_subtree ha).2).2 (.inr hba)
    exact Nat.ne_of_lt hcd (disjoint_subtree hc hd ha ((subtree_stretch hb).subset hab))

/-- A subtree is listed without a gap. -/
theorem subtree_stretch_preorder {i : Nat} (h : i < t.size) : t.subtree i <:+: t.preorder := by
  have hi := mem_preorder_iff.2 h
  rw [preorder_eq] at hi ⊢
  exact subtree_stretch hi

/-- Siblings are listed in the order of attachment. -/
theorem children_sublist_subtree (t : Tree) (i : Nat) :
    (i :: t.children i).Sublist (i :: (t.children i).flatMap t.subtree) := by
  refine List.Sublist.cons_cons i ?_
  have hself : ∀ c ∈ t.children i, [c].Sublist (t.subtree c) := fun c hc =>
    List.singleton_sublist.2 (self_mem_subtree (lt_size_of_parent? (mem_children.1 hc)))
  generalize t.children i = cs at hself
  induction cs with
  | nil => exact .slnil
  | cons c cs ih =>
      rw [List.flatMap_cons, ← List.singleton_append]
      exact (hself c List.mem_cons_self).append
        (ih fun d hd => hself d (List.mem_cons_of_mem c hd))

theorem children_sublist_preorder {i : Nat} (h : i < t.size) :
    (t.children i).Sublist t.preorder := by
  obtain ⟨n, hn⟩ := node?_of_lt h
  have hsub := t.children_sublist_subtree i
  rw [children_of_some hn, ← subtree_of_some hn] at hsub
  rw [children_of_some hn]
  exact ((List.sublist_cons_self i _).trans hsub).trans (subtree_stretch_preorder h).sublist

end Outline.Tree
