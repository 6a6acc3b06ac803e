import Mathlib.Algebra.GroupWithZero.Nat
import Mathlib.Data.Vector.Basic
import Outline.Proofs.Tree.Preorder

/-!
# Outline.Proofs.Tree.Index

**The index lists what the pre-order lists.** The nodes of a kind in the index of a tree are those
of the pre-order that have the kind, in its order (`Tree.nodesOfKind_eq`). So every node is listed
under its own kind and under no other, and the counts of the kinds add up to the number of nodes
(`Tree.sum_kindCounts`).
-/

namespace Outline

namespace KindIndex

theorem nodes_empty (k : Kind) : empty.nodes k = [] := by
  have hk := k.index_lt
  simp [nodes, empty]

/-- A node more of one kind is the last of that kind, and changes nothing about the others. -/
theorem nodes_add (x : KindIndex) (k : Kind) (i : NodeId) (l : Kind) :
    (x.add k i).nodes l = x.nodes l ++ if k = l then [i] else [] := by
  have hk := k.index_lt
  have hl := l.index_lt
  dsimp only [nodes, add]
  rw [Vector.getElem_set]
  by_cases h : k = l
  · subst h
    simp
  · have hne : k.index ≠ l.index := fun e => h (Kind.index_inj e)
    simp [h, hne]

end KindIndex

/-- Counts by kind, from which those that are zero are left out. -/
theorem Kind.mem_counts {f : Kind → Nat} {k : Kind} {c : Nat} :
    (k, c) ∈ (Kind.all.map fun k => (k, f k)).filter (·.2 ≠ 0) ↔ c = f k ∧ c ≠ 0 := by
  have hall : k ∈ Kind.all := by cases k <;> decide
  rw [List.mem_filter, List.mem_map, decide_eq_true_iff]
  refine and_congr_left fun _ => ⟨?_, fun h => ⟨k, hall, h ▸ rfl⟩⟩
  rintro ⟨l, -, hl⟩
  cases hl
  rfl

namespace Tree

variable {t : Tree}

/-- The index after some nodes of a tree have been entered. -/
theorem nodes_foldl_add (is : List NodeId) (x : KindIndex) (k : Kind) :
    (is.foldl (fun x i => match t.node? i with
      | some n => x.add n.kind i
      | none => x) x).nodes k = x.nodes k ++ is.filter (t.hasKind (· == k)) := by
  induction is generalizing x with
  | nil => exact (List.append_nil _).symm
  | cons i is ih =>
      rw [List.foldl_cons, ih]
      cases hn : t.node? i with
      | none => simp [hasKind, hn]
      | some n =>
          simp only [KindIndex.nodes_add, List.filter_cons, hasKind, hn, Option.any_some,
            beq_iff_eq]
          split <;> simp

/-- The nodes of a kind in the index are those of the pre-order, in its order. -/
theorem nodesOfKind_eq (k : Kind) : t.nodesOfKind k = t.preorder.filter (t.hasKind (· == k)) := by
  have h := @nodes_foldl_add t t.preorder .empty k
  rw [KindIndex.nodes_empty, List.nil_append] at h
  exact h

theorem hasKind_iff {k : Kind} {i : NodeId} :
    t.hasKind (· == k) i ↔ ∃ n, t.node? i = some n ∧ n.kind = k := by
  simp [hasKind, Option.any_eq_true]

/-- A node is listed under its own kind, and nothing else is. -/
theorem mem_nodesOfKind {k : Kind} {i : NodeId} :
    i ∈ t.nodesOfKind k ↔ ∃ n, t.node? i = some n ∧ n.kind = k := by
  rw [nodesOfKind_eq, List.mem_filter, hasKind_iff, mem_preorder_iff]
  exact ⟨And.right, fun h => ⟨lt_size_of_node? h.choose_spec.1, h⟩⟩

/-! ### Counts -/

/-- The kinds that occur are counted, and no others. -/
theorem mem_kindCounts {k : Kind} {c : Nat} :
    (k, c) ∈ t.kindCounts ↔ c = (t.nodesOfKind k).length ∧ c ≠ 0 :=
  Kind.mem_counts (f := fun k => (t.nodesOfKind k).length)

/-- Nodes sorted by kind are as many as they were. -/
theorem sum_length_hasKind (is : List NodeId) (h : ∀ i ∈ is, i < t.size) :
    (Kind.all.map fun k => (is.filter (t.hasKind (· == k))).length).sum = is.length := by
  induction is with
  | nil => rfl
  | cons i is ih =>
      obtain ⟨hi, his⟩ := List.forall_mem_cons.1 h
      obtain ⟨n, hn⟩ := node?_of_lt hi
      have hcons : ∀ k, ((i :: is).filter (t.hasKind (· == k))).length =
          (is.filter (t.hasKind (· == k))).length + if n.kind = k then 1 else 0 := by
        intro k
        rw [List.filter_cons, hasKind, hn, Option.any_some]
        by_cases hk : n.kind = k <;> simp [hk]
      have hone : (Kind.all.map fun k => if n.kind = k then 1 else 0).sum = 1 := by
        cases n.kind <;> rfl
      rw [List.map_congr_left fun k _ => hcons k, List.sum_map_add, ih his, hone, List.length_cons]

theorem sum_filter_ne_zero (xs : List (Kind × Nat)) :
    ((xs.filter (·.2 ≠ 0)).map (·.2)).sum = (xs.map (·.2)).sum := by
  induction xs with
  | nil => rfl
  | cons x xs ih =>
      by_cases hx : x.2 = 0
      · rw [List.filter_cons_of_neg (by simpa using hx), ih, List.map_cons, List.sum_cons, hx,
          Nat.zero_add]
      · rw [List.filter_cons_of_pos (by simpa using hx), List.map_cons, List.map_cons,
          List.sum_cons, List.sum_cons, ih]

/-- The nodes of all kinds are all nodes. -/
theorem sum_length_nodesOfKind (t : Tree) :
    (Kind.all.map fun k => (t.nodesOfKind k).length).sum = t.size := by
  rw [← t.length_preorder, ← sum_length_hasKind t.preorder fun i hi => mem_preorder_iff.1 hi]
  simp only [nodesOfKind_eq]

/-- The counts of the kinds add up to the number of nodes. -/
theorem sum_kindCounts (t : Tree) : (t.kindCounts.map (·.2)).sum = t.size := by
  rw [kindCounts, sum_filter_ne_zero, List.map_map]
  exact t.sum_length_nodesOfKind

end Tree

end Outline
