import Mathlib.Data.List.Induction
import Outline.Proofs.Tree.Descent
import Outline.Proofs.Tree.Index
import Outline.Proofs.Tree.Rows

/-!
# Outline.Proofs.Tree.Attachment

**Whatever calls built a tree, it is arranged alike.** A history is any list of calls that attach
nodes, in any order and with failing ones among them. What a call answers depends on the number of
nodes alone (`DocumentNode.answer`); a call that fails changes nothing, and those that succeed get
the ids 0, 1, 2 and so on and become the rows of the arena. If there is a tree in the end, its
parents, children, owners, pre-order and index agree with each other (`Tree.Arranged`).

The histories are followed call by call; that the tree is arranged then follows from the invariant
of the arena, through the walk that makes the pre-order.
-/

namespace Outline

/-! ### Histories of calls -/

/-- What a call that attaches a row answers behind `n` nodes: the id of the new node, or why there
is none. -/
def DocumentNode.answer (n : Nat) (r : DocumentNode) : Except BuildError NodeId :=
  match r.payload.fault?, r.parent with
  | some fault, _ => .error (.malformedPayload fault)
  | none, none => if n = 0 then .ok n else .error (.secondRoot n)
  | none, some p => if p < n then .ok n else .error (.unknownParent p)

/-- What attaching a row does: the row fits and becomes the last one, or the arena refuses it. -/
theorem Arena.attach_cases (a : Arena) (r : DocumentNode) :
    (r.answer a.size = .ok a.size ∧
      ∃ b, a.attach r.parent r.kind r.payload = .ok b ∧ b.rows = a.rows ++ [r]) ∨
    (∃ e, r.answer a.size = .error e ∧ a.attach r.parent r.kind r.payload = .error e) := by
  obtain ⟨kind, parent, payload⟩ := r
  cases hf : payload.fault? with
  | some fault =>
      refine .inr ⟨.malformedPayload fault, ?_, Arena.attach_of_fault hf⟩
      simp only [DocumentNode.answer, hf]
  | none =>
      cases parent with
      | none =>
          by_cases h0 : a.size = 0
          · refine .inl ⟨?_, Arena.attach_of_fits ⟨hf, fun _ => h0, fun p hp => nomatch hp⟩⟩
            simp only [DocumentNode.answer, hf, h0, if_true]
          · refine .inr ⟨.secondRoot a.size, ?_, Arena.attach_of_second_root hf h0⟩
            simp only [DocumentNode.answer, hf, h0, if_false]
      | some p =>
          by_cases hp : p < a.size
          · have hfits : (⟨kind, some p, payload⟩ : DocumentNode).Fits a.size := by
              refine ⟨hf, fun h => ?_, fun q hq => ?_⟩
              · cases h
              · rwa [← Option.some.inj hq]
            refine .inl ⟨?_, Arena.attach_of_fits hfits⟩
            simp only [DocumentNode.answer, hf, hp, if_true]
          · refine .inr ⟨.unknownParent p, ?_, Arena.attach_of_unknown_parent hf hp⟩
            simp only [DocumentNode.answer, hf, hp, if_false]

/-- An arena under construction. -/
structure Assembly where
  arena : Arena := .empty
  /-- What the calls so far have answered. -/
  answers : List (Except BuildError NodeId) := []

namespace Assembly

/-- One call; one that fails leaves the arena as it was. -/
def call (s : Assembly) (r : DocumentNode) : Assembly :=
  match s.arena.attach r.parent r.kind r.payload with
  | .ok arena => ⟨arena, s.answers ++ [.ok s.arena.size]⟩
  | .error e => ⟨s.arena, s.answers ++ [.error e]⟩

/-- The arena after a history of calls. -/
def run (rs : List DocumentNode) : Assembly := rs.foldl call {}

/-- The rows of the calls that have succeeded. -/
def accepted (s : Assembly) (rs : List DocumentNode) : List DocumentNode :=
  (rs.zip s.answers).filterMap fun (r, x) => x.toOption.map fun _ => r

theorem run_concat (rs : List DocumentNode) (r : DocumentNode) :
    run (rs ++ [r]) = (run rs).call r := by
  rw [run, List.foldl_append]
  rfl

/-- What one call does: it answers by the number of nodes, and adds its row if it succeeds. -/
theorem call_spec (s : Assembly) (r : DocumentNode) :
    (s.call r).answers = s.answers ++ [r.answer s.arena.size] ∧
      ((r.answer s.arena.size = .ok s.arena.size ∧
          (s.call r).arena.rows = s.arena.rows ++ [r]) ∨
        (∃ e, r.answer s.arena.size = .error e ∧ (s.call r).arena = s.arena)) := by
  rcases s.arena.attach_cases r with ⟨hanswer, b, hb, hrows⟩ | ⟨e, hanswer, he⟩
  · rw [call, hb, hanswer]
    exact ⟨rfl, .inl ⟨rfl, hrows⟩⟩
  · rw [call, he, hanswer]
    exact ⟨rfl, .inr ⟨e, rfl, rfl⟩⟩

theorem length_answers (rs : List DocumentNode) : (run rs).answers.length = rs.length := by
  induction rs using List.reverseRecOn with
  | nil => rfl
  | append_singleton rs r ih =>
      rw [run_concat, (call_spec _ r).1, List.length_append, List.length_append, ih]
      rfl

/-- What the last call adds to the rows accepted is told by its answer. -/
theorem accepted_concat (rs : List DocumentNode) (r : DocumentNode) :
    (run (rs ++ [r])).accepted (rs ++ [r]) = (run rs).accepted rs ++
      ((r.answer (run rs).arena.size).toOption.map fun _ => r).toList := by
  rw [run_concat, accepted, (call_spec _ r).1, List.zip_append (length_answers rs).symm,
    List.filterMap_append, accepted]
  rfl

theorem accepted_concat_of_ok {rs : List DocumentNode} {r : DocumentNode} {i : NodeId}
    (h : r.answer (run rs).arena.size = .ok i) :
    (run (rs ++ [r])).accepted (rs ++ [r]) = (run rs).accepted rs ++ [r] := by
  rw [accepted_concat, h]
  rfl

theorem accepted_concat_of_error {rs : List DocumentNode} {r : DocumentNode} {e : BuildError}
    (h : r.answer (run rs).arena.size = .error e) :
    (run (rs ++ [r])).accepted (rs ++ [r]) = (run rs).accepted rs := by
  rw [accepted_concat, h]
  exact List.append_nil _

/-- The calls that succeed get the ids in order, and their rows make the arena. -/
theorem run_spec (rs : List DocumentNode) :
    (run rs).answers.filterMap Except.toOption = List.range (run rs).arena.size ∧
      (run rs).arena.rows = (run rs).accepted rs := by
  induction rs using List.reverseRecOn with
  | nil => exact ⟨rfl, rfl⟩
  | append_singleton rs r ih =>
      obtain ⟨hids, hrows⟩ := ih
      obtain ⟨hanswers, hcall⟩ := (run rs).call_spec r
      rcases hcall with ⟨hok, hnew⟩ | ⟨e, he, hsame⟩
      · have hsize : ((run rs).call r).arena.size = (run rs).arena.size + 1 := by
          rw [← Arena.length_rows, hnew, List.length_append, Arena.length_rows]
          rfl
        rw [accepted_concat_of_ok hok, run_concat, hanswers, List.filterMap_append, hids, hsize,
          hnew, hrows, hok, List.range_succ]
        exact ⟨rfl, rfl⟩
      · rw [accepted_concat_of_error he, run_concat, hanswers, List.filterMap_append, hids, hsame,
          hrows, he]
        exact ⟨List.append_nil _, rfl⟩

/-- The calls that fail could have been left out. -/
theorem arena_accepted (rs : List DocumentNode) :
    (run ((run rs).accepted rs)).arena = (run rs).arena := by
  induction rs using List.reverseRecOn with
  | nil => rfl
  | append_singleton rs r ih =>
      rcases ((run rs).call_spec r).2 with ⟨hok, hnew⟩ | ⟨e, he, hsame⟩
      · rw [accepted_concat_of_ok hok, run_concat, run_concat]
        refine Arena.eq_of_rows_eq ?_
        rcases ((run ((run rs).accepted rs)).call_spec r).2 with ⟨-, hnew'⟩ | ⟨e, he, -⟩
        · rw [hnew', hnew, ih]
        · rw [ih, hok] at he
          cases he
      · rw [accepted_concat_of_error he, run_concat, hsame, ih]

/-- There is a node exactly if a call has succeeded. -/
theorem exists_ok_iff (rs : List DocumentNode) :
    (∃ i, .ok i ∈ (run rs).answers) ↔ 0 < (run rs).arena.size := by
  have hmem : ∀ i, i ∈ (run rs).answers.filterMap Except.toOption ↔ .ok i ∈ (run rs).answers := by
    intro i
    rw [List.mem_filterMap]
    constructor
    · rintro ⟨x, hx, hi⟩
      cases x with
      | error e => cases hi
      | ok j => exact Option.some.inj hi ▸ hx
    · exact fun hi => ⟨_, hi, rfl⟩
  simp only [← hmem, (run_spec rs).1, List.mem_range]
  exact ⟨fun ⟨_, hi⟩ => Nat.zero_lt_of_lt hi, fun hpos => ⟨0, hpos⟩⟩

/-- What a call has answered stays known. -/
theorem answers_append (before after : List DocumentNode) :
    (run before).answers <+: (run (before ++ after)).answers := by
  induction after using List.reverseRecOn with
  | nil => exact (List.append_nil before).symm ▸ List.prefix_rfl
  | append_singleton after r ih =>
      rw [← List.append_assoc, run_concat, (call_spec _ r).1]
      exact ih.trans (List.prefix_append _ _)

theorem answers_at (before : List DocumentNode) (r : DocumentNode) (after : List DocumentNode) :
    (run (before ++ r :: after)).answers[before.length]? =
      some (r.answer (run before).arena.size) := by
  obtain ⟨later, hlater⟩ := answers_append (before ++ [r]) after
  rw [List.append_assoc, List.singleton_append, run_concat, (call_spec _ r).1] at hlater
  rw [← hlater, List.append_assoc, ← length_answers before,
    List.getElem?_append_right (Nat.le_refl _), Nat.sub_self]
  rfl

end Assembly

/-! ### How a tree is arranged -/

/-- The parents, children, owners, pre-order and index of a tree agree with each other. -/
structure Tree.Arranged (t : Tree) : Prop where
  /-- Node 0 is the only one without a parent. -/
  root : ∀ i < t.size, t.parent? i = none ↔ i = 0
  /-- A parent has a smaller id. -/
  parent : ∀ i p : NodeId, t.parent? i = some p → p < i ∧ i < t.size
  /-- The children of a node are the nodes that name it, in increasing order. -/
  children : ∀ i < t.size,
    (t.children i).Pairwise (· < ·) ∧ ∀ c, c ∈ t.children i ↔ t.parent? c = some i
  /-- The owners of a node lead from parent to parent up to node 0. -/
  owners : ∀ i < t.size, (i :: t.ancestors i).IsChain (fun c p => t.parent? c = some p) ∧
    (i :: t.ancestors i).getLast? = some 0
  /-- The pre-order lists every node once. -/
  once : t.preorder.Perm (List.range t.size)
  /-- Nothing is listed before what owns it. -/
  ownersFirst : t.preorder.Pairwise fun a b => b ∉ t.ancestors a
  /-- A node and what it owns are listed without a gap. -/
  stretch : ∀ i < t.size, t.subtree i <:+: t.preorder ∧
    ∀ j < t.size, j ∈ t.subtree i ↔ j = i ∨ i ∈ t.ancestors j
  /-- Siblings are listed in the order of the list of children. -/
  siblings : ∀ i < t.size, (t.children i).Sublist t.preorder
  /-- The index lists the nodes of a kind in pre-order. -/
  index : ∀ k, t.nodesOfKind k = t.preorder.filter (t.hasKind (· == k))
  /-- Every node is in the index under exactly one kind. -/
  kind : ∀ i < t.size, ∃! k, i ∈ t.nodesOfKind k
  /-- The counts of the kinds are those of the index, and add up to the number of nodes. -/
  counts : (∀ k c, (k, c) ∈ t.kindCounts ↔ c = (t.nodesOfKind k).length ∧ c ≠ 0) ∧
    (t.kindCounts.map (·.2)).sum = t.size

/-- Every tree is arranged, whatever built it. -/
theorem Tree.arranged (t : Tree) : t.Arranged where
  root i hi := by
    refine ⟨eq_zero_of_parent?_eq_none hi, fun h0 => ?_⟩
    cases hp : t.parent? i with
    | none => rfl
    | some p => exact absurd (parent?_lt hp) (by omega)
  parent i p hp := ⟨parent?_lt hp, lt_size_of_parent? hp⟩
  children i _ := ⟨t.pairwise_children i, fun _ => mem_children⟩
  owners i hi := by
    refine ⟨t.isChain_ancestors i, ?_⟩
    rw [List.getLast?_cons, getLast?_ancestors hi]
    split
    · rename_i h0
      rw [h0]
      rfl
    · rfl
  once := t.preorder_perm
  ownersFirst := t.preorder_owners_first
  stretch i hi := ⟨subtree_stretch_preorder hi, fun _ => mem_subtree_iff⟩
  siblings i := children_sublist_preorder
  index k := nodesOfKind_eq k
  kind i hi := by
    obtain ⟨n, hn⟩ := node?_of_lt hi
    refine ⟨n.kind, mem_nodesOfKind.2 ⟨n, hn, rfl⟩, fun k hk => ?_⟩
    obtain ⟨m, hm, rfl⟩ := mem_nodesOfKind.1 hk
    rw [Option.some.inj (hm.symm.trans hn)]
  counts := ⟨fun _ _ => mem_kindCounts, t.sum_kindCounts⟩

/-! ### Histories and trees -/

open Assembly in
/-- Any history of calls: each answers by the number of nodes attached before it, one that fails
changes nothing and could have been left out, and those that succeed get the ids from 0 on. There
is a tree exactly if one has succeeded; its rows are those that have been accepted, and it is
arranged. -/
theorem attach_history (rs : List DocumentNode) :
    (∀ before r after, rs = before ++ r :: after →
      (run rs).answers[before.length]? = some (r.answer (run before).arena.size) ∧
        ∀ e, r.answer (run before).arena.size = .error e →
          (run (before ++ [r])).arena = (run before).arena) ∧
      (run ((run rs).accepted rs)).arena = (run rs).arena ∧
      (run rs).answers.filterMap Except.toOption = List.range (run rs).arena.size ∧
      ((∃ t, (run rs).arena.toTree = .ok t) ↔ ∃ i, .ok i ∈ (run rs).answers) ∧
      ∀ t, (run rs).arena.toTree = .ok t → t.rows = (run rs).accepted rs ∧ t.Arranged := by
  obtain ⟨hids, hrows⟩ := run_spec rs
  refine ⟨?_, arena_accepted rs, hids, ?_, fun t ht => ?_⟩
  · rintro before r after rfl
    refine ⟨answers_at before r after, fun e he => ?_⟩
    rw [run_concat]
    rcases ((run before).call_spec r).2 with ⟨hok, -⟩ | ⟨e', -, hsame⟩
    · rw [he] at hok
      cases hok
    · exact hsame
  · rw [exists_ok_iff]
    constructor
    · rintro ⟨t, ht⟩
      rw [← Arena.length_rows, ← Arena.rows_of_toTree ht, t.length_rows]
      exact t.nonempty
    · intro hpos
      obtain ⟨t, ht, -⟩ := Arena.toTree_of_pos hpos
      exact ⟨t, ht⟩
  · rw [Arena.rows_of_toTree ht]
    exact ⟨hrows, t.arranged⟩

open Assembly in
/-- A parent that is not there yet, a name over two lines and a second root are refused; the last
node belongs to one that was attached before its sibling. -/
theorem attach_history_refusing :
    let rs : List DocumentNode := [⟨.function, some 0, ⟨"early", .empty⟩⟩,
      ⟨.file, none, ⟨"a.py", .empty⟩⟩, ⟨.classType, some 0, ⟨"A", .empty⟩⟩,
      ⟨.function, some 0, ⟨"f\ng", .empty⟩⟩, ⟨.file, none, ⟨"b.py", .empty⟩⟩,
      ⟨.function, some 0, ⟨"f", .empty⟩⟩, ⟨.method, some 1, ⟨"m", .empty⟩⟩]
    (run rs).answers = [.error (.unknownParent 0), .ok 0, .ok 1,
        .error (.malformedPayload (.controlInName "f\ng")), .error (.secondRoot 2), .ok 2, .ok 3] ∧
      ∃ t, (run rs).arena.toTree = .ok t ∧
        t.rows = [⟨.file, none, ⟨"a.py", .empty⟩⟩, ⟨.classType, some 0, ⟨"A", .empty⟩⟩,
          ⟨.function, some 0, ⟨"f", .empty⟩⟩, ⟨.method, some 1, ⟨"m", .empty⟩⟩] ∧ t.Arranged := by
  intro rs
  obtain ⟨-, -, -, hbuilds, hbuilt⟩ := attach_history rs
  have hanswers : (run rs).answers = [.error (.unknownParent 0), .ok 0, .ok 1,
      .error (.malformedPayload (.controlInName "f\ng")), .error (.secondRoot 2), .ok 2,
      .ok 3] := by
    rfl
  have hok : ∃ i, .ok i ∈ (run rs).answers := ⟨0, by rw [hanswers]; simp⟩
  obtain ⟨t, ht⟩ := hbuilds.2 hok
  obtain ⟨hrows, harranged⟩ := hbuilt t ht
  rw [accepted, hanswers] at hrows
  exact ⟨hanswers, t, ht, hrows, harranged⟩

end Outline
