import Mathlib.Data.List.Forall2
import Outline.Proofs.Text.Unambiguous
import Outline.Proofs.Tree.Attachment

/-!
# Outline.Proofs.Tree.Print

**The printed tree tells the tree.** A line tells the level, the kind and the name of its node: the
name of a kind holds no space, so the first one behind the indentation ends it
(`Mark.line_injective`). No name holds a line end, so the text tells its lines. And the levels tell
where the lines of one child end and those of the next begin (`alike_of_marks`).

The argument goes through the marks. A text tells its lines and a line tells its mark, so texts are
compared as lists of marks; and lists of marks are taken apart into subtrees by their levels.
-/

namespace Outline

/-! ### Lines

Everything in a line that is not the name is free of line ends and is ended by a space, so nothing
in a name can be taken for something else. -/

/-- Characters that are pushed stand at the end. -/
theorem toList_pushn (s : String) (c : Char) (n : Nat) :
    (s.pushn c n).toList = s.toList ++ List.replicate n c := by
  induction n with
  | zero => simp [String.pushn, Nat.repeat]
  | succ n ih =>
      rw [String.pushn] at ih ⊢
      rw [Nat.repeat, String.toList_push, ih, List.replicate_succ', List.append_assoc]

/-- Lines that are each ended by a line end can be taken apart. -/
theorem splitOn_flatMap_lines {ls : List (List Char)} (h : ∀ l ∈ ls, '\n' ∉ l) :
    (ls.flatMap (· ++ ['\n'])).splitOn '\n' = ls ++ [[]] := by
  have hjoin : ls.flatMap (· ++ ['\n']) = ['\n'].intercalate (ls ++ [[]]) := by
    clear h
    induction ls with
    | nil => rfl
    | cons l ls ih =>
        rw [List.flatMap_cons, ih, List.cons_append, List.intercalate_cons_of_ne_nil (by simp)]
  have hfree : ∀ l ∈ ls ++ [[]], '\n' ∉ l := by
    intro l hl
    rcases List.mem_append.1 hl with hl | hl
    · exact h l hl
    · simp [List.mem_singleton.1 hl]
  rw [hjoin, List.splitOn_intercalate '\n' hfree (by simp)]

/-- What the line of a node tells. -/
structure Mark where
  level : Nat
  kind : Kind
  name : String
deriving DecidableEq

namespace Mark

/-- What stands in a line behind the kind. -/
def tail (name : String) : List Char := if name = "" then [] else ' ' :: name.toList

/-- The line: two spaces for each level, the kind and the name. -/
def line (m : Mark) : List Char :=
  List.replicate (2 * m.level) ' ' ++ (m.kind.name.toList ++ tail m.name)

/-- Behind the kind the name can be read off, also if it is empty or begins with a space, -/
theorem tail_injective : Function.Injective tail := by
  intro x y h
  by_cases hx : x = "" <;> by_cases hy : y = "" <;> simp_all [tail, String.toList_inj]

/-- and in a line the level, the kind and the name. -/
theorem line_injective : Function.Injective line := by
  rintro ⟨level, kind, name⟩ ⟨level', kind', name'⟩ h
  have hspace : ∀ k : Kind, ∀ c ∈ k.name.toList, (c != ' ') = true := by
    intro k
    refine List.all_eq_true.1 ?_
    cases k <;> decide
  have hne : ∀ k : Kind, k.name.toList ≠ [] := by
    intro k
    cases k <;> decide
  have hkind : ∀ (k : Kind) (x : List Char), ∀ c ∈ (k.name.toList ++ x).head?,
      (c == ' ') = false := by
    intro k x c hc
    rw [List.head?_append_of_ne_nil _ (hne k)] at hc
    simpa using hspace k c (List.mem_of_mem_head? hc)
  have htail : ∀ x : String, ∀ c ∈ (tail x).head?, (c != ' ') = false := by
    intro x c hc
    by_cases hx : x = ""
    · simp [tail, hx] at hc
    · rw [tail, if_neg hx, List.head?_cons, Option.mem_some_iff] at hc
      rw [← hc]
      rfl
  -- the indentation ends where no space follows, and the kind where one does
  obtain ⟨hindent, hrest⟩ := Text.append_inj_of_takeWhile (p := (· == ' ')) (by simp) (by simp)
    (hkind kind _) (hkind kind' _) h
  obtain ⟨hname, htext⟩ := Text.append_inj_of_takeWhile (hspace kind) (hspace kind') (htail _)
    (htail _) hrest
  have hlevel := congrArg List.length hindent
  simp only [List.length_replicate] at hlevel
  have hlevels : level = level' := by omega
  have hkinds : kind = kind' := Kind.name_inj (String.toList_inj.1 hname)
  have hnames : name = name' := tail_injective htext
  rw [hlevels, hkinds, hnames]

/-- Only the name could break a line. -/
theorem newline_notMem_line {m : Mark} (h : '\n' ∉ m.name.toList) : '\n' ∉ m.line := by
  have hkind : ∀ k : Kind, '\n' ∉ k.name.toList := by
    intro k
    cases k <;> decide
  by_cases hname : m.name = "" <;> simp [line, tail, hname, h, hkind]

end Mark

/-- What is printed of a node behind the indentation. -/
theorem Node.toList_text (n : Node) :
    n.text.toList = n.kind.name.toList ++ Mark.tail n.payload.name := by
  by_cases hname : n.payload.name = "" <;> simp [text, Mark.tail, hname]

namespace Tree

variable {t a b : Tree}

/-- What the line of a node tells at some level. -/
def mark (t : Tree) (level : Nat) (i : NodeId) : Mark :=
  ⟨level, ((t.node? i).map (·.kind)).getD .file, ((t.node? i).map (·.payload.name)).getD ""⟩

theorem mark_of_some {i : Nat} {n : Node} (hn : t.node? i = some n) (level : Nat) :
    t.mark level i = ⟨level, n.kind, n.payload.name⟩ := by
  rw [mark, hn]
  rfl

/-- What the lines of a subtree tell, in pre-order. -/
def marks (t : Tree) (level : Nat) (i : NodeId) : List Mark :=
  (t.subtree i).map fun k => t.mark (level + (t.depth k - t.depth i)) k

/-- The marks of a subtree are that of its node, followed by those of the subtrees of the children,
one level deeper. -/
theorem marks_of_some {i : Nat} {n : Node} (hn : t.node? i = some n) (level : Nat) :
    t.marks level i =
      ⟨level, n.kind, n.payload.name⟩ :: n.children.flatMap (t.marks (level + 1)) := by
  have hbelow : ∀ c ∈ n.children,
      (t.subtree c).map (fun k => t.mark (level + (t.depth k - t.depth i)) k) =
        t.marks (level + 1) c := by
    intro c hc
    refine List.map_congr_left ?_
    intro k hk
    have hci := depth_of_parent? ((mem_children_iff hn).1 hc)
    -- nothing below a child is above it, so levels below the child are counted from the child
    have hkc : t.depth c ≤ t.depth k := by
      by_cases hkc : k = c
      · rw [hkc]
      · exact Nat.le_of_lt (depth_lt_of_mem_subtree hk hkc)
    have hlevel : level + (t.depth k - t.depth i) = level + 1 + (t.depth k - t.depth c) := by omega
    rw [hlevel]
  rw [marks, subtree_of_some hn, List.map_cons, Nat.sub_self, mark_of_some hn, List.map_flatMap,
    List.flatMap_congr hbelow]
  rfl

/-- Where no node is, nothing is printed; -/
theorem linesFrom_of_none {i : Nat} (hn : t.node? i = none) (level : Nat) :
    t.linesFrom level i = [] := by
  rw [linesFrom]
  split
  · rfl
  · rename_i n hn'
    rw [hn] at hn'
    cases hn'

/-- else the line of the node, and then the lines of its children. -/
theorem linesFrom_of_some {i : Nat} {n : Node} (hn : t.node? i = some n) (level : Nat) :
    t.linesFrom level i =
      ("".pushn ' ' (2 * level) ++ n.text) :: n.children.flatMap (t.linesFrom (level + 1)) := by
  rw [linesFrom]
  split
  · rename_i hn'
    rw [hn] at hn'
    cases hn'
  · rename_i m hm
    obtain rfl : n = m := Option.some.inj (hn.symm.trans hm)
    simp

/-- The lines are those of the marks. -/
theorem toList_linesFrom (t : Tree) (level i : Nat) :
    (t.linesFrom level i).map String.toList = (t.marks level i).map Mark.line := by
  induction i using t.induction_below generalizing level with
  | outside i hn => rw [linesFrom_of_none hn, marks, subtree_of_none hn]; rfl
  | inside i n hn ih =>
      have hline : ("".pushn ' ' (2 * level) ++ n.text).toList =
          Mark.line ⟨level, n.kind, n.payload.name⟩ := by
        simp [Node.toList_text, Mark.line, toList_pushn]
      rw [linesFrom_of_some hn, marks_of_some hn, List.map_cons, List.map_cons, hline,
        List.map_flatMap, List.map_flatMap, List.flatMap_congr fun c hc => ih c hc (level + 1)]

/-- The text is the lines of the marks, each with a line end behind it. -/
theorem toList_printFrom (t : Tree) (i : Nat) :
    (t.printFrom i).toList = ((t.marks 0 i).map Mark.line).flatMap (· ++ ['\n']) := by
  rw [← toList_linesFrom, printFrom, String.toList_join, List.flatMap_map, List.flatMap_map]
  simp

/-- Names hold no control characters, so none of them breaks its line. -/
theorem newline_notMem_of_mem_marks {level i : Nat} {m : Mark} (h : m ∈ t.marks level i) :
    '\n' ∉ m.line := by
  obtain ⟨k, hk, rfl⟩ := List.mem_map.1 h
  obtain ⟨n, hn⟩ := node?_of_lt (le_of_mem_subtree hk).2
  rw [mark_of_some hn]
  obtain ⟨hi, rfl⟩ := Array.getElem?_eq_some_iff.1 hn
  have hfault := t.arena.wellFormed.fault_none k hi
  refine Mark.newline_notMem_line ?_
  intro hmem
  have hcontrol : (t.arena.nodes[k].payload.name.toList.any Text.isControl) = true :=
    List.any_eq_true.2 ⟨'\n', hmem, by decide⟩
  rw [Payload.fault?, if_pos hcontrol] at hfault
  cases hfault

/-- So the lines can be read off the text. -/
theorem splitOn_printFrom (t : Tree) (i : Nat) :
    (t.printFrom i).toList.splitOn '\n' = (t.marks 0 i).map Mark.line ++ [[]] := by
  rw [toList_printFrom, splitOn_flatMap_lines]
  intro l hl
  obtain ⟨m, hm, rfl⟩ := List.mem_map.1 hl
  exact newline_notMem_of_mem_marks hm

/-- Texts are the same if their marks are. -/
theorem printFrom_eq_iff {i j : Nat} :
    a.printFrom i = b.printFrom j ↔ a.marks 0 i = b.marks 0 j := by
  constructor
  · intro h
    have hlines := congrArg (fun s : String => s.toList.splitOn '\n') h
    simp only [splitOn_printFrom] at hlines
    exact Mark.line_injective.list_map (List.append_cancel_right hlines)
  · intro h
    rw [← String.toList_inj, toList_printFrom, toList_printFrom, h]

/-! ### Trees that look alike

`Alike` says of two nodes what the texts can tell: kinds, names and the order of children, but not
ids and attributes. One direction is an induction over the tree; for the other the marks of the
children, which stand in one list, have to be told apart first (`append_marks_inj`). -/

/-- Two nodes have the same kind and name, and their children are pairwise alike. -/
inductive Alike (a b : Tree) : NodeId → NodeId → Prop
  | node {i j : NodeId} {n m : Node} (hn : a.node? i = some n) (hm : b.node? j = some m)
      (kind : n.kind = m.kind) (name : n.payload.name = m.payload.name)
      (children : List.Forall₂ (Alike a b) n.children m.children) : Alike a b i j

/-- Nodes that are alike have the same marks below them. -/
theorem marks_of_alike {i j : Nat} (h : Alike a b i j) (level : Nat) :
    a.marks level i = b.marks level j := by
  induction i using a.induction_below generalizing j level with
  | outside i hn =>
      cases h with
      | node hn' =>
          rw [hn] at hn'
          cases hn'
  | inside i n hn ih =>
      cases h with
      | @node _ _ n' m hn' hm hkind hname hchildren =>
          rw [hn] at hn'
          cases hn'
          rw [marks_of_some hn, marks_of_some hm, hkind, hname]
          congr 1
          generalize n.children = ns at hchildren ih
          generalize m.children = ms at hchildren
          -- the children are gone through in pairs, each with what is known of the pair
          induction hchildren with
          | nil => rfl
          | cons hc _ ihcs =>
              rw [List.forall_mem_cons] at ih
              rw [List.flatMap_cons, List.flatMap_cons, ih.1 hc (level + 1), ihcs ih.2]

/-- The marks of some subtrees, one after the other, begin with that of a node at their level. -/
theorem level_head?_flatMap_marks {is : List NodeId} (h : ∀ i ∈ is, i < t.size) (level : Nat) :
    ∀ m ∈ (is.flatMap (t.marks level)).head?, m.level = level := by
  intro m hm
  cases is with
  | nil => cases hm
  | cons i is =>
      obtain ⟨n, hn⟩ := node?_of_lt (h i List.mem_cons_self)
      rw [List.flatMap_cons, marks_of_some hn, List.cons_append, List.head?_cons,
        Option.mem_some_iff] at hm
      rw [← hm]

/-- The marks of a subtree end where the level of its node comes again. -/
theorem append_marks_inj {i j : Nat} (hi : i < a.size) (hj : j < b.size) {level : Nat}
    {x y : List Mark} (hx : ∀ m ∈ x.head?, m.level = level) (hy : ∀ m ∈ y.head?, m.level = level)
    (h : a.marks level i ++ x = b.marks level j ++ y) :
    a.marks level i = b.marks level j ∧ x = y := by
  -- below a node all marks are deeper, and what follows begins at its own level again
  have hdeeper : ∀ {t : Tree} {is : List NodeId}, ∀ m ∈ is.flatMap (t.marks (level + 1)),
      decide (level < m.level) = true := by
    intro t is m hm
    obtain ⟨k, -, hk⟩ := List.mem_flatMap.1 hm
    obtain ⟨l, -, rfl⟩ := List.mem_map.1 hk
    exact decide_eq_true (by dsimp only [mark]; omega)
  have hlevel : ∀ {z : List Mark}, (∀ m ∈ z.head?, m.level = level) →
      ∀ m ∈ z.head?, decide (level < m.level) = false := by
    intro z hz m hm
    simp [hz m hm]
  obtain ⟨n, hn⟩ := node?_of_lt hi
  obtain ⟨m, hm⟩ := node?_of_lt hj
  rw [marks_of_some hn, marks_of_some hm, List.cons_append, List.cons_append,
    List.cons.injEq] at h
  obtain ⟨hbelow, hrest⟩ :=
    Text.append_inj_of_takeWhile hdeeper hdeeper (hlevel hx) (hlevel hy) h.2
  exact ⟨by rw [marks_of_some hn, marks_of_some hm, h.1, hbelow], hrest⟩

/-- Nodes with the same marks below them are alike. -/
theorem alike_of_marks {i j : Nat} (hi : i < a.size) (hj : j < b.size) {level : Nat}
    (h : a.marks level i = b.marks level j) : Alike a b i j := by
  induction i using a.induction_below generalizing j level with
  | outside i hn =>
      obtain ⟨n, hn'⟩ := node?_of_lt hi
      rw [hn] at hn'
      cases hn'
  | inside i n hn ih =>
      obtain ⟨m, hm⟩ := node?_of_lt hj
      rw [marks_of_some hn, marks_of_some hm, List.cons.injEq, Mark.mk.injEq] at h
      obtain ⟨⟨-, hkind, hname⟩, hbelow⟩ := h
      refine .node hn hm hkind hname ?_
      have hns : ∀ c ∈ n.children, c < a.size := fun c hc => (lt_of_mem_children hn hc).2
      have hms : ∀ c ∈ m.children, c < b.size := fun c hc => (lt_of_mem_children hm hc).2
      -- the children are taken off both lists in step
      generalize n.children = ns at hbelow hns ih
      generalize m.children = ms at hbelow hms
      induction ns generalizing ms with
      | nil =>
          cases ms with
          | nil => exact .nil
          | cons d ms =>
              obtain ⟨k, hk⟩ := node?_of_lt (hms d List.mem_cons_self)
              rw [List.flatMap_cons, marks_of_some hk] at hbelow
              cases hbelow
      | cons c ns ihns =>
          cases ms with
          | nil =>
              obtain ⟨k, hk⟩ := node?_of_lt (hns c List.mem_cons_self)
              rw [List.flatMap_cons, marks_of_some hk] at hbelow
              cases hbelow
          | cons d ms =>
              rw [List.forall_mem_cons] at ih hns hms
              rw [List.flatMap_cons, List.flatMap_cons] at hbelow
              obtain ⟨hfirst, hrest⟩ := append_marks_inj hns.1 hms.1
                (level_head?_flatMap_marks hns.2 _) (level_head?_flatMap_marks hms.2 _) hbelow
              exact .cons (ih.1 hns.1 hms.1 hfirst) (ihns hns.2 ih.2 ms hrest hms.2)

/-- A text has one line for each of some nodes, and nothing behind the last line end. The line of a
node is indented by two spaces for each level below the level `base`. -/
structure HasLines (t : Tree) (text : String) (nodes : List NodeId) (base : Nat) : Prop where
  length : (text.toList.splitOn '\n').length = nodes.length + 1
  last : (text.toList.splitOn '\n').getLast? = some []
  line : ∀ (p : Nat) (k : NodeId) (n : Node), nodes[p]? = some k → t.node? k = some n →
    (text.toList.splitOn '\n')[p]? =
      some (List.replicate (2 * (t.depth k - base)) ' ' ++ n.text.toList)

/-- What is printed from a node on has lines for it and for all that is below. -/
theorem hasLines_printFrom (t : Tree) (i : Nat) :
    HasLines t (t.printFrom i) (t.subtree i) (t.depth i) where
  length := by simp [splitOn_printFrom, marks]
  last := by simp [splitOn_printFrom]
  line := by
    intro p k n hk hn
    have hp := (List.getElem?_eq_some_iff.1 hk).1
    rw [splitOn_printFrom, List.getElem?_append_left (by simpa [marks] using hp), marks,
      List.map_map, List.getElem?_map, hk, Option.map_some, Function.comp_apply,
      mark_of_some hn, Nat.zero_add, Mark.line, Node.toList_text]

/-- **The printed tree tells the tree.** Two trees have the same text exactly if they have the same
shape, kinds and names, with children in the same order; the text has as many lines as the tree has
nodes: they are those of the nodes in pre-order, each indented by two spaces for each owner. So it
is with the text from any node on and what is below it, relative to the node. -/
theorem print_exact (a b : Tree) :
    (a.print = b.print ↔ Alike a b 0 0) ∧
      HasLines a a.print a.preorder 0 ∧ a.preorder.length = a.size ∧
      ∀ i < a.size, HasLines a (a.printFrom i) (a.subtree i) (a.depth i) ∧
        ∀ j < b.size, a.printFrom i = b.printFrom j ↔ Alike a b i j := by
  have halike : ∀ i < a.size, ∀ j < b.size, a.printFrom i = b.printFrom j ↔ Alike a b i j := by
    intro i hi j hj
    rw [printFrom_eq_iff]
    exact ⟨alike_of_marks hi hj, fun h => marks_of_alike h 0⟩
  refine ⟨halike 0 a.nonempty 0 b.nonempty, ?_, a.length_preorder, ?_⟩
  · have hlines := a.hasLines_printFrom 0
    rwa [← preorder_eq, depth_root] at hlines
  · intro i hi
    exact ⟨a.hasLines_printFrom i, halike i hi⟩

/-- A function without a name and a method whose name begins with a space, attached in different
orders and with different attributes. -/
theorem print_exact_late :
    let early : List DocumentNode := [⟨.file, none, ⟨"a.py", .empty⟩⟩,
      ⟨.classType, some 0, ⟨"A", .empty⟩⟩, ⟨.method, some 1, ⟨" m", .empty⟩⟩,
      ⟨.function, some 0, ⟨"", .empty⟩⟩]
    let late : List DocumentNode := [⟨.file, none, ⟨"a.py", .empty⟩⟩,
      ⟨.classType, some 0, ⟨"A", .ofList [("line", "3")]⟩⟩, ⟨.function, some 0, ⟨"", .empty⟩⟩,
      ⟨.method, some 1, ⟨" m", .empty⟩⟩]
    ∃ a b : Tree, a.rows = early ∧ b.rows = late ∧ a.print = b.print ∧ 1 < a.size ∧ 1 < b.size ∧
      a.printFrom 1 = b.printFrom 1 := by
  intro early late
  let a : Tree := ⟨(Assembly.run early).arena, by decide⟩
  let b : Tree := ⟨(Assembly.run late).arena, by decide⟩
  have hmethod : Alike a b 2 3 := .node rfl rfl rfl rfl .nil
  have hclass : Alike a b 1 1 := .node rfl rfl rfl rfl (.cons hmethod .nil)
  have hfunction : Alike a b 3 2 := .node rfl rfl rfl rfl .nil
  have hfile : Alike a b 0 0 := .node rfl rfl rfl rfl (.cons hclass (.cons hfunction .nil))
  have ha : 1 < a.size := by decide
  have hb : 1 < b.size := by decide
  obtain ⟨hprint, -, -, hbelow⟩ := print_exact a b
  exact ⟨a, b, rfl, rfl, hprint.2 hfile, ha, hb, ((hbelow 1 ha).2 1 hb).2 hclass⟩

end Tree

end Outline
