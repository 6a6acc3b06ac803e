import Outline.Proofs.Syntax.Walk
import Outline.Proofs.Tree.Nesting
import Outline.Syntax.Language.Python

/-!
# Outline.Proofs.Syntax.Ownership

**In the tree of a file every declaration belongs to the nearest one around it.** A node of a syntax
tree is named by its path, the places of the children that lead to it. `Language.stubsAll` is the
recursion of the walk once more, with the path of the node beside every declaration; so ancestors
are prefixes of paths, and document order is the lexicographic order.

The rest is about such lists of paths alone (`Placed`): the paths increase, the first is that of
the root, and the depth of a declaration is the number of paths in the list that lead to ancestors
of its node. A path between an ancestor's and a node's own is a path through the ancestor
(`prefix_of_between`), and from this it follows that the depths nest and that the last entry one
level higher is the nearest ancestor.
-/

namespace Outline

/-! ### Paths

Paths are compared as lists. That ancestors are prefixes and that document order is lexicographic
are the only facts about trees that the rest of the argument needs. -/

/-- The path `a` leads to an ancestor of the node that `b` leads to. -/
def Above (a b : List Nat) : Prop := a <+: b ∧ a ≠ b

instance (a b : List Nat) : Decidable (Above a b) :=
  inferInstanceAs (Decidable (a <+: b ∧ a ≠ b))

theorem Above.nil {a : List Nat} (h : a ≠ []) : Above [] a := ⟨List.nil_prefix, Ne.symm h⟩

theorem not_above_self (a : List Nat) : ¬ Above a a := fun h => h.2 rfl

theorem Above.trans {a b c : List Nat} (hab : Above a b) (hbc : b <+: c) : Above a c := by
  refine ⟨hab.1.trans hbc, ?_⟩
  rintro rfl
  exact hab.2 (hab.1.eq_of_length_le hbc.length_le)

/-- An ancestor comes first. -/
theorem Above.lt {a b : List Nat} (h : Above a b) : a < b := by
  obtain ⟨⟨r, rfl⟩, hne⟩ := h
  cases r with
  | nil => exact absurd (List.append_nil a).symm hne
  | cons i r =>
      have hlt : a ++ [] < a ++ i :: r := List.append_left_lt (List.nil_lt_cons i r)
      rwa [List.append_nil] at hlt

/-- What comes between an ancestor and a node is below the ancestor. -/
theorem prefix_of_between {a b c : List Nat} (hac : a <+: c) (hab : a < b) (hbc : b < c) :
    a <+: b := by
  induction a generalizing b c with
  | nil => exact List.nil_prefix
  | cons i a ih =>
      obtain ⟨r, rfl⟩ := hac
      have hac : a <+: a ++ r := List.prefix_append a r
      cases b with
      | nil => exact absurd hab (List.not_lt_nil _)
      | cons j b =>
          -- `b` begins with the same step as `a`, for it lies between two paths that do
          rcases List.cons_lt_cons_iff.1 hab with hij | ⟨rfl, hlt⟩
          · rcases List.cons_lt_cons_iff.1 hbc with hji | ⟨rfl, -⟩
            · exact absurd hij (Nat.lt_asymm hji)
            · exact absurd hij (Nat.lt_irrefl _)
          · rcases List.cons_lt_cons_iff.1 hbc with hji | ⟨-, hgt⟩
            · exact absurd hji (Nat.lt_irrefl _)
            · exact List.cons_prefix_cons.2 ⟨rfl, ih hac hlt hgt⟩

/-- Among prefixes of one path there is a longest. -/
theorem exists_longest {c : List Nat} {as : List (List Nat)} (hne : as ≠ [])
    (h : ∀ a ∈ as, a <+: c) : ∃ m ∈ as, ∀ a ∈ as, a <+: m := by
  induction as with
  | nil => exact absurd rfl hne
  | cons a as ih =>
      by_cases hnil : as = []
      · subst hnil
        refine ⟨a, List.mem_cons_self, fun b hb => ?_⟩
        exact List.mem_singleton.1 hb ▸ List.prefix_rfl
      · obtain ⟨m, hm, hlongest⟩ := ih hnil fun b hb => h b (List.mem_cons_of_mem _ hb)
        -- two prefixes of one path: one of them is a prefix of the other
        rcases List.prefix_or_prefix_of_prefix (h a List.mem_cons_self)
          (h m (List.mem_cons_of_mem _ hm)) with ham | hma
        · refine ⟨m, List.mem_cons_of_mem _ hm, fun b hb => ?_⟩
          rcases List.mem_cons.1 hb with rfl | hb
          · exact ham
          · exact hlongest b hb
        · refine ⟨a, List.mem_cons_self, fun b hb => ?_⟩
          rcases List.mem_cons.1 hb with rfl | hb
          · exact List.prefix_rfl
          · exact (hlongest b hb).trans hma

/-! ### Counting

Depths are counts, and counts of nested conditions differ by what lies between them. -/

section

variable {α : Type} {p q : α → Bool} {l : List α} {a : α}

/-- A condition that holds of one member more. -/
theorem countP_lt_of_mem (ha : a ∈ l) (hp : p a) (hq : ¬ q a) (h : ∀ x ∈ l, q x → p x) :
    l.countP q < l.countP p := by
  induction l with
  | nil => cases ha
  | cons b l ih =>
      have hl := List.countP_mono_left fun x hx => h x (List.mem_cons_of_mem _ hx)
      rcases List.mem_cons.1 ha with rfl | ha
      · rw [List.countP_cons_of_pos hp, List.countP_cons_of_neg hq]
        exact Nat.lt_succ_of_le hl
      · have hlt := ih ha fun x hx => h x (List.mem_cons_of_mem _ hx)
        by_cases hqb : q b
        · rw [List.countP_cons_of_pos hqb, List.countP_cons_of_pos (h b List.mem_cons_self hqb)]
          exact Nat.succ_lt_succ hlt
        · rw [List.countP_cons_of_neg hqb]
          exact Nat.lt_of_lt_of_le hlt (List.sublist_cons_self b l).countP_le

/-- A condition that holds of at most one member more. -/
theorem countP_le_succ (hl : l.Nodup) (h : ∀ x ∈ l, p x → q x ∨ x = a) :
    l.countP p ≤ l.countP q + 1 := by
  induction l with
  | nil => exact Nat.zero_le _
  | cons b l ih =>
      obtain ⟨hbl, hl⟩ := List.nodup_cons.1 hl
      by_cases hba : b = a
      · subst hba
        have hle : l.countP p ≤ l.countP q := by
          refine List.countP_mono_left fun x hx hpx => ?_
          rcases h x (List.mem_cons_of_mem _ hx) hpx with hqx | rfl
          · exact hqx
          · exact absurd hx hbl
        have hcons := (List.sublist_cons_self b l).countP_le (p := q)
        have hone : (b :: l).countP p ≤ l.countP p + 1 := by
          rw [List.countP_cons]
          split <;> omega
        omega
      · have hle := ih hl fun x hx => h x (List.mem_cons_of_mem _ hx)
        have hcons := (List.sublist_cons_self b l).countP_le (p := q)
        by_cases hpb : p b
        · have hqb := (h b List.mem_cons_self hpb).resolve_right hba
          rw [List.countP_cons_of_pos hpb, List.countP_cons_of_pos hqb]
          exact Nat.succ_le_succ hle
        · rw [List.countP_cons_of_neg hpb]
          exact Nat.le_trans hle (Nat.succ_le_succ hcons)

end

/-! ### Lists of placed declarations

This is the middle of the argument: from `Placed` follows all that is claimed of depths and owners,
and that the listing is `Placed` is shown afterwards. Positions in the list and paths are ordered
alike, which is used in both directions (`lt_of_lt`, `index_lt_of_lt`). -/

/-- A declaration with the path of its node. -/
abbrev Stub := List Nat × Entry

/-- A list of declarations in document order, whose depths count the ancestors in the list. -/
structure Placed (ss : List Stub) : Prop where
  /-- The first declaration is that of the root. -/
  root : ∃ e, ss[0]? = some ([], e)
  ordered : ss.Pairwise fun r s => r.1 < s.1
  depth : ∀ s ∈ ss, s.2.depth = (ss.map (·.1)).countP (Above · s.1)

/-- Stub `p` is the nearest ancestor of stub `i`: its node is above that of `i`, and whatever else
is above that of `i` is above it, too, or the same. -/
structure Nearest (ss : List Stub) (i p : Nat) : Prop where
  above : ∃ r s, ss[p]? = some r ∧ ss[i]? = some s ∧ Above r.1 s.1 ∧
    ∀ x ∈ ss, Above x.1 s.1 → x.1 <+: r.1

/-- Counting what is above a path, where nothing is. -/
theorem countP_above_eq_zero {ss : List Stub} {b : List Nat} (h : ∀ r ∈ ss, ¬ Above r.1 b) :
    (ss.map (·.1)).countP (Above · b) = 0 := by
  rw [List.countP_eq_zero]
  intro x hx
  obtain ⟨r, hr, rfl⟩ := List.mem_map.1 hx
  rw [decide_eq_true_eq]
  exact h r hr

namespace Placed

variable {ss : List Stub}

/-- No two declarations are of one node. -/
theorem nodup (h : Placed ss) : (ss.map (·.1)).Nodup := by
  refine List.pairwise_map.2 (h.ordered.imp fun hlt heq => ?_)
  rw [heq] at hlt
  exact List.lt_irrefl _ hlt

/-- Who comes first has the smaller path, -/
theorem lt_of_lt (h : Placed ss) {i j : Nat} {r s : Stub} (hi : ss[i]? = some r)
    (hj : ss[j]? = some s) (hij : i < j) : r.1 < s.1 := by
  obtain ⟨hil, rfl⟩ := List.getElem?_eq_some_iff.1 hi
  obtain ⟨hjl, rfl⟩ := List.getElem?_eq_some_iff.1 hj
  exact List.pairwise_iff_getElem.1 h.ordered i j hil hjl hij

/-- and who has the smaller path comes first. -/
theorem index_lt_of_lt (h : Placed ss) {i j : Nat} {r s : Stub} (hi : ss[i]? = some r)
    (hj : ss[j]? = some s) (hrs : r.1 < s.1) : i < j := by
  rcases Nat.lt_trichotomy i j with hij | rfl | hji
  · exact hij
  · rw [hi] at hj
    cases hj
    exact absurd hrs (List.lt_irrefl _)
  · exact absurd hrs (List.lt_asymm (h.lt_of_lt hj hi hji))

theorem mem_paths {i : Nat} {s : Stub} (hi : ss[i]? = some s) : s.1 ∈ ss.map (·.1) :=
  List.mem_map_of_mem (List.mem_of_getElem? hi)

/-- What is above a declaration is less deep: it is not above itself. -/
theorem depth_lt (h : Placed ss) {i j : Nat} {r s : Stub} (hi : ss[i]? = some r)
    (hj : ss[j]? = some s) (habove : Above r.1 s.1) : r.2.depth < s.2.depth := by
  rw [h.depth r (List.mem_of_getElem? hi), h.depth s (List.mem_of_getElem? hj)]
  refine countP_lt_of_mem (mem_paths hi) (decide_eq_true habove) ?_ fun x _ hx => ?_
  · rw [decide_eq_true_eq]
    exact not_above_self r.1
  · rw [decide_eq_true_eq] at hx ⊢
    exact hx.trans habove.1

/-- If what is above one declaration is above another or is this other, it lies at most one level
deeper. -/
theorem depth_le (h : Placed ss) {i j : Nat} {r s : Stub} (hi : ss[i]? = some r)
    (hj : ss[j]? = some s) (habove : ∀ x ∈ ss, Above x.1 s.1 → Above x.1 r.1 ∨ x.1 = r.1) :
    s.2.depth ≤ r.2.depth + 1 := by
  rw [h.depth r (List.mem_of_getElem? hi), h.depth s (List.mem_of_getElem? hj)]
  refine countP_le_succ (a := r.1) h.nodup fun x hx hxs => ?_
  obtain ⟨y, hy, rfl⟩ := List.mem_map.1 hx
  rw [decide_eq_true_eq] at hxs ⊢
  exact habove y hy hxs

/-- What is above a declaration comes before it, and is above all that comes between. -/
theorem above_of_between (h : Placed ss) {i j k : Nat} {r s u : Stub} (hi : ss[i]? = some r)
    (hj : ss[j]? = some s) (hk : ss[k]? = some u) (habove : Above r.1 u.1) (hij : i < j)
    (hjk : j < k) : Above r.1 s.1 := by
  have hrs := h.lt_of_lt hi hj hij
  refine ⟨prefix_of_between habove.1 hrs (h.lt_of_lt hj hk hjk), fun heq => ?_⟩
  rw [heq] at hrs
  exact List.lt_irrefl _ hrs

/-- Every declaration but the first has a nearest one around it. -/
theorem exists_nearest (h : Placed ss) {i : Nat} {s : Stub} (hi : ss[i]? = some s)
    (hpos : 0 < i) : ∃ p, Nearest ss i p := by
  obtain ⟨e, hroot⟩ := h.root
  have hne : s.1 ≠ [] := by
    intro hnil
    have hlt := h.lt_of_lt hroot hi hpos
    rw [hnil] at hlt
    exact List.not_lt_nil _ hlt
  -- The root is around every other declaration, so there is something to choose from.
  have hnil : ([] : List Nat) ∈ (ss.map (·.1)).filter (Above · s.1) :=
    List.mem_filter.2 ⟨mem_paths hroot, decide_eq_true (Above.nil hne)⟩
  obtain ⟨m, hm, hlongest⟩ := exists_longest (List.ne_nil_of_mem hnil) fun a ha =>
    (of_decide_eq_true (List.mem_filter.1 ha).2).1
  obtain ⟨hmem, habove⟩ := List.mem_filter.1 hm
  obtain ⟨r, hr, rfl⟩ := List.mem_map.1 hmem
  obtain ⟨p, hp⟩ := List.mem_iff_getElem?.1 hr
  refine ⟨p, ⟨r, s, hp, hi, of_decide_eq_true habove, fun x hx hxs => ?_⟩⟩
  exact hlongest x.1 (List.mem_filter.2 ⟨List.mem_map_of_mem hx, decide_eq_true hxs⟩)

/-- The nearest declaration around another is the last one before it that lies one level higher. -/
theorem belongs_of_nearest (h : Placed ss) {i p : Nat} (hp : Nearest ss i p) :
    Belongs (ss.map (·.2)) i p := by
  obtain ⟨r, s, hr, hs, habove, hnearest⟩ := hp.above
  -- The nearest declaration is the only one around `s` that is not around it as well, so the two
  -- are one level apart; and all that comes between them lies below it.
  have hlt := h.depth_lt hr hs habove
  have hle := h.depth_le hr hs fun x hx hxs => by
    by_cases heq : x.1 = r.1
    · exact .inr heq
    · exact .inl ⟨hnearest x hx hxs, heq⟩
  have hdepth : r.2.depth + 1 = s.2.depth := by omega
  refine ⟨h.index_lt_of_lt hr hs habove.lt, ⟨r.2, s.2, ?_, ?_, hdepth⟩, ?_⟩
  · rw [List.getElem?_map, hr, Option.map_some]
  · rw [List.getElem?_map, hs, Option.map_some]
  -- what comes between is below the nearest one and so deeper than it
  · intro j x e hpj hji hx he
    rw [List.getElem?_map] at hx he
    obtain ⟨u, hu, rfl⟩ := Option.map_eq_some_iff.1 hx
    rw [hs] at he
    obtain rfl : s.2 = e := Option.some.inj he
    have := h.depth_lt hr hu (h.above_of_between hr hu hs habove hpj hji)
    omega

/-- Who belongs to whom by depths is a matter of nearest ancestors. -/
theorem belongs_iff (h : Placed ss) (i p : Nat) :
    Belongs (ss.map (·.2)) i p ↔ Nearest ss i p := by
  refine ⟨fun hp => ?_, h.belongs_of_nearest⟩
  obtain ⟨_, e, -, he, -⟩ := hp.above
  rw [List.getElem?_map] at he
  obtain ⟨s, hs, -⟩ := Option.map_eq_some_iff.1 he
  obtain ⟨q, hq⟩ := h.exists_nearest hs (Nat.lt_of_le_of_lt (Nat.zero_le p) hp.before)
  rwa [hp.unique (h.belongs_of_nearest hq)]

/-- The depths nest: the first is 0, and every other is at least 1 and at most one more than the
one before it. -/
theorem nests (h : Placed ss) : ss ≠ [] ∧ (∀ s, ss[0]? = some s → s.2.depth = 0) ∧
    ∀ i r s, ss[i]? = some r → ss[i + 1]? = some s →
      1 ≤ s.2.depth ∧ s.2.depth ≤ r.2.depth + 1 := by
  obtain ⟨e, hroot⟩ := h.root
  refine ⟨?_, fun s hs => ?_, fun i r s hr hs => ⟨?_, ?_⟩⟩
  · rintro rfl
    cases hroot
  · rw [hroot] at hs
    cases hs
    rw [h.depth _ (List.mem_of_getElem? hroot)]
    exact countP_above_eq_zero fun r _ hr => List.not_lt_nil _ hr.lt
  · obtain ⟨p, hp⟩ := h.exists_nearest hs (Nat.succ_pos i)
    obtain ⟨u, s', hu, hs', habove, -⟩ := hp.above
    rw [hs] at hs'
    cases hs'
    exact Nat.lt_of_le_of_lt (Nat.zero_le _) (h.depth_lt hu hs habove)
  · -- Whatever is around `s` comes before it, and so is around the entry just before, or is it.
    refine h.depth_le hr hs fun x hx hxs => ?_
    obtain ⟨j, hj⟩ := List.mem_iff_getElem?.1 hx
    have hji := h.index_lt_of_lt hj hs hxs.lt
    rcases Nat.eq_or_lt_of_le (Nat.le_of_lt_succ hji) with rfl | hji
    · rw [hj] at hr
      cases hr
      exact .inr rfl
    · exact .inl (h.above_of_between hj hr hs hxs hji (Nat.lt_succ_self i))

/-- Nothing can be wrong with an entry of such a list but its payload. -/
theorem faultAt?_eq (h : Placed ss) (i : Nat) : Entry.faultAt? (ss.map (·.2)) i =
    (ss.map (·.2))[i]?.bind fun e => e.payload.fault?.map .malformedPayload := by
  obtain ⟨-, hfirst, hlater⟩ := h.nests
  rw [Entry.faultAt?, List.getElem?_map]
  cases hs : ss[i]? with
  | none => rfl
  | some s =>
      -- the first entry is no matter of nesting, and every other one is as deep as it may be
      have hnesting : Entry.nestingFault? ((ss.map (·.2)).take i) s.2.depth = none := by
        cases i with
        | zero => exact Entry.nestingFault?_nil.2 (hfirst s hs)
        | succ i =>
            have hlt := (List.getElem?_eq_some_iff.1 hs).1
            have hr : ss[i]? = some ss[i] := List.getElem?_eq_getElem (Nat.lt_of_succ_lt hlt)
            refine (Entry.nestingFault?_take ?_).2 (hlater i _ s hr hs)
            rw [List.getElem?_map, hr, Option.map_some]
      rw [Option.map_some, Option.bind_some, Option.bind_some, Entry.faultBehind, hnesting,
        Option.none_or]

/-- Nothing can be wrong with such a list but a payload. -/
theorem fault_eq (h : Placed ss) {fault : BuildError} (hf : FirstFault (ss.map (·.2)) fault) :
    ∃ p, fault = .malformedPayload p := by
  rcases hf with ⟨hnil, -⟩ | ⟨i, hi, -⟩
  · exact absurd (List.map_eq_nil_iff.1 hnil) h.nests.1
  · rw [h.faultAt?_eq] at hi
    obtain ⟨e, -, hfault⟩ := Option.bind_eq_some_iff.1 hi
    obtain ⟨p, -, rfl⟩ := Option.map_eq_some_iff.1 hfault
    exact ⟨p, rfl⟩

end Placed

/-! ### The declarations of a file with their places

`stubs` is the recursion of the walk with paths. The inductions are over siblings, with one
hypothesis for the children of the first and one for the siblings behind it, so one induction serves
a whole tree. -/

namespace SyntaxNode

/-- The node that a path leads to. -/
def at? (n : SyntaxNode) : List Nat → Option SyntaxNode
  | [] => some n
  | i :: path => n.children[i]?.bind (·.at? path)

mutual

/-- Induction over siblings: what holds of the children of the first and of the siblings behind it
holds of all. -/
theorem siblings_induction {motive : List SyntaxNode → Prop} (nil : motive [])
    (cons : ∀ n ns, motive n.children → motive ns → motive (n :: ns)) : ∀ ns, motive ns
  | [] => nil
  | n :: ns => cons n ns (children_induction nil cons n) (siblings_induction nil cons ns)

theorem children_induction {motive : List SyntaxNode → Prop} (nil : motive [])
    (cons : ∀ n ns, motive n.children → motive ns → motive (n :: ns)) :
    ∀ n : SyntaxNode, motive n.children
  | .mk _ _ _ _ _ _ children => siblings_induction nil cons children

end

end SyntaxNode

namespace Language

mutual

/-- The declarations of the node that `path` leads to and of all below it, each with its path. -/
def stubs (l : Language) (source : Bytes) (scope : Scope) (parentKind : String)
    (path : List Nat) : SyntaxNode → List Stub
  | .mk field kind named start stop row children =>
    if named then
      match l.entry? ⟨.mk field kind named start stop row children, parentKind, source⟩ scope with
      | some e => (path, e) :: l.stubsAll source (scope.inside e) kind path 0 children
      | none => l.stubsAll source scope kind path 0 children
    else []

/-- The declarations of siblings and of all below them, each with its path: the first sibling is
child `i` of the node that `path` leads to. -/
def stubsAll (l : Language) (source : Bytes) (scope : Scope) (parentKind : String)
    (path : List Nat) (i : Nat) : List SyntaxNode → List Stub
  | [] => []
  | n :: ns => l.stubs source scope parentKind (path ++ [i]) n ++
      l.stubsAll source scope parentKind path (i + 1) ns

end

variable {l : Language} {source : Bytes}

/-- A node is a bare token, declares something, or declares nothing itself. -/
theorem stubs_cases (l : Language) (source : Bytes) (scope : Scope) (parentKind : String)
    (path : List Nat) (n : SyntaxNode) :
    (l.stubs source scope parentKind path n = [] ∧ l.gather source scope parentKind n = []) ∨
      (∃ e, n.named = true ∧ l.entry? ⟨n, parentKind, source⟩ scope = some e ∧
        l.stubs source scope parentKind path n =
          (path, e) :: l.stubsAll source (scope.inside e) n.kind path 0 n.children ∧
        l.gather source scope parentKind n =
          e :: l.gatherAll source (scope.inside e) n.kind n.children) ∨
      (l.stubs source scope parentKind path n = l.stubsAll source scope n.kind path 0 n.children ∧
        l.gather source scope parentKind n = l.gatherAll source scope n.kind n.children) := by
  obtain ⟨field, kind, named, start, stop, row, children⟩ := n
  cases named with
  | false => exact .inl ⟨rfl, rfl⟩
  | true =>
      refine .inr ?_
      rw [stubs, gather, if_pos rfl, if_pos rfl]
      cases l.entry? ⟨.mk field kind true start stop row children, parentKind, source⟩ scope with
      | some e => exact .inl ⟨e, rfl, rfl, rfl, rfl⟩
      | none => exact .inr ⟨rfl, rfl⟩

/-- Without the paths, the declarations are those that the walk gathers. -/
theorem stubsAll_entries (scope : Scope) (parentKind : String) (path : List Nat) (i : Nat)
    (ns : List SyntaxNode) : (l.stubsAll source scope parentKind path i ns).map (·.2) =
      l.gatherAll source scope parentKind ns := by
  induction ns using SyntaxNode.siblings_induction generalizing scope parentKind path i with
  | nil => rfl
  | cons n ns ihc ihs =>
      rw [stubsAll, gatherAll, List.map_append, ihs]
      congr 1
      rcases stubs_cases l source scope parentKind (path ++ [i]) n with
        ⟨hs, hg⟩ | ⟨e, -, -, hs, hg⟩ | ⟨hs, hg⟩
      · rw [hs, hg]
        rfl
      · rw [hs, hg, List.map_cons, ihc]
      · rw [hs, hg, ihc]

/-- The path of a declaration leads to a construct below, and the declaration is that construct's
own. -/
theorem stubsAll_path {scope : Scope} {parentKind : String} {path : List Nat} {i : Nat}
    {ns : List SyntaxNode} {s : Stub} (hs : s ∈ l.stubsAll source scope parentKind path i ns) :
    ∃ k rest n m, s.1 = path ++ (i + k) :: rest ∧ ns[k]? = some n ∧ n.at? rest = some m ∧
      m.named = true ∧ ∃ kind around, l.entry? ⟨m, kind, source⟩ around = some s.2 := by
  induction ns using SyntaxNode.siblings_induction generalizing scope parentKind path i with
  | nil => cases hs
  | cons n ns ihc ihs =>
      rw [stubsAll] at hs
      rcases List.mem_append.1 hs with hs | hs
      -- what a child lists lies one step further from the first sibling
      · have hbelow : ∀ {around : Scope},
            s ∈ l.stubsAll source around n.kind (path ++ [i]) 0 n.children →
            ∃ k rest n' m, s.1 = path ++ (i + k) :: rest ∧ (n :: ns)[k]? = some n' ∧
              n'.at? rest = some m ∧ m.named = true ∧
              ∃ kind around, l.entry? ⟨m, kind, source⟩ around = some s.2 := by
          intro around hs
          obtain ⟨k, rest, c, m, hpath, hc, hm, hnamed, hentry⟩ := ihc hs
          refine ⟨0, k :: rest, n, m, ?_, rfl, ?_, hnamed, hentry⟩
          · rw [hpath, Nat.zero_add, List.append_assoc]
            rfl
          · rw [SyntaxNode.at?, hc]
            exact hm
        rcases stubs_cases l source scope parentKind (path ++ [i]) n with
          ⟨hn, -⟩ | ⟨e, hnamed, he, hn, -⟩ | ⟨hn, -⟩
        · rw [hn] at hs
          cases hs
        · rw [hn] at hs
          rcases List.mem_cons.1 hs with rfl | hs
          · exact ⟨0, [], n, n, rfl, rfl, rfl, hnamed, parentKind, scope, he⟩
          · exact hbelow hs
        · rw [hn] at hs
          exact hbelow hs
      · obtain ⟨k, rest, n', m, hpath, hn', hm, hnamed, hentry⟩ := ihs hs
        refine ⟨k + 1, rest, n', m, ?_, hn', hm, hnamed, hentry⟩
        rw [hpath, Nat.add_assoc, Nat.add_comm 1 k]

/-- The paths of declarations below different children lead to different places. -/
theorem not_above_of_ne {path a b : List Nat} {i j : Nat} (h : i ≠ j) :
    ¬ Above (path ++ i :: a) (path ++ j :: b) := fun habove =>
  h (List.cons_prefix_cons.1 ((List.prefix_append_right_inj path).1 habove.1)).1

theorem above_append (path : List Nat) (i : Nat) (rest : List Nat) :
    Above path (path ++ i :: rest) :=
  ⟨List.prefix_append path _, fun heq => by
    have := congrArg List.length heq
    simp at this⟩

theorem stubs_path {scope : Scope} {parentKind : String} {path : List Nat} {i : Nat}
    {n : SyntaxNode} {s : Stub} (hs : s ∈ l.stubs source scope parentKind (path ++ [i]) n) :
    ∃ rest, s.1 = path ++ i :: rest := by
  have hone : s ∈ l.stubsAll source scope parentKind path i [n] := by
    rw [stubsAll, stubsAll, List.append_nil]
    exact hs
  obtain ⟨k, rest, m, -, hpath, hk, -⟩ := stubsAll_path hone
  cases k with
  | zero => exact ⟨rest, hpath⟩
  | succ k => cases hk

/-- Paths are met in document order. -/
theorem pairwise_stubsAll (scope : Scope) (parentKind : String) (path : List Nat) (i : Nat)
    (ns : List SyntaxNode) :
    (l.stubsAll source scope parentKind path i ns).Pairwise fun r s => r.1 < s.1 := by
  induction ns using SyntaxNode.siblings_induction generalizing scope parentKind path i with
  | nil => exact .nil
  | cons n ns ihc ihs =>
      rw [stubsAll]
      -- below one sibling by induction; across two by the step at which they part
      refine List.pairwise_append.2 ⟨?_, ihs _ _ _ _, fun r hr s hs => ?_⟩
      · rcases stubs_cases l source scope parentKind (path ++ [i]) n with
          ⟨hn, -⟩ | ⟨e, -, -, hn, -⟩ | ⟨hn, -⟩
        · rw [hn]
          exact .nil
        · rw [hn]
          refine List.pairwise_cons.2 ⟨fun s hs => ?_, ihc _ _ _ _⟩
          obtain ⟨k, rest, -, -, hpath, -⟩ := stubsAll_path hs
          rw [hpath]
          exact (above_append (path ++ [i]) (0 + k) rest).lt
        · rw [hn]
          exact ihc _ _ _ _
      · obtain ⟨a, ha⟩ := stubs_path hr
        obtain ⟨k, b, -, -, hb, -⟩ := stubsAll_path hs
        rw [ha, hb]
        exact List.append_left_lt (List.cons_lt_cons_iff.2 (.inl (by omega)))

/-- A declaration is as deep as its scope. -/
theorem entry?_depth {site : Site} {scope : Scope} {e : Entry}
    (h : l.entry? site scope = some e) : e.depth = scope.depth := by
  unfold entry? at h
  simp only [Option.bind_eq_bind, Option.bind_eq_some_iff, Option.pure_def, Option.some.injEq] at h
  obtain ⟨r, -, m, -, name, -, rfl⟩ := h
  rfl

/-- With one declaration around all others, the depths count it, too. -/
theorem depth_cons {path : List Nat} {e : Entry} {ss : List Stub} {d : Nat} (he : e.depth = d)
    (habove : ∀ r ∈ ss, Above path r.1)
    (hss : ∀ s ∈ ss, s.2.depth = d + 1 + (ss.map (·.1)).countP (Above · s.1)) {s : Stub}
    (hs : s ∈ (path, e) :: ss) :
    s.2.depth = d + (((path, e) :: ss).map (·.1)).countP (Above · s.1) := by
  rw [List.map_cons]
  -- for the one around the others nothing counts; for each of them it is one more
  rcases List.mem_cons.1 hs with rfl | hs
  · have hnone : (ss.map (·.1)).countP (Above · path) = 0 :=
      countP_above_eq_zero fun r hr h => List.lt_asymm h.lt (habove r hr).lt
    rw [List.countP_cons_of_neg (by rw [decide_eq_true_eq]; exact not_above_self path), hnone]
    exact he
  · rw [List.countP_cons_of_pos (p := fun x => decide (Above x s.1))
      (decide_eq_true (habove s hs)), hss s hs, Nat.add_assoc, Nat.add_comm 1]

/-- The depth of a declaration counts the declarations around it, beginning with the depth of the
scope. -/
theorem depth_stubsAll {scope : Scope} {parentKind : String} {path : List Nat} {i : Nat}
    {ns : List SyntaxNode} {s : Stub} (hs : s ∈ l.stubsAll source scope parentKind path i ns) :
    s.2.depth = scope.depth +
      ((l.stubsAll source scope parentKind path i ns).map (·.1)).countP (Above · s.1) := by
  induction ns using SyntaxNode.siblings_induction generalizing scope parentKind path i s with
  | nil => cases hs
  | cons n ns ihc ihs =>
      rw [stubsAll] at hs
      rw [stubsAll, List.map_append, List.countP_append]
      -- What is around `s` is below the same sibling, so the other siblings count nothing.
      rcases List.mem_append.1 hs with hs | hs
      · obtain ⟨a, ha⟩ := stubs_path hs
        have hothers : ((l.stubsAll source scope parentKind path (i + 1) ns).map (·.1)).countP
            (Above · s.1) = 0 := by
          refine countP_above_eq_zero fun r hr => ?_
          obtain ⟨k, b, -, -, hb, -⟩ := stubsAll_path hr
          rw [ha, hb]
          exact not_above_of_ne (by omega)
        rw [hothers, Nat.add_zero]
        rcases stubs_cases l source scope parentKind (path ++ [i]) n with
          ⟨hn, -⟩ | ⟨e, -, he, hn, -⟩ | ⟨hn, -⟩
        · rw [hn] at hs
          cases hs
        · rw [hn] at hs ⊢
          refine depth_cons (entry?_depth he) (fun r hr => ?_) (fun r hr => ihc hr) hs
          obtain ⟨k, rest, -, -, hpath, -⟩ := stubsAll_path hr
          rw [hpath]
          exact above_append _ _ _
        · rw [hn] at hs ⊢
          exact ihc hs
      · obtain ⟨k, b, -, -, hb, -⟩ := stubsAll_path hs
        have hothers : ((l.stubs source scope parentKind (path ++ [i]) n).map (·.1)).countP
            (Above · s.1) = 0 := by
          refine countP_above_eq_zero fun r hr => ?_
          obtain ⟨a, ha⟩ := stubs_path hr
          rw [ha, hb]
          exact not_above_of_ne (by omega)
        rw [hothers, Nat.zero_add]
        exact ihs hs

/-! ### The tree of a file

Now the list is put together: the file at the root, and all that the recursion lists below it. Of
such a list the middle part says what belongs to what, and building a tree follows the same
depths. -/

/-- The declarations of a file with their places: the file itself stands for the root. -/
def placed (l : Language) (fileName : String) (source : Bytes) (t : SyntaxTree) : List Stub :=
  ([], l.fileEntry fileName t.hasError) ::
    l.stubsAll source .file t.root.kind [] 0 t.root.children

theorem placed_entries (l : Language) (fileName : String) (source : Bytes) (t : SyntaxTree) :
    (l.placed fileName source t).map (·.2) = l.listing fileName source t := by
  rw [placed, List.map_cons, stubsAll_entries, listing_eq]

theorem above_of_mem_stubsAll {scope : Scope} {parentKind : String} {ns : List SyntaxNode}
    {s : Stub} (hs : s ∈ l.stubsAll source scope parentKind [] 0 ns) : Above [] s.1 := by
  obtain ⟨k, rest, -, -, hpath, -⟩ := stubsAll_path hs
  rw [hpath]
  exact Above.nil (List.cons_ne_nil _ _)

theorem placed_spec (l : Language) (fileName : String) (source : Bytes) (t : SyntaxTree) :
    Placed (l.placed fileName source t) where
  root := ⟨_, rfl⟩
  ordered := List.pairwise_cons.2
    ⟨fun s hs => (above_of_mem_stubsAll hs).lt, pairwise_stubsAll _ _ _ _ _⟩
  depth s hs := by
    have := depth_cons (d := 0) rfl (fun r hr => above_of_mem_stubsAll hr)
      (fun r hr => depth_stubsAll hr) hs
    rwa [Nat.zero_add] at this

/-- **The walk means its recursion.** The loop comes to an end, the frames stay in step with the
cursor all along and the last of them stays, and what is met is the file with what the recursion
gathers below the root. Every node declares at most one thing; a declaration is as deep as there are
declarations around it, the file counted; so a listing can only be refused for a payload, and in the
tree that is made of it every declaration belongs to the nearest one around it. -/
theorem walk_meaning (l : Language) (fileName : String) (source : Bytes) (t : SyntaxTree) :
    let walkers := fun k : Nat => (Walker.step l source)^[k] (l.atStart fileName t)
    let es := l.listing fileName source t
    let below := l.stubsAll source .file t.root.kind [] 0 t.root.children
    let all := ([], l.fileEntry fileName t.hasError) :: below
    (∃ k, (walkers k).place = none ∧ (walkers k).met.toList = es) ∧
      (∀ k, (walkers k).Sound ∧ (walkers k).frames.getLast? = some .file) ∧
      es = l.fileEntry fileName t.hasError ::
        l.gatherAll source .file t.root.kind t.root.children ∧
      es = all.map (·.2) ∧
      (all.map (·.1)).Nodup ∧
      (∀ s ∈ below, ∃ n, t.root.at? s.1 = some n ∧ n.named = true ∧
        ∃ kind around, l.entry? ⟨n, kind, source⟩ around = some s.2) ∧
      (∀ s ∈ below, s.2.depth = 1 + (below.map (·.1)).countP (Above · s.1)) ∧
      (∀ fault, Tree.ofEntries es = .error fault → ∃ p, fault = .malformedPayload p) ∧
      ∀ tree, Tree.ofEntries es = .ok tree → ∀ i p, tree.parent? i = some p ↔ Nearest all i p := by
  intro walkers es below all
  have hstart := Walker.sound_atStart l fileName t
  have hentries : all.map (·.2) = es := l.placed_entries fileName source t
  have hplaced : Placed all := l.placed_spec fileName source t
  refine ⟨?_, fun k => ⟨hstart.iterate k, (hstart.iterate k).bottom⟩,
    l.listing_eq fileName source t, hentries.symm, hplaced.nodup, fun s hs => ?_,
    fun s hs => depth_stubsAll hs, fun fault hfault => ?_, fun tree htree i p => ?_⟩
  · obtain ⟨k, hplace, hmet, -⟩ := @Walker.Sound.exists_iterate l source _ hstart
    exact ⟨k, hplace, by rw [hmet]; rfl⟩
  · obtain ⟨k, rest, n, m, hpath, hn, hm, hnamed, hentry⟩ := stubsAll_path hs
    refine ⟨m, ?_, hnamed, hentry⟩
    rw [hpath, Nat.zero_add, List.nil_append, SyntaxNode.at?, hn]
    exact hm
  -- if building fails, then at the first fault, and that can only be a payload
  · rcases ofEntries_cases es with ⟨-, s, hs, -⟩ | ⟨other, hother, hfirst⟩
    · rw [hs] at hfault
      cases hfault
    · rw [hfault] at hother
      cases hother
      exact hplaced.fault_eq (hentries ▸ hfirst)
  · rw [(describes_of_ofEntries htree).parent i p, ← hentries, hplaced.belongs_iff i p]

/-- A method stands below a body that declares nothing, and belongs to the class around it. -/
theorem walk_meaning_method :
    let name (start stop : Nat) : SyntaxNode :=
      .mk (some "name") "identifier" true start stop 0 []
    let root : SyntaxNode := .mk none "module" true 0 22 0
      [.mk none "class_definition" true 0 22 0 [.mk none "class" false 0 5 0 [], name 6 7,
        .mk (some "body") "block" true 9 22 0
          [.mk none "function_definition" true 9 22 0 [name 13 14]]]]
    let es := Python.language.listing "a.py" "class A: def m(): pass".toUTF8.toList ⟨root, false⟩
    ∃ tree, Tree.ofEntries es = .ok tree ∧ tree.parent? 2 = some 1 := by
  intro name root es
  obtain ⟨-, -, -, hes, -, -, -, -, hparent⟩ := walk_meaning Python.language "a.py"
    "class A: def m(): pass".toUTF8.toList ⟨root, false⟩
  generalize hss : _ :: _ = ss at hes hparent
  have hpaths : ss.map (·.1) = [[], [0], [0, 2, 0]] := by
    rw [← hss]
    decide +kernel
  have hnested : Nested (ss.map (·.2)) := by
    rw [← hss]
    exact nested_iff.2 ⟨List.cons_ne_nil _ _, by unfold Faultless; decide +kernel⟩
  have hat : ∀ {i : Nat} {path : List Nat}, [[], [0], [0, 2, 0]][i]? = some path →
      ∃ s, ss[i]? = some s ∧ s.1 = path := by
    intro i path hi
    rw [← hpaths, List.getElem?_map] at hi
    exact Option.map_eq_some_iff.1 hi
  rcases ofEntries_cases es with ⟨-, tree, htree, -⟩ | ⟨fault, -, hfault⟩
  · obtain ⟨r, hr, hrpath⟩ := @hat 1 [0] rfl
    obtain ⟨s, hs, hspath⟩ := @hat 2 [0, 2, 0] rfl
    refine ⟨tree, htree, (hparent tree htree 2 1).2 ⟨r, s, hr, hs, ?_, fun x hx hxs => ?_⟩⟩
    · rw [hrpath, hspath]
      decide
    · have hmem : x.1 ∈ ss.map (·.1) := List.mem_map_of_mem hx
      rw [hpaths] at hmem
      rw [hspath] at hxs
      rw [hrpath]
      generalize x.1 = path at hmem hxs
      revert path
      decide
  · refine absurd ?_ hfault.not_nested
    show Nested (Python.language.listing _ _ _)
    rw [hes]
    exact hnested

end Language

end Outline
