import Outline.Proofs.Syntax.Entries

/-!
# Outline.Proofs.Syntax.Reached

**The walk passes over no construct.** It comes to each node that a path leads to through constructs
alone (`SyntaxNode.reach?`), in some scope; so what stands at the path in the listing is what the
node declares in that scope, and nothing else (`Language.exists_scope_of_reach?`).

The listing is made in one pass and tells of a node only where it stands. The paths tell it back:
what stands at a path that begins with `k` comes from the child `k`, for the paths of two children
part at their first step (`mem_stubsAll_iff`). By this the induction along the path goes down the
tree.
-/

namespace Outline

/-- The node that a path leads to, if it leads through constructs only. -/
def SyntaxNode.reach? (n : SyntaxNode) : List Nat → Option SyntaxNode
  | [] => some n
  | i :: path => n.children[i]?.bind fun c => if c.named then c.reach? path else none

namespace SyntaxNode

/-- A path leads through a child that is a construct. -/
theorem reach?_cons_eq_some_iff {n m : SyntaxNode} {i : Nat} {path : List Nat} :
    n.reach? (i :: path) = some m ↔
      ∃ c, n.children[i]? = some c ∧ c.named = true ∧ c.reach? path = some m := by
  rw [reach?, Option.bind_eq_some_iff]
  refine exists_congr fun c => and_congr_right fun _ => ?_
  by_cases hc : c.named <;> simp [hc]

end SyntaxNode

namespace Language

variable {l : Language} {source : Bytes} {scope : Scope} {parentKind : String} {path : List Nat}

/-! ### Listings by paths

`stubs` lists a construct and what is below it, `stubsAll` the children of one from a position on. A
construct that declares something changes the scope of what is below it, so each lemma is for any
scope and the last of them only say that there is one. -/

/-- A construct that declares something comes first and is around what is below it. -/
theorem stubs_of_some {n : SyntaxNode} {e : Entry} (h : n.named = true)
    (he : l.entry? ⟨n, parentKind, source⟩ scope = some e) :
    l.stubs source scope parentKind path n =
      (path, e) :: l.stubsAll source (scope.inside e) n.kind path 0 n.children := by
  obtain ⟨⟩ := n
  obtain rfl := h
  rw [stubs, if_pos rfl, he]
  rfl

/-- One that declares nothing leaves the scope as it is. -/
theorem stubs_of_none {n : SyntaxNode} (h : n.named = true)
    (he : l.entry? ⟨n, parentKind, source⟩ scope = none) :
    l.stubs source scope parentKind path n = l.stubsAll source scope n.kind path 0 n.children := by
  obtain ⟨⟩ := n
  obtain rfl := h
  rw [stubs, if_pos rfl, he]
  rfl

/-- What stands at a path below some siblings is of the sibling that the path goes through. -/
theorem mem_stubsAll_iff {i k : Nat} {ns : List SyntaxNode} {rest : List Nat} {e : Entry} :
    (path ++ (i + k) :: rest, e) ∈ l.stubsAll source scope parentKind path i ns ↔
      ∃ c, ns[k]? = some c ∧
        (path ++ (i + k) :: rest, e) ∈ l.stubs source scope parentKind (path ++ [i + k]) c := by
  induction ns generalizing i k with
  | nil =>
      refine ⟨fun h => (List.not_mem_nil h).elim, ?_⟩
      rintro ⟨c, hc, -⟩
      cases hc
  | cons n ns ih =>
      rw [stubsAll, List.mem_append]
      cases k with
      | zero =>
          refine ⟨fun h => ⟨n, rfl, h.resolve_right fun hlater => ?_⟩, ?_⟩
          -- what later siblings list has another step there
          · obtain ⟨k, b, -, -, hb, -⟩ := stubsAll_path hlater
            have heq := List.append_cancel_left hb
            injection heq with hhead
            omega
          · rintro ⟨c, hc, h⟩
            cases hc
            exact .inl h
      | succ k =>
          have hk : i + (k + 1) = i + 1 + k := by omega
          rw [hk, ih, List.getElem?_cons_succ]
          -- what the first sibling lists has another step there
          refine or_iff_right fun hfirst => ?_
          obtain ⟨b, hb⟩ := stubs_path hfirst
          have heq := List.append_cancel_left hb
          injection heq with hhead
          omega

/-- The same for all children, from the first on. -/
theorem mem_stubsAll_of_child {k : Nat} {ns : List SyntaxNode} {c : SyntaxNode}
    (hc : ns[k]? = some c) {rest : List Nat} {e : Entry} :
    (path ++ k :: rest, e) ∈ l.stubsAll source scope parentKind path 0 ns ↔
      (path ++ k :: rest, e) ∈ l.stubs source scope parentKind (path ++ [k]) c := by
  have h : (path ++ (0 + k) :: rest, e) ∈ l.stubsAll source scope parentKind path 0 ns ↔ _ :=
    mem_stubsAll_iff
  rw [Nat.zero_add] at h
  rw [h, hc]
  simp only [Option.some.injEq, exists_eq_left']

/-- At the path of a construct stands what the construct declares. -/
theorem mem_stubs_self_iff {n : SyntaxNode} (h : n.named = true) {e : Entry} :
    (path, e) ∈ l.stubs source scope parentKind path n ↔
      l.entry? ⟨n, parentKind, source⟩ scope = some e := by
  have hbelow : ∀ around, (path, e) ∉ l.stubsAll source around n.kind path 0 n.children :=
    fun around hmem => by
      obtain ⟨k, rest, -, -, hpath, -⟩ := stubsAll_path hmem
      exact not_above_self _ (hpath ▸ above_append path (0 + k) rest)
  cases he : l.entry? ⟨n, parentKind, source⟩ scope with
  | none =>
      rw [stubs_of_none h he]
      exact ⟨fun hmem => absurd hmem (hbelow _), fun hnone => nomatch hnone⟩
  | some e' =>
      rw [stubs_of_some h he, List.mem_cons, Option.some.injEq, Prod.mk.injEq]
      exact ⟨fun hmem => (hmem.resolve_right (hbelow _)).2.symm, fun heq => .inl ⟨rfl, heq.symm⟩⟩

/-- Below the path of a construct stands what stands there below its children. -/
theorem exists_mem_stubs_iff {n : SyntaxNode} (h : n.named = true) (i : Nat) (rest : List Nat) :
    ∃ around, ∀ e, (path ++ i :: rest, e) ∈ l.stubs source scope parentKind path n ↔
      (path ++ i :: rest, e) ∈ l.stubsAll source around n.kind path 0 n.children := by
  cases he : l.entry? ⟨n, parentKind, source⟩ scope with
  | none => exact ⟨scope, fun e => by rw [stubs_of_none h he]⟩
  | some e' =>
      refine ⟨scope.inside e', fun e => ?_⟩
      rw [stubs_of_some h he, List.mem_cons]
      refine or_iff_right fun heq => not_above_self path ?_
      have hpath := (Prod.mk.inj heq).1
      have habove := above_append path i rest
      rwa [hpath] at habove

/-- The walk comes to what a path leads to through constructs. -/
theorem exists_scope_of_child {ns : List SyntaxNode} {k : Nat} {c m : SyntaxNode} {rest : List Nat}
    (hc : ns[k]? = some c) (hnamed : c.named = true) (hm : c.reach? rest = some m) :
    ∃ kind around, ∀ e, (path ++ k :: rest, e) ∈ l.stubsAll source scope parentKind path 0 ns ↔
      l.entry? ⟨m, kind, source⟩ around = some e := by
  induction rest generalizing scope parentKind path ns k c with
  | nil =>
      obtain rfl := Option.some.inj hm
      exact ⟨parentKind, scope, fun e =>
        (mem_stubsAll_of_child hc).trans (mem_stubs_self_iff hnamed)⟩
  -- one child further: the scope is that inside the construct, which `ih` leaves open
  | cons i rest ih =>
      obtain ⟨d, hd, hdnamed, hdm⟩ := SyntaxNode.reach?_cons_eq_some_iff.1 hm
      obtain ⟨inner, hinner⟩ := exists_mem_stubs_iff hnamed i rest
      obtain ⟨kind, around, haround⟩ := ih hd hdnamed hdm
      refine ⟨kind, around, fun e => ?_⟩
      rw [mem_stubsAll_of_child hc, show path ++ k :: i :: rest = path ++ [k] ++ i :: rest from
        List.append_cons path k (i :: rest)]
      exact (hinner e).trans (haround e)

/-- At a path through constructs a listing has what the construct declares there, in some scope. -/
theorem exists_scope_of_reach? {t : SyntaxTree} {m : SyntaxNode} {path : List Nat}
    (hpath : path ≠ []) (hm : t.root.reach? path = some m) :
    ∃ kind around, ∀ e,
      (path, e) ∈ l.stubsAll source .file t.root.kind [] 0 t.root.children ↔
        l.entry? ⟨m, kind, source⟩ around = some e := by
  obtain ⟨i, rest, rfl⟩ := List.exists_cons_of_ne_nil hpath
  obtain ⟨c, hc, hnamed, hm⟩ := SyntaxNode.reach?_cons_eq_some_iff.1 hm
  obtain ⟨kind, around, haround⟩ := exists_scope_of_child hc hnamed hm
  exact ⟨kind, around, fun e => by rw [← List.nil_append (i :: rest), haround]⟩

end Language

end Outline
