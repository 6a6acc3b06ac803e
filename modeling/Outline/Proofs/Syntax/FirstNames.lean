import Outline.Proofs.Search.Exactness
import Outline.Proofs.Syntax.Reached

/-!
# Outline.Proofs.Syntax.FirstNames

**A declaration is found by its first name.** Some constructs declare several names at once, each in
a part of its own (`Several`). Such a construct has one entry, for the first of these parts
(`Several.Exact`): it stands at the path of the construct, and a search for its name finds it. Under
the other names nothing is found.
-/

namespace Outline

/-! ### Constructs that declare several names

### Constructs that declare several names

There are five such constructs in three languages. They are told by their kind and by the field that
their parts fill, so one definition does for all of them, and one statement (`Several.Exact`) is
proved for each. In Python an import may be known by another name, which is why the name of a part
is part of the table. -/

/-- A construct of a language that may declare several names. -/
structure Several where
  language : Language
  construct : String
  /-- The field that each part with a name fills. -/
  part : String
  /-- The name that a part declares. -/
  name : Bytes → SyntaxNode → Option String

/-- The name under which Python knows what it imports: for an import under another name the path,
if that can be read. -/
def Python.importedName (source : Bytes) (imported : SyntaxNode) : Option String :=
  (imported.text? source).map fun own =>
    if imported.kind == "aliased_import" then
      ((imported.child? "name").bind (·.text? source)).getD own
    else own

namespace Several

/-- The constructs that may declare several names. -/
def all : List Several := [
  ⟨Java.language, "field_declaration", "declarator",
    fun source c => (c.child? "name").bind (·.text? source)⟩,
  ⟨Java.language, "constant_declaration", "declarator",
    fun source c => (c.child? "name").bind (·.text? source)⟩,
  ⟨Go.language, "const_spec", "name", fun source c => c.text? source⟩,
  ⟨Go.language, "field_declaration", "name", fun source c => c.text? source⟩,
  ⟨Python.language, "import_statement", "name", Python.importedName⟩]

/-- The parts of a construct that declare its names. -/
def parts (x : Several) (n : SyntaxNode) : List SyntaxNode :=
  n.children.filter (·.field == some x.part)

/-- The names that a construct declares. -/
def names (x : Several) (source : Bytes) (n : SyntaxNode) : List String :=
  (x.parts n).filterMap (x.name source)

/-- The name that the first part declares. -/
def firstName? (x : Several) (source : Bytes) (n : SyntaxNode) : Option String :=
  (n.child? x.part).bind (x.name source)

/-- Where every part declares a name, the first part declares the first name. -/
theorem firstName?_eq_head? {x : Several} {source : Bytes} {n : SyntaxNode}
    (h : ∀ c ∈ x.parts n, (x.name source c).isSome) :
    x.firstName? source n = (x.names source n).head? := by
  rw [firstName?, names, SyntaxNode.child?, ← List.head?_filter]
  change ((x.parts n).head?).bind _ = _
  cases hparts : x.parts n with
  | nil => rfl
  | cons c cs =>
      obtain ⟨v, hv⟩ := Option.isSome_iff_exists.1 (h c (hparts ▸ List.mem_cons_self))
      rw [List.head?_cons, Option.bind_some, List.filterMap_cons_some hv, List.head?_cons, hv]

/-- The entry of such a construct has the name that is declared first, wherever it stands. -/
def Exact (x : Several) : Prop :=
  ∀ (source : Bytes) (n : SyntaxNode) (parentKind : String) (scope : Scope),
    n.kind = x.construct →
    (Option.map (·.payload.name) <| x.language.entry? ⟨n, parentKind, source⟩ scope) =
      x.firstName? source n

end Several

/-- The name of an entry is what the language makes of the name that the rule gives. -/
theorem Language.map_name_entry? (l : Language) (site : Site) (scope : Scope) :
    (Option.map (·.payload.name) <| l.entry? site scope) =
      (l.rule? site.node.kind).bind fun r =>
        ((r.name.resolve? site.node).bind (·.text? site.source)).map fun name =>
          (l.amend site (draft r name site.node.row scope)).payload.name := by
  unfold entry?
  cases l.rule? site.node.kind with
  | none => rfl
  | some r =>
      simp only [Option.bind_eq_bind, Option.bind_some]
      cases r.name.resolve? site.node with
      | none => rfl
      | some part =>
          simp only [Option.bind_some]
          cases part.text? site.source <;> rfl

/-- What a rule names stays its name where the language amends none. -/
theorem Language.map_name_entry?_of_kept {l : Language} {site : Site}
    (hkept : ∀ d, (l.amend site d).payload.name = d.payload.name) (scope : Scope) :
    (Option.map (·.payload.name) <| l.entry? site scope) = (l.rule? site.node.kind).bind fun r =>
      (r.name.resolve? site.node).bind (·.text? site.source) := by
  rw [l.map_name_entry?]
  simp only [hkept, name_draft, Option.map_id']

/-- In Java the name stands in the first declarator, for fields and constants alike. -/
theorem Java.exact_declarator {construct : String} {k : Kind}
    (hrule : Java.language.rule? construct = some ⟨k, none, .fieldPath ["declarator", "name"]⟩)
    (hother : construct ≠ "import_declaration") :
    Several.Exact ⟨Java.language, construct, "declarator",
      fun source c => (c.child? "name").bind (·.text? source)⟩ := by
  rintro source n parentKind scope rfl
  have hkept : ∀ d, (Java.language.amend ⟨n, parentKind, source⟩ d).payload.name = d.payload.name :=
    fun d => (Java.name_amend _ d).trans (if_neg fun h => hother h.1)
  have hresolve : (NameSource.fieldPath ["declarator", "name"]).resolve? n =
      (n.child? "declarator").bind (·.child? "name") := by
    rw [NameSource.resolve?, List.foldlM_cons, Option.bind_eq_bind]
    refine congrArg _ (funext fun c => ?_)
    rw [List.foldlM_cons, Option.bind_eq_bind]
    exact Option.bind_fun_some _
  rw [Language.map_name_entry?_of_kept hkept, hrule, Option.bind_some]
  dsimp only
  rw [hresolve]
  exact Option.bind_assoc ..

/-- In Go the parts are the names themselves, and the first is taken. -/
theorem Go.exact_name {construct : String} {k : Kind}
    (hrule : Go.language.rule? construct = some ⟨k, none, .field "name"⟩) :
    Several.Exact ⟨Go.language, construct, "name", fun source c => c.text? source⟩ := by
  rintro source n parentKind scope rfl
  rw [Language.map_name_entry?_of_kept (Go.name_amend _), hrule]
  rfl

/-- In Python the first import is taken, with the name behind `as` if it has one. -/
theorem Python.exact_import :
    Several.Exact ⟨Python.language, "import_statement", "name", Python.importedName⟩ := by
  intro source n parentKind scope hkind
  have hamend : ∀ {imported : SyntaxNode}, n.child? "name" = some imported → ∀ d,
      (Python.language.amend ⟨n, parentKind, source⟩ d).payload.name =
        if imported.kind == "aliased_import" then
          ((imported.child? "name").bind (·.text? source)).getD d.payload.name
        else d.payload.name := by
    intro imported hname d
    show (Python.amend _ d).payload.name = _
    unfold Python.amend Python.amendImport
    simp only [hkind, hname]
    rw [name_markPrivate]
    split
    · rw [Draft.name_set?, Site.text?]
      cases (imported.child? "name").bind (·.text? source) <;> rfl
    · rfl
  rw [Language.map_name_entry?, show (Site.mk n parentKind source).node.kind = _ from hkind]
  show ((n.child? "name").bind (·.text? source)).map _ = (n.child? "name").bind _
  cases hname : n.child? "name" with
  | none => rfl
  | some imported =>
      refine congrArg (Option.map · _) (funext fun own => ?_)
      rw [hamend hname, Language.name_draft]

theorem Several.exact : ∀ x ∈ Several.all, x.Exact := by
  simp only [Several.all, List.forall_mem_cons]
  exact ⟨Java.exact_declarator rfl (by decide), Java.exact_declarator rfl (by decide),
    Go.exact_name rfl, Go.exact_name rfl, Python.exact_import, List.forall_mem_nil _⟩

/-! ### Searches for a name

### Searches for a name

That an entry has a name says little as long as nothing finds it. What a search answers is known
exactly (`hitsFor_search`), so it is enough that the node of the entry is accepted by the request:
every strategy matches a name with itself, and the kind is asked for or left open. -/

/-- Every strategy matches a name with itself. -/
theorem Strategy.matchesName_self (s : Strategy) (name : String) :
    s.matchesName name name = true := by
  have hprefix : name.toList.isPrefixOf name.toList = true := by
    rw [List.isPrefixOf_iff_prefix]
  cases s with
  | exact => exact beq_self_eq_true name
  | beginning => exact hprefix
  | anywhere =>
      show occursIn name.toList name.toList = true
      cases hname : name.toList with
      | nil => rfl
      | cons c cs =>
          rw [hname] at hprefix
          rw [occursIn, hprefix, Bool.true_or]

/-- A search over shards for different files finds each of their nodes by its name. -/
theorem Shard.exists_hit {shards : List Shard}
    (hfiles : shards.Pairwise fun a b => a.file.same b.file = false) {s : Shard} (hs : s ∈ shards)
    {i : NodeId} {n : Node} (hn : s.tree.node? i = some n) {rs : List Request} {r : Request}
    (hr : r ∈ rs) (htarget : r.target = n.payload.name)
    (hkind : r.kind = none ∨ r.kind = some n.kind) :
    ∃ h ∈ (search shards (Plan.ofRequests rs)).hitsFor r.identity,
      h.file = s.file ∧ h.node = i ∧ h.name = n.payload.name := by
  refine ⟨⟨s.file, i, n.kind, n.payload.name, n.payload.line?⟩, ?_, rfl, rfl, rfl⟩
  rw [hitsFor_search (Plan.nodup_requests_ofRequests rs) shards (Plan.mem_requests_ofRequests.2 hr),
    (snapshot_perm (Shard.apart_flatMap_hits hfiles r)).mem_iff, List.mem_flatMap]
  refine ⟨s, hs, Shard.mem_hits.2 ⟨i, n, hn, Request.accepts_iff.2 ⟨hkind, ?_⟩, rfl⟩⟩
  rw [htarget]
  exact r.strategy.matchesName_self _

/-- **A declaration is found by its first name.** A construct that may declare several names stands
somewhere below constructs. If a name can be read from its first part, then there is one entry for
the construct, it has this name, and over the tree of the file each search for the name finds it; if
not, there is none. Where every part declares a name, it is the first of them, so a construct loses
none if it declares only one. -/
theorem first_names_found {x : Several} (hx : x ∈ Several.all) (source : Bytes) (t : SyntaxTree)
    {path : List Nat} {n : SyntaxNode} (hpath : path ≠ []) (hn : t.root.reach? path = some n)
    (hkind : n.kind = x.construct) :
    let stubs := x.language.stubsAll source .file t.root.kind [] 0 t.root.children
    (x.firstName? source n = none → ∀ e, (path, e) ∉ stubs) ∧
      (∀ v, x.firstName? source n = some v → ∃ e, (∀ e', (path, e') ∈ stubs ↔ e' = e) ∧
        e.payload.name = v ∧
        ∀ fileName tree, Tree.ofEntries (x.language.listing fileName source t) = .ok tree →
          ∃ i, (x.language.placed fileName source t)[i]? = some (path, e) ∧
            ∀ shards : List Shard, (shards.Pairwise fun a b => a.file.same b.file = false) →
            ∀ file, ⟨file, tree⟩ ∈ shards → ∀ rs strategy kind, kind = none ∨ kind = some e.kind →
            ⟨v, strategy, kind⟩ ∈ rs →
            ∃ h ∈ (search shards (Plan.ofRequests rs)).hitsFor
              (Request.identity ⟨v, strategy, kind⟩), h.file = file ∧ h.node = i ∧ h.name = v) ∧
      ((∀ c ∈ x.parts n, (x.name source c).isSome) →
        x.firstName? source n = (x.names source n).head?) := by
  intro stubs
  -- The entries at the path are those that the language gives to the construct where it stands.
  obtain ⟨kind, around, hstubs⟩ := x.language.exists_scope_of_reach? hpath hn
  have hname := x.exact hx source n kind around hkind
  refine ⟨fun hnone e he => ?_, fun v hv => ?_, Several.firstName?_eq_head?⟩
  · rw [(hstubs e).1 he, hnone] at hname
    cases hname
  · rw [hv] at hname
    obtain ⟨e, hentry, hev⟩ := Option.map_eq_some_iff.1 hname
    refine ⟨e, fun e' => ?_, hev, fun fileName tree htree => ?_⟩
    · rw [hstubs, hentry, Option.some.injEq, eq_comm]
    · have hmem : (path, e) ∈ x.language.placed fileName source t :=
        List.mem_cons_of_mem _ ((hstubs e).2 hentry)
      -- Entry `i` of a file is node `i` of its tree, so the number of the entry is that of the hit.
      obtain ⟨i, hi⟩ := List.mem_iff_getElem?.1 hmem
      have hlisting : (x.language.listing fileName source t)[i]? = some e := by
        rw [← x.language.placed_entries, List.getElem?_map, hi, Option.map_some]
      obtain ⟨m, hm, hmkind, hpayload⟩ := (describes_of_ofEntries htree).node i e hlisting
      have hmname : m.payload.name = v := hpayload ▸ hev
      refine ⟨i, hi, fun shards hfiles file hs rs strategy kind hk hr => ?_⟩
      obtain ⟨h, hh, hfile, hnode, hhname⟩ := Shard.exists_hit hfiles hs hm hr hmname.symm
        (hmkind ▸ hk)
      exact ⟨h, hh, hfile, hnode, hhname.trans hmname⟩

/-- A search for the only field of a class. -/
theorem first_names_found_field :
    let source := "class A \x7b int a; \x7d\n".toUTF8.toList
    let token (kind : String) (start stop : Nat) : SyntaxNode := .mk none kind false start stop 0 []
    let name (start stop : Nat) : SyntaxNode :=
      .mk (some "name") "identifier" true start stop 0 []
    let field : SyntaxNode := .mk none "field_declaration" true 10 16 0
      [.mk (some "type") "integral_type" true 10 13 0 [token "int" 10 13],
        .mk (some "declarator") "variable_declarator" true 14 15 0 [name 14 15],
        token ";" 15 16]
    let t : SyntaxTree := ⟨.mk none "program" true 0 19 0
      [.mk none "class_declaration" true 0 18 0
        [token "class" 0 5, name 6 7,
          .mk (some "body") "class_body" true 8 18 0
            [token "\x7b" 8 9, field, token "\x7d" 17 18]]], false⟩
    let r : Request := ⟨"a", .exact, none⟩
    t.root.reach? [0, 2, 1] = some field ∧
      ∃ tree, Tree.ofEntries (Java.language.listing "A.java" source t) = .ok tree ∧
        ∃ h ∈ (search [⟨⟨"A.java"⟩, tree⟩] (Plan.ofRequests [r])).hitsFor r.identity,
          h.name = "a" := by
  intro source token name field t r
  have hreach : t.root.reach? [0, 2, 1] = some field := rfl
  have hnested : Nested (Java.language.listing "A.java" source t) := by
    rw [Language.listing_eq]
    exact nested_iff.2 ⟨List.cons_ne_nil _ _, by unfold Faultless; decide +kernel⟩
  obtain ⟨tree, htree⟩ := exists_tree_of_nested hnested
  obtain ⟨-, hfound, -⟩ := first_names_found (List.mem_cons_self : _ ∈ Several.all) source t
    (List.cons_ne_nil _ _) hreach rfl
  obtain ⟨e, -, -, hsearch⟩ := hfound "a" (by decide +kernel)
  obtain ⟨i, -, hhits⟩ := hsearch "A.java" tree htree
  obtain ⟨h, hh, -, -, hname⟩ := hhits [⟨⟨"A.java"⟩, tree⟩] (List.pairwise_singleton _ _)
    ⟨"A.java"⟩ List.mem_cons_self [r] .exact none (.inl rfl) List.mem_cons_self
  exact ⟨hreach, tree, htree, h, hh, hname⟩

/-- Of two fields in one declaration, the second has no entry. -/
theorem second_name_not_found :
    let source := "class A \x7b int a, b; \x7d\n".toUTF8.toList
    let token (kind : String) (start stop : Nat) : SyntaxNode := .mk none kind false start stop 0 []
    let name (start stop : Nat) : SyntaxNode :=
      .mk (some "name") "identifier" true start stop 0 []
    let declarator (start stop : Nat) : SyntaxNode :=
      .mk (some "declarator") "variable_declarator" true start stop 0 [name start stop]
    let field : SyntaxNode := .mk none "field_declaration" true 10 19 0
      [.mk (some "type") "integral_type" true 10 13 0 [token "int" 10 13], declarator 14 15,
        token "," 15 16, declarator 17 18, token ";" 18 19]
    let t : SyntaxTree := ⟨.mk none "program" true 0 22 0
      [.mk none "class_declaration" true 0 21 0
        [token "class" 0 5, name 6 7,
          .mk (some "body") "class_body" true 8 21 0
            [token "\x7b" 8 9, field, token "\x7d" 20 21]]], false⟩
    t.root.reach? [0, 2, 1] = some field ∧
      (∃ x ∈ Several.all, x.language = Java.language ∧ field.kind = x.construct ∧
        x.names source field = ["a", "b"]) ∧
      (Java.language.listing "A.java" source t).map (·.payload.name) = ["A.java", "A", "a"] := by
  intro source token name declarator field t
  refine ⟨rfl, ⟨_, List.mem_cons_self, rfl, rfl, by decide +kernel⟩, ?_⟩
  rw [Language.listing_eq]
  decide +kernel

end Outline
