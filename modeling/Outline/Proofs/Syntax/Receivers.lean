import Outline.Proofs.Syntax.Named

/-!
# Outline.Proofs.Syntax.Receivers

**Methods and receivers follow nesting.** Whether a construct declares a method, and which receiver
the method has, depends on the scope alone (`Language.entry?_kind`,
`Language.entry?_receiver`): the languages that take receivers from there amend neither
(`Language.KeepsReceivers`). The scope of a construct is that of the nearest declaration around it
(`Language.around_stubsAll`), however many constructs without a declaration lie in between; and that
is its parent in the tree.

There are three steps. What an entry says is read off its scope, and for this the languages are gone
through (`Draft.Kept`). That the scope is the one of the nearest declaration around the construct is
an induction over the syntax tree that knows nothing of languages. Where the nearest declaration
stands in the tree of the file is known from the depths of the listing, which nest, so the last step
only puts the two together.
-/

namespace Outline

/-! ### Attributes

Attributes are kept sorted by their keys. To look one up after another was put in, the two keys are
all that counts; the order is not. -/

/-- What is found after an attribute was put in. By recursion over the sorted list: the new one
stands in front of a greater key, in place of the same key, or further behind. -/
theorem Attributes.find?_insertEntry (key value other : String) (es : List (String × String)) :
    (insertEntry key value es).find? (·.1 == other) =
      if key = other then some (key, value) else es.find? (·.1 == other) := by
  induction es with
  | nil => by_cases h : key = other <;> simp [insertEntry, h]
  | cons e es ih =>
      by_cases h : key = other
      · rw [if_pos h] at ih ⊢
        unfold insertEntry
        split
        · simp [h]
        · split
          · simp [h]
          · rename_i hne
            rw [List.find?_cons_of_neg (by simpa [← h] using Ne.symm hne), ih]
      · rw [if_neg h] at ih ⊢
        unfold insertEntry
        split
        · rw [List.find?_cons_of_neg (by simpa using h)]
        · split
          · rename_i heq
            rw [List.find?_cons_of_neg (by simpa using h),
              List.find?_cons_of_neg (by simpa [← heq] using h)]
          · rw [List.find?_cons, List.find?_cons, ih]

/-- An attribute that is set has its value, and every other one is as it was. -/
theorem Payload.attribute?_withAttribute (p : Payload) (key value other : String) :
    (p.withAttribute key value).attribute? other =
      if key = other then some value else p.attribute? other := by
  show ((Attributes.insertEntry key value p.attributes.entries).find? _).map _ = _
  rw [Attributes.find?_insertEntry]
  split <;> rfl

/-! ### What languages amend

Go is not among the languages here: it takes the receiver of a method from the method itself. In the
others the attribute is set by the rule alone, and a language that renames, marks or adds attributes
does so under other keys. The one change of kind is that of a Java field that is static and final.
-/

/-- What may become of a draft that is to say the same about methods: a field may become a constant,
and the receiver stays. -/
structure Draft.Kept (d e : Draft) : Prop where
  kind : e.kind = d.kind ∨ d.kind = .field ∧ e.kind = .constant
  receiver : e.payload.attribute? "receiver" = d.payload.attribute? "receiver"

namespace Draft.Kept

variable {d e : Draft}

/-- A draft that is left alone. -/
theorem refl (d : Draft) : d.Kept d := ⟨.inl rfl, rfl⟩

/-- Any attribute but the receiver may be set. -/
theorem set (h : d.Kept e) {key : String} (hkey : key ≠ "receiver") (value : String) :
    d.Kept (e.set key value) := by
  refine ⟨h.kind, ?_⟩
  rw [Draft.set, Payload.attribute?_withAttribute, if_neg hkey]
  exact h.receiver

theorem set? (h : d.Kept e) {key : String} (hkey : key ≠ "receiver") (value : Option String) :
    d.Kept (e.set? key value) := by
  cases value with
  | none => exact h
  | some v => exact h.set hkey v

/-- A language that chooses keeps the receiver on both sides. -/
theorem either {c : Prop} [Decidable c] {e' : Draft} (h : d.Kept e) (h' : d.Kept e') :
    d.Kept (if c then e else e') := by
  split
  · exact h
  · exact h'

/-- A new name does not touch the attributes. -/
theorem rename? (h : d.Kept e) (name : Option String) : d.Kept (e.rename? name) := by
  cases name with
  | none => exact h
  | some name => exact ⟨h.kind, h.receiver⟩

end Draft.Kept

/-- A language whose methods have the receivers that their scopes give them. -/
def Language.KeepsReceivers (l : Language) : Prop := ∀ (s : Site) (d : Draft), d.Kept (l.amend s d)

section

open Draft.Kept (refl either)

variable {s : Site} {d e : Draft}

theorem Java.kept_applyModifiers (modifiers : String) (d : Draft) :
    d.Kept (Java.applyModifiers modifiers d) := by
  unfold Java.applyModifiers
  dsimp only
  generalize Java.visibilities.find? _ = visibility
  have hvisible : d.Kept (d.set? "visibility" visibility) := (refl d).set? (by decide) visibility
  refine Draft.Kept.set ?_ (by decide) modifiers
  -- Static and final together make a constant of a field, and of nothing else.
  split
  · rename_i hfield
    have hkind : (d.set? "visibility" visibility).kind = d.kind := by cases visibility <;> rfl
    refine ⟨.inr ⟨?_, rfl⟩, hvisible.receiver⟩
    rw [Bool.and_eq_true, Bool.and_eq_true, beq_iff_eq, hkind] at hfield
    exact hfield.1.1
  · exact hvisible

/-- An import has no receiver, and gets none. -/
theorem Java.kept_amendImport (h : d.Kept e) : d.Kept (Java.amendImport s e) :=
  either ((either (h.rename? _) h).set (by decide) _) (either (h.rename? _) h)

theorem Java.keepsReceivers : Java.language.KeepsReceivers := by
  intro s d
  show d.Kept (Java.amend s d)
  unfold Java.amend
  dsimp only
  split
  · split
    · exact (kept_applyModifiers _ d).set? (by decide) _
    · exact (refl d).set? (by decide) _
  · split
    · exact kept_amendImport (kept_applyModifiers _ d)
    · exact kept_amendImport (refl d)
  · split
    · exact kept_applyModifiers _ d
    · exact refl d

theorem JavaScript.keepsReceivers : JavaScript.language.KeepsReceivers := by
  intro s d
  show d.Kept (JavaScript.amend s d)
  have hbase : d.Kept (if s.node.kind == "class_declaration" then
      d.set? "extends" (s.text? ((s.node.childOfKind? "class_heritage").bind (·.firstNamed?)))
    else d) :=
    either ((refl d).set? (by decide) _) (refl d)
  exact either (hbase.set (by decide) _) hbase

theorem Python.kept_markPrivate (h : d.Kept e) : d.Kept (Python.markPrivate e) :=
  either (h.set (by decide) _) h

theorem Python.keepsReceivers : Python.language.KeepsReceivers := by
  intro s d
  show d.Kept (Python.amend s d)
  unfold Python.amend
  split
  · exact kept_markPrivate ((refl d).set? (by decide) _)
  · split
    · exact kept_markPrivate (either (((refl d).rename? _).set? (by decide) _) (refl d))
    · exact refl d
  · exact kept_markPrivate (refl d)

theorem Rust.keepsReceivers : Rust.language.KeepsReceivers := by
  intro s d
  show d.Kept (Rust.amend s d)
  have hvisible : d.Kept (d.set? "visibility"
      (s.text? (s.node.childOfKind? "visibility_modifier"))) := (refl d).set? (by decide) _
  unfold Rust.amend
  dsimp only
  split
  · exact hvisible.set? (by decide) _
  · exact hvisible.set (by decide) _
  · split
    · exact either ((hvisible.rename? _).set? (by decide) _) hvisible
    · exact hvisible
  · exact hvisible

theorem TypeScript.keepsReceivers : TypeScript.language.KeepsReceivers := by
  intro s d
  show d.Kept (TypeScript.amend s d)
  have hvisible : d.Kept (d.set? "visibility"
      (s.text? (s.node.childOfKind? "accessibility_modifier"))) := (refl d).set? (by decide) _
  unfold TypeScript.amend
  refine either (Draft.Kept.set ?_ (by decide) _) ?_ <;>
    · split
      · exact hvisible.set? (by decide) _
      · exact hvisible.set? (by decide) _
      · exact hvisible

end

namespace Language

variable {l : Language} {source : Bytes}

/-- The languages whose methods have the receivers that their scopes give them. -/
def nesting : List Language :=
  [Rust.language, Python.language, Java.language, TypeScript.language, JavaScript.language]

theorem keepsReceivers : ∀ l ∈ nesting, l.KeepsReceivers := by
  simp only [nesting, List.forall_mem_cons]
  exact ⟨Rust.keepsReceivers, Python.keepsReceivers, Java.keepsReceivers, TypeScript.keepsReceivers,
    JavaScript.keepsReceivers, List.forall_mem_nil _⟩

/-- The languages where a function inside a type is a method, each with the constructs that declare
functions. -/
def functions : List (Language × List String) :=
  [(Rust.language, ["function_item", "function_signature_item"]),
    (Python.language, ["function_definition"])]

/-- A rule for a construct among the given ones makes a function, or a method inside a type; any
other rule makes neither. The tables of the languages are finite, so they are looked through. -/
theorem rules_functions : ∀ x ∈ functions, ∀ y ∈ x.1.rules,
    if y.1 ∈ x.2 then y.2.kind = .function ∧ y.2.nestedKind = some .method
    else y.2.nestedKind = none ∧ y.2.kind ≠ .function ∧ y.2.kind ≠ .method := by
  decide

/-- The kind of what a rule gives in a scope. -/
def kindIn (scope : Scope) (r : Rule) : Kind :=
  match r.nestedKind with
  | some nested => if scope.kind.isTypeLike then nested else r.kind
  | none => r.kind

/-- The receiver that a scope gives to a declaration: a method in a type belongs to the type. -/
def receiverIn (scope : Scope) (kind : Kind) : Option String :=
  if kind = .method ∧ scope.kind.isTypeLike ∧ scope.name ≠ "" then some scope.name else none

/-- What a rule gives depends on the scope in its kind and in its receiver. -/
theorem draft_spec (r : Rule) (name : String) (row : Nat) (scope : Scope) :
    (draft r name row scope).kind = kindIn scope r ∧
      (draft r name row scope).payload.attribute? "receiver" =
        receiverIn scope (kindIn scope r) := by
  have hnone : ((Payload.mk name .empty).withAttribute "line"
      (toString (row + 1))).attribute? "receiver" = none := by
    rw [Payload.attribute?_withAttribute, if_neg (by decide)]
    rfl
  have hguard : (kindIn scope r == .method && scope.kind.isTypeLike && !scope.name.isEmpty) = true ↔
      kindIn scope r = .method ∧ scope.kind.isTypeLike ∧ scope.name ≠ "" := by
    simp [and_assoc]
  -- The rule decides the kind first, and then, by this kind, whether there is a receiver.
  have hdraft : draft r name row scope =
      let d : Draft := ⟨kindIn scope r,
        (Payload.mk name .empty).withAttribute "line" (toString (row + 1))⟩
      if kindIn scope r == .method && scope.kind.isTypeLike && !scope.name.isEmpty then
        d.set "receiver" scope.name
      else d := rfl
  rw [hdraft]
  dsimp only
  by_cases h : kindIn scope r = .method ∧ scope.kind.isTypeLike ∧ scope.name ≠ ""
  · rw [if_pos (hguard.2 h), receiverIn, if_pos h, Draft.set, Payload.attribute?_withAttribute,
      if_pos rfl]
    exact ⟨rfl, rfl⟩
  · rw [if_neg fun h' => h (hguard.1 h'), receiverIn, if_neg h]
    exact ⟨rfl, hnone⟩

/-- What an entry is made from. -/
theorem entry?_from {site : Site} {scope : Scope} {e : Entry} (h : l.entry? site scope = some e) :
    ∃ r name d, l.rule? site.node.kind = some r ∧ d = draft r name site.node.row scope ∧
      e = ⟨(l.amend site d).kind, (l.amend site d).payload, scope.depth⟩ := by
  obtain ⟨r, hr, h⟩ := Option.bind_eq_some_iff.1 h
  obtain ⟨part, -, h⟩ := Option.bind_eq_some_iff.1 h
  obtain ⟨name, -, h⟩ := Option.bind_eq_some_iff.1 h
  exact ⟨r, name, _, hr, rfl, (Option.some.inj h).symm⟩

/-- The receiver of a declaration depends on its kind and its scope. -/
theorem entry?_receiver (hl : l.KeepsReceivers) {site : Site} {scope : Scope} {e : Entry}
    (h : l.entry? site scope = some e) :
    e.payload.attribute? "receiver" = receiverIn scope e.kind := by
  obtain ⟨r, name, d, -, rfl, rfl⟩ := entry?_from h
  obtain ⟨hdraft, hgiven⟩ := draft_spec r name site.node.row scope
  rw [← hdraft] at hgiven
  generalize draft r name site.node.row scope = d at hgiven
  obtain ⟨hkind, hreceiver⟩ := hl site d
  -- A field that becomes a constant has no receiver before nor after.
  have hsame : receiverIn scope (l.amend site d).kind = receiverIn scope d.kind := by
    rcases hkind with hkind | ⟨hfield, hconstant⟩
    · rw [hkind]
    · rw [hfield, hconstant]
      rfl
  show (l.amend site d).payload.attribute? "receiver" = _
  rw [hreceiver, hsame, hgiven]

/-- Of a type that is known to have a name, the scope gives the name. -/
theorem receiverIn_eq {around : Scope} {owner : Kind} {name : String} (hkind : around.kind = owner)
    (hname : owner.isTypeLike → around.name = name ∧ around.name ≠ "") (kind : Kind) :
    receiverIn around kind =
      if kind = .method ∧ owner.isTypeLike then some name else none := by
  rw [receiverIn, hkind]
  by_cases h : kind = .method ∧ owner.isTypeLike
  · obtain ⟨rfl, hne⟩ := hname h.2
    rw [if_pos ⟨h.1, h.2, hne⟩, if_pos h]
  · rw [if_neg h, if_neg fun h' => h ⟨h'.1, h'.2.1⟩]

/-- Which constructs declare methods and functions. -/
theorem entry?_kind (hl : l.KeepsReceivers) {constructs : List String}
    (hf : (l, constructs) ∈ functions) {site : Site} {scope : Scope} {e : Entry}
    (h : l.entry? site scope = some e) :
    if site.node.kind ∈ constructs then
      e.kind = if scope.kind.isTypeLike then .method else .function
    else e.kind ≠ .method ∧ e.kind ≠ .function := by
  obtain ⟨r, name, d, hr, hd, rfl⟩ := entry?_from h
  obtain ⟨⟨construct, r'⟩, hfind, rfl⟩ := Option.map_eq_some_iff.1 hr
  have hconstruct : construct = site.node.kind := by simpa using List.find?_some hfind
  have hrule := rules_functions _ hf _ (List.mem_of_find?_eq_some hfind)
  have hkind := (hl site d).kind
  have hdraft := (draft_spec r' name site.node.row scope).1
  rw [← hd, kindIn] at hdraft
  show if _ then (l.amend site d).kind = _
    else (l.amend site d).kind ≠ _ ∧ (l.amend site d).kind ≠ _
  rw [hconstruct] at hrule
  split
  -- A function construct: a rule with a kind for nested constructs, which the scope decides
  -- between.
  · rename_i hmem
    rw [if_pos hmem] at hrule
    have hnested : d.kind = if scope.kind.isTypeLike then .method else .function := by
      rw [hdraft, hrule.2, hrule.1]
    rw [← hnested]
    -- It is no field, so no language makes a constant of it.
    refine hkind.resolve_right fun hfield => ?_
    rw [hfield.1] at hnested
    split at hnested <;> cases hnested
  -- Any other construct: its rule has one kind for all scopes.
  · rename_i hmem
    rw [if_neg hmem] at hrule
    rw [hrule.1] at hdraft
    rcases hkind with hkind | ⟨-, hconstant⟩
    · rw [hkind, hdraft]
      exact hrule.2.symm
    · rw [hconstant]
      decide

end Language

/-! ### The scope of a construct

The walk hands a scope down, and changes it only at a declaration. So the scope that reaches a
construct is that of the last declaration passed on the way, or the one that the walk began with.
The latter case is kept apart (`Around.outer`): while the induction is inside a declaration, the
outer scope is the one of this declaration, and `Around.cons` turns it into the nearest one around.
-/

/-- Of some declarations, `r` is the nearest around the construct that a path leads to. -/
structure Innermost (ss : List Stub) (path : List Nat) (r : Stub) : Prop where
  mem : r ∈ ss
  above : Above r.1 path
  nearest : ∀ x ∈ ss, Above x.1 path → x.1 <+: r.1

/-- A scope says of what is around a construct what the nearest of some declarations says, or the
outer scope if none of them is around it. -/
inductive Around (ss : List Stub) (outer : Scope) (path : List Nat) (around : Scope) : Prop
  | outer (hnone : ∀ r ∈ ss, ¬ Above r.1 path) (hkind : around.kind = outer.kind)
    (hname : around.name = outer.name)
  | inside {r : Stub} (hr : Innermost ss path r) (hkind : around.kind = r.2.kind)
    (hname : around.name = r.2.payload.name)

namespace Around

variable {ss more : List Stub} {outer around : Scope} {path : List Nat}

/-- Declarations that are not around the construct do not matter. So what is known of one sibling
holds of all of them together. -/
theorem of_subset (h : Around ss outer path around) (hsub : ss ⊆ more)
    (hothers : ∀ r ∈ more, Above r.1 path → r ∈ ss) : Around more outer path around := by
  cases h with
  | outer hnone hkind hname =>
      exact .outer (fun r hr habove => hnone r (hothers r hr habove) habove) hkind hname
  | inside hr hkind hname =>
      exact .inside ⟨hsub hr.mem, hr.above,
        fun x hx habove => hr.nearest x (hothers x hx habove) habove⟩ hkind hname

/-- Inside a declaration that is around all others, its scope is the outer one. -/
theorem cons {p : List Nat} {e : Entry} (h : Around ss (outer.inside e) path around)
    (habove : Above p path) (hss : ∀ r ∈ ss, Above p r.1) :
    Around ((p, e) :: ss) outer path around := by
  cases h with
  -- None of the others is around the construct, so this one is the nearest.
  | outer hnone hkind hname =>
      refine .inside (r := (p, e)) ⟨List.mem_cons_self, habove, fun x hx hxpath => ?_⟩ hkind hname
      rcases List.mem_cons.1 hx with rfl | hx
      · exact List.prefix_rfl
      · exact absurd hxpath (hnone x hx)
  -- One of the others is, and it is nearer, for this one is around all others.
  | @inside r hr hkind hname =>
      refine .inside ⟨List.mem_cons_of_mem _ hr.mem, hr.above, fun x hx hxpath => ?_⟩ hkind hname
      rcases List.mem_cons.1 hx with rfl | hx
      · exact (hss r hr.mem).1
      · exact hr.nearest x hx hxpath

end Around

namespace Language

variable {l : Language} {source : Bytes}

/-- A declaration is made in the scope of the nearest declaration around its construct. The
induction is over the nodes and those in them, for any outer scope and any place in the tree. -/
theorem around_stubsAll {scope : Scope} {parentKind : String} {path : List Nat} {i : Nat}
    {ns : List SyntaxNode} {s : Stub} (hs : s ∈ l.stubsAll source scope parentKind path i ns) :
    ∃ k rest n m kind around, s.1 = path ++ (i + k) :: rest ∧ ns[k]? = some n ∧
      n.at? rest = some m ∧ l.entry? ⟨m, kind, source⟩ around = some s.2 ∧
      Around (l.stubsAll source scope parentKind path i ns) scope s.1 around := by
  induction ns using SyntaxNode.siblings_induction generalizing scope parentKind path i with
  | nil => cases hs
  | cons n ns ihc ihs =>
      rw [stubsAll] at hs ⊢
      rcases List.mem_append.1 hs with hs | hs
      · -- what is around `s` is below the same sibling
        obtain ⟨a, ha⟩ := stubs_path hs
        have hothers : ∀ r ∈ l.stubs source scope parentKind (path ++ [i]) n ++
            l.stubsAll source scope parentKind path (i + 1) ns, Above r.1 s.1 →
            r ∈ l.stubs source scope parentKind (path ++ [i]) n := by
          intro r hr habove
          refine (List.mem_append.1 hr).resolve_right fun hr => ?_
          obtain ⟨k, b, -, -, hb, -⟩ := stubsAll_path hr
          rw [ha, hb] at habove
          exact not_above_of_ne (by omega) habove
        -- If `s` is made by a node inside this one, the induction tells its scope, as seen from
        -- there.
        have hbelow : ∀ {outer : Scope},
            s ∈ l.stubsAll source outer n.kind (path ++ [i]) 0 n.children →
            ∃ rest m kind around, s.1 = path ++ i :: rest ∧ n.at? rest = some m ∧
              l.entry? ⟨m, kind, source⟩ around = some s.2 ∧
              Around (l.stubsAll source outer n.kind (path ++ [i]) 0 n.children) outer s.1
                around := by
          intro outer hs
          obtain ⟨k, rest, c, m, kind, around, hpath, hc, hm, hentry, haround⟩ := ihc hs
          refine ⟨k :: rest, m, kind, around, ?_, ?_, hentry, haround⟩
          · rw [hpath, Nat.zero_add, List.append_assoc]
            rfl
          · rw [SyntaxNode.at?, hc]
            exact hm
        -- What this means as seen from the node itself, which may declare something.
        have hhere : ∃ rest m kind around, s.1 = path ++ i :: rest ∧ n.at? rest = some m ∧
            l.entry? ⟨m, kind, source⟩ around = some s.2 ∧
            Around (l.stubs source scope parentKind (path ++ [i]) n) scope s.1 around := by
          rcases stubs_cases l source scope parentKind (path ++ [i]) n with
            ⟨hn, -⟩ | ⟨e, -, he, hn, -⟩ | ⟨hn, -⟩
          · rw [hn] at hs
            cases hs
          · rw [hn] at hs ⊢
            have habove : ∀ r ∈ l.stubsAll source (scope.inside e) n.kind (path ++ [i]) 0
                n.children, Above (path ++ [i]) r.1 := by
              intro r hr
              obtain ⟨k, rest, -, -, hpath, -⟩ := stubsAll_path hr
              rw [hpath]
              exact above_append _ _ _
            -- Either `s` is what the node itself declares, in the scope that it was given, or it is
            -- made inside, and then the declaration of the node is around it.
            rcases List.mem_cons.1 hs with rfl | hs
            · refine ⟨[], n, parentKind, scope, rfl, rfl, he, .outer (fun r hr hself => ?_) rfl rfl⟩
              rcases List.mem_cons.1 hr with rfl | hr
              · exact not_above_self _ hself
              · exact List.lt_asymm hself.lt (habove r hr).lt
            · obtain ⟨rest, m, kind, around, hpath, hm, hentry, haround⟩ := hbelow hs
              exact ⟨rest, m, kind, around, hpath, hm, hentry, haround.cons (habove s hs) habove⟩
          · rw [hn] at hs ⊢
            exact hbelow hs
        obtain ⟨rest, m, kind, around, hpath, hm, hentry, haround⟩ := hhere
        exact ⟨0, rest, n, m, kind, around, hpath, rfl, hm, hentry,
          haround.of_subset (List.subset_append_left _ _) hothers⟩
      -- A declaration of a later sibling; those of this node are not around it.
      · obtain ⟨k, rest, n', m, kind, around, hpath, hn', hm, hentry, haround⟩ := ihs hs
        refine ⟨k + 1, rest, n', m, kind, around, ?_, hn', hm, hentry,
          haround.of_subset (List.subset_append_right _ _) fun r hr habove => ?_⟩
        · rw [hpath, Nat.add_assoc, Nat.add_comm 1 k]
        · refine (List.mem_append.1 hr).resolve_left fun hr => ?_
          obtain ⟨a, ha⟩ := stubs_path hr
          rw [ha, hpath] at habove
          exact not_above_of_ne (by omega) habove

/-! ### The tree of a file

The first declaration is the file, which has the empty path and is therefore around everything. So a
declaration that has no other around it still has a nearest one, and the outer scope of the walk is
that of the file: no type, and without a name. -/

variable {fileName : String} {t : SyntaxTree}

/-- Every declaration but the file has a nearest one around it, which its scope tells of; if that is
a type, it has a name. -/
theorem placed_around (hl : l.Renames) {i : Nat} {s : Stub} (hpos : 0 < i)
    (hs : (l.placed fileName source t)[i]? = some s) :
    ∃ n kind around p r, t.root.at? s.1 = some n ∧
      l.entry? ⟨n, kind, source⟩ around = some s.2 ∧ Nearest (l.placed fileName source t) i p ∧
      (l.placed fileName source t)[p]? = some r ∧ around.kind = r.2.kind ∧
      (r.2.kind.isTypeLike → around.name = r.2.payload.name ∧ around.name ≠ "") := by
  have hmem : s ∈ l.stubsAll source .file t.root.kind [] 0 t.root.children := by
    obtain ⟨i, rfl⟩ := Nat.exists_eq_succ_of_ne_zero (Nat.ne_of_gt hpos)
    exact List.mem_of_getElem? hs
  obtain ⟨k, rest, n, m, kind, around, hpath, hn, hm, hentry, haround⟩ := around_stubsAll hmem
  have hat : t.root.at? s.1 = some m := by
    rw [hpath, Nat.zero_add, List.nil_append, SyntaxNode.at?, hn]
    exact hm
  cases haround with
  -- Nothing but the file is around it.
  | outer hnone hkind hname =>
      refine ⟨m, kind, around, 0, ([], l.fileEntry fileName t.hasError), hat, hentry,
        ⟨_, s, rfl, hs, above_of_mem_stubsAll hmem, fun x hx hxs => ?_⟩, rfl, hkind,
        fun h => absurd h Bool.false_ne_true⟩
      rcases List.mem_cons.1 hx with rfl | hx
      · exact List.prefix_rfl
      · exact absurd hxs (hnone x hx)
  -- What is nearest among the others is nearest among all, for the file is around it too. Its scope
  -- has its name, which is not empty.
  | @inside r hr hkind hname =>
      obtain ⟨p, hp⟩ := List.mem_iff_getElem?.1 hr.mem
      refine ⟨m, kind, around, p + 1, r, hat, hentry,
        ⟨r, s, hp, hs, hr.above, fun x hx hxs => ?_⟩, hp, hkind, fun _ => ⟨hname, ?_⟩⟩
      · rcases List.mem_cons.1 hx with rfl | hx
        · exact List.nil_prefix
        · exact hr.nearest x hx hxs
      · obtain ⟨-, -, -, o, -, -, -, -, kind', around', howner⟩ := stubsAll_path hr.mem
        rw [hname]
        exact ne_empty_of_entry? hl howner

/-- A node of the tree of a file is a declaration of the file. -/
theorem exists_node {tree : Tree} (h : Tree.ofEntries (l.listing fileName source t) = .ok tree)
    {i : NodeId} {s : Stub} (hs : (l.placed fileName source t)[i]? = some s) :
    ∃ n, tree.node? i = some n ∧ n.kind = s.2.kind ∧ n.payload = s.2.payload := by
  refine (describes_of_ofEntries h).node i s.2 ?_
  rw [← placed_entries, List.getElem?_map, hs, Option.map_some]

/-- And a declaration of the file is all that a node can be. -/
theorem exists_placed {tree : Tree} (h : Tree.ofEntries (l.listing fileName source t) = .ok tree)
    {i : NodeId} {n : Node} (hn : tree.node? i = some n) :
    ∃ s, (l.placed fileName source t)[i]? = some s ∧ n.kind = s.2.kind ∧
      n.payload = s.2.payload := by
  obtain ⟨e, he, hkind, hpayload⟩ := (describes_of_ofEntries h).exists_entry hn
  rw [← placed_entries, List.getElem?_map, Option.map_eq_some_iff] at he
  obtain ⟨s, hs, rfl⟩ := he
  exact ⟨s, hs, hkind, hpayload⟩

/-- In the tree of a file, the scope of a declaration tells of its parent. -/
theorem exists_parent (hl : l.Renames) {tree : Tree}
    (h : Tree.ofEntries (l.listing fileName source t) = .ok tree) {i : NodeId} {n : Node}
    (hn : tree.node? i = some n) (hpos : 0 < i) :
    ∃ p m site around e, tree.parent? i = some p ∧ tree.node? p = some m ∧
      l.entry? site around = some e ∧ n.kind = e.kind ∧ n.payload = e.payload ∧
      around.kind = m.kind ∧
      (m.kind.isTypeLike → around.name = m.payload.name ∧ around.name ≠ "") := by
  obtain ⟨s, hs, hkind, hpayload⟩ := exists_placed h hn
  obtain ⟨c, kind, around, p, r, -, hentry, hnearest, hr, haround, hname⟩ :=
    placed_around hl hpos hs
  obtain ⟨m, hm, hmkind, hmpayload⟩ := exists_node h hr
  -- The nearest declaration around is the parent, since the depths of the listing count those
  -- around.
  have hparent : tree.parent? i = some p := by
    rw [(describes_of_ofEntries h).parent i p, ← placed_entries, (placed_spec ..).belongs_iff]
    exact hnearest
  refine ⟨p, m, _, around, s.2, hparent, hm, hentry, hkind, hpayload, haround.trans hmkind.symm, ?_⟩
  rw [hmkind, hmpayload]
  exact hname

/-- The node of the file is no method and no function, and has no receiver. -/
theorem file_node {tree : Tree} (h : Tree.ofEntries (l.listing fileName source t) = .ok tree)
    {n : Node} (hn : tree.node? 0 = some n) :
    n.kind = .file ∧ n.payload.attribute? "receiver" = none := by
  obtain ⟨s, hs, hkind, hpayload⟩ := exists_placed h hn
  cases hs
  refine ⟨hkind, ?_⟩
  have hlanguage : ((Payload.mk fileName .empty).withAttribute "language"
      l.name).attribute? "receiver" = none := by
    rw [Payload.attribute?_withAttribute, if_neg (by decide)]
    rfl
  rw [hpayload]
  unfold fileEntry
  dsimp only
  split
  · rw [Payload.attribute?_withAttribute, if_neg (by decide)]
    exact hlanguage
  · exact hlanguage

/-- These languages give names to all declarations, so a type in a scope always has one. -/
theorem renames_nesting : ∀ l ∈ nesting, l.Renames := by
  simp only [nesting, List.forall_mem_cons]
  exact ⟨Rust.renames, Python.renames, Java.renames, TypeScript.renames, JavaScript.renames,
    List.forall_mem_nil _⟩

/-- Where functions in types are methods, receivers follow nesting too. -/
theorem mem_nesting_of_functions {constructs : List String} (h : (l, constructs) ∈ functions) :
    l ∈ nesting := by
  simp only [functions, List.mem_cons, Prod.mk.injEq, List.not_mem_nil, or_false] at h
  rcases h with ⟨rfl, -⟩ | ⟨rfl, -⟩
  · exact List.mem_cons_self
  · exact List.mem_cons_of_mem _ List.mem_cons_self

/-- In the tree of a file, a method is directly below a type, and a function never is. -/
theorem kind_below_parent {constructs : List String} (hf : (l, constructs) ∈ functions)
    {tree : Tree} (h : Tree.ofEntries (l.listing fileName source t) = .ok tree) {i : NodeId}
    {n : Node} (hn : tree.node? i = some n) :
    (n.kind = .method → ∃ p m, tree.parent? i = some p ∧ tree.node? p = some m ∧
      m.kind.isTypeLike) ∧
    (n.kind = .function → ∀ p m, tree.parent? i = some p → tree.node? p = some m →
      m.kind.isTypeLike = false) := by
  have hl := mem_nesting_of_functions hf
  rcases Nat.eq_zero_or_pos i with rfl | hpos
  · rw [(file_node h hn).1]
    exact ⟨nofun, nofun⟩
  -- Behind the file there is a parent, whose kind is that of the scope; so it decides the kind.
  · obtain ⟨p, m, site, around, e, hp, hm, hentry, hkind, -, haround, -⟩ :=
      exists_parent (renames_nesting l hl) h hn hpos
    have hcases := entry?_kind (keepsReceivers l hl) hf hentry
    rw [haround, ← hkind] at hcases
    split at hcases
    · cases htype : m.kind.isTypeLike with
      | true =>
          rw [htype, if_pos rfl] at hcases
          rw [hcases]
          exact ⟨fun _ => ⟨p, m, hp, hm, htype⟩, nofun⟩
      | false =>
          rw [htype, if_neg Bool.false_ne_true] at hcases
          rw [hcases]
          refine ⟨nofun, fun _ p' m' hp' hm' => ?_⟩
          obtain rfl := Option.some.inj (hp.symm.trans hp')
          exact Option.some.inj (hm.symm.trans hm') ▸ htype
    · exact ⟨fun h => absurd h hcases.1, fun h => absurd h hcases.2⟩

/-- In the tree of a file, the receiver of a declaration is the name of the type that it is a method
of. -/
theorem receiver_below_parent (hl : l ∈ nesting) {tree : Tree}
    (h : Tree.ofEntries (l.listing fileName source t) = .ok tree) {i : NodeId} {n : Node}
    (hn : tree.node? i = some n) (v : String) :
    n.payload.attribute? "receiver" = some v ↔ n.kind = .method ∧
      ∃ p m, tree.parent? i = some p ∧ tree.node? p = some m ∧ m.kind.isTypeLike ∧
        m.payload.name = v := by
  rcases Nat.eq_zero_or_pos i with rfl | hpos
  · obtain ⟨hkind, hreceiver⟩ := file_node h hn
    rw [hkind, hreceiver]
    exact ⟨nofun, nofun⟩
  · obtain ⟨p, m, site, around, e, hp, hm, hentry, hkind, hpayload, haround, hname⟩ :=
      exists_parent (renames_nesting l hl) h hn hpos
    rw [hpayload, entry?_receiver (keepsReceivers l hl) hentry, receiverIn_eq haround hname,
      ← hkind, Option.ite_none_right_eq_some, Option.some.injEq, and_assoc]
    refine and_congr_right fun _ => ⟨fun h => ⟨p, m, hp, hm, h⟩, ?_⟩
    rintro ⟨p', m', hp', hm', h⟩
    obtain rfl := Option.some.inj (hp.symm.trans hp')
    exact Option.some.inj (hm.symm.trans hm') ▸ h

/-- **Methods and receivers follow nesting.** The declarations of a file stand with their paths in
document order. In a language with nested functions, what a function construct declares is a method
exactly if the nearest declaration around it is a type, and nothing else is a method or a function;
so in a tree a method is always directly below a type, and a function never is. In a language with
receivers from nesting, a declaration has one exactly if it is a method directly below a type, and
then it is the name of the type. -/
theorem methods_follow_nesting (fileName : String) (source : Bytes) (t : SyntaxTree) :
    (∀ l : Language, (l.placed fileName source t).map (·.2) = l.listing fileName source t) ∧
      (∀ l constructs, (l, constructs) ∈ functions →
        (∀ i s, 0 < i → (l.placed fileName source t)[i]? = some s →
          ∃ n p r, t.root.at? s.1 = some n ∧ Nearest (l.placed fileName source t) i p ∧
            (l.placed fileName source t)[p]? = some r ∧
            if n.kind ∈ constructs then
              s.2.kind = if r.2.kind.isTypeLike then .method else .function
            else s.2.kind ≠ .method ∧ s.2.kind ≠ .function) ∧
        ∀ tree, Tree.ofEntries (l.listing fileName source t) = .ok tree →
          ∀ i n, tree.node? i = some n →
            (n.kind = .method → ∃ p m, tree.parent? i = some p ∧ tree.node? p = some m ∧
              m.kind.isTypeLike) ∧
            (n.kind = .function → ∀ p m, tree.parent? i = some p → tree.node? p = some m →
              m.kind.isTypeLike = false)) ∧
      ∀ l ∈ nesting,
        (∀ i s, 0 < i → (l.placed fileName source t)[i]? = some s →
          ∃ p r, Nearest (l.placed fileName source t) i p ∧
            (l.placed fileName source t)[p]? = some r ∧
            s.2.payload.attribute? "receiver" =
              if s.2.kind = .method ∧ r.2.kind.isTypeLike then some r.2.payload.name else none) ∧
        ∀ tree, Tree.ofEntries (l.listing fileName source t) = .ok tree →
          ∀ i n v, tree.node? i = some n →
            (n.payload.attribute? "receiver" = some v ↔ n.kind = .method ∧
              ∃ p m, tree.parent? i = some p ∧ tree.node? p = some m ∧ m.kind.isTypeLike ∧
                m.payload.name = v) := by
  refine ⟨fun l => l.placed_entries fileName source t,
    fun l constructs hf => ⟨?_, fun tree htree i n => kind_below_parent hf htree⟩,
    fun l hl => ⟨?_, fun tree htree i n v hn => receiver_below_parent hl htree hn v⟩⟩
  · intro i s hpos hs
    have hl := mem_nesting_of_functions hf
    obtain ⟨n, kind, around, p, r, hn, hentry, hnearest, hr, haround, -⟩ :=
      placed_around (renames_nesting l hl) hpos hs
    refine ⟨n, p, r, hn, hnearest, hr, ?_⟩
    rw [← haround]
    exact entry?_kind (keepsReceivers l hl) hf hentry
  · intro i s hpos hs
    obtain ⟨n, kind, around, p, r, -, hentry, hnearest, hr, haround, hname⟩ :=
      placed_around (renames_nesting l hl) hpos hs
    refine ⟨p, r, hnearest, hr, ?_⟩
    rw [entry?_receiver (keepsReceivers l hl) hentry, receiverIn_eq haround hname]

/-- A function stands below a condition in a class. Neither the condition nor the bodies declare
anything, so the function is a method of the class. -/
theorem methods_follow_nesting_block :
    let name (start stop : Nat) : SyntaxNode :=
      .mk (some "name") "identifier" true start stop 0 []
    let source := "class A: if x: def m(): pass".toUTF8.toList
    let root : SyntaxNode := .mk none "module" true 0 28 0
      [.mk none "class_definition" true 0 28 0 [.mk none "class" false 0 5 0 [], name 6 7,
        .mk (some "body") "block" true 9 28 0
          [.mk none "if_statement" true 9 28 0
            [.mk (some "condition") "identifier" true 12 13 0 [],
              .mk (some "consequence") "block" true 15 28 0
                [.mk none "function_definition" true 15 28 0 [name 19 20]]]]]]
    let es := Python.language.listing "a.py" source ⟨root, false⟩
    ∃ tree n p m, Tree.ofEntries es = .ok tree ∧ tree.node? 2 = some n ∧ n.kind = .method ∧
      n.payload.attribute? "receiver" = some "A" ∧ tree.parent? 2 = some p ∧
      tree.node? p = some m ∧ m.kind.isTypeLike ∧ m.payload.name = "A" := by
  intro name source root es
  obtain ⟨-, -, hreceivers⟩ := methods_follow_nesting "a.py" source ⟨root, false⟩
  obtain ⟨-, htree⟩ := hreceivers Python.language (List.mem_cons_of_mem _ List.mem_cons_self)
  have hsummary : es.map (fun e => (e.kind, e.payload.attribute? "receiver")) =
      [(.file, none), (.classType, none), (.method, some "A")] := by
    rw [show es = _ from listing_eq ..]
    decide +kernel
  have hnested : Nested es := by
    rw [show es = _ from listing_eq ..]
    exact nested_iff.2 ⟨List.cons_ne_nil _ _, by unfold Faultless; decide +kernel⟩
  rcases ofEntries_cases es with ⟨-, tree, hbuilt, hes⟩ | ⟨fault, -, hfault⟩
  · have hthird := congrArg (·[2]?) hsummary
    rw [List.getElem?_map] at hthird
    obtain ⟨e, he, hpair⟩ := Option.map_eq_some_iff.1 hthird
    obtain ⟨hkind, hreceiver⟩ := Prod.mk.inj hpair
    obtain ⟨n, hn, hnkind, hnpayload⟩ := hes.node 2 e he
    have hgiven : n.payload.attribute? "receiver" = some "A" := by rw [hnpayload, hreceiver]
    obtain ⟨-, p, m, hp, hm, htype, hname⟩ := (htree tree hbuilt 2 n "A" hn).1 hgiven
    exact ⟨tree, n, p, m, hbuilt, hn, hnkind.trans hkind, hgiven, hp, hm, htype, hname⟩
  · exact absurd hnested hfault.not_nested

end Language

end Outline
