import Outline.Proofs.Syntax.Remarks

/-!
# Outline.Proofs.Syntax.Bases

**What a class extends in Python.** A class extends the first construct in the list of its bases,
and that is also the supertype of its live node (`Python.extends_first`). It is the first base
(`Python.firstBase?`), unless a keyword argument or a comment comes before the bases.
-/

namespace Outline

/-! ### Live nodes of classes

### Live nodes of classes

A slot that is filled keeps what was made for it first. So what a live node of a class says is what
the standard factory says only if no call before had a registry with another factory
(`StandardCalls`). -/

/-- The standard factory makes a type of a class that has a name; what it extends is its supertype.
-/
theorem standardFactory_classType (t : Tree) {n : NodeRef} (hkind : n.kind = .classType)
    (hname : n.payload.name ≠ "") :
    standardFactory t n = .ok (.typeDecl n.payload.name (n.payload.attribute? "visibility")
      ((n.payload.attribute? "extends").or (n.payload.attribute? "trait"))) := by
  have hrequired : n.toNode.requiredName = .ok n.payload.name := by
    rw [Node.requiredName, if_neg (by simpa using hname)]
  unfold standardFactory
  rw [hkind]
  dsimp only
  rw [hrequired]
  rfl

/-- Some calls make live nodes with the standard factory alone. -/
def StandardCalls (calls : List LiveCall) : Prop :=
  ∀ c ∈ calls, ∀ k f, c.registry.factory? k = some f → f = standardFactory

/-- Whatever calls with the standard factory have been made before, the live node of a node is what
the standard factory makes of it. -/
theorem Tree.element_standard {t : Tree} {calls : List LiveCall} (hcalls : StandardCalls calls)
    {i : NodeId} {n : Node} (hn : t.node? i = some n) {x : Element}
    (hx : standardFactory t ⟨n, i⟩ = .ok x) :
    ∃ live : LiveNode, ((LiveCall.live .standard i).run t (t.after calls)).1 = .ok [live] ∧
      live.element = x := by
  have hhad : ∃ live, (t.after calls).had t .standard i = .ok live ∧ live.element = x := by
    cases hi : (t.after calls).live? i with
    | some live =>
        obtain ⟨us, c, vs, rfl, -, -, hmade⟩ := madeBy_of_after hi
        obtain ⟨m, f, hm, -, hf, helement⟩ := hmade.element
        obtain rfl := Option.some.inj (hn.symm.trans hm)
        rw [hcalls c (List.mem_append_right _ List.mem_cons_self) _ f hf, hx] at helement
        exact ⟨live, Slots.had_of_some hi, (Except.ok.inj helement).symm⟩
    | none =>
        refine ⟨⟨i, n.parent, n.kind, x⟩, (Slots.had_of_none hi).trans ?_, rfl⟩
        have hfactory : Registry.standard.factory? n.kind = some standardFactory := rfl
        rw [Registry.materialize, hn]
        simp only [hfactory, hx]
  obtain ⟨live, hlive, helement⟩ := hhad
  refine ⟨live, ?_, helement⟩
  rw [LiveCall.run_live, (on_live (t.size_after calls) i).1, hlive]
  rfl

namespace Python

/-! ### Bases

### Bases

Among the named children of a list of bases are keyword arguments, such as a metaclass, and
comments. The hook for classes takes the first named child whatever it is; the two definitions here
differ in this only (`baseBy`). -/

/-- Whether a construct in a list of bases is a base. -/
def isBase (c : SyntaxNode) : Bool := c.kind != "keyword_argument" && c.kind != "comment"

/-- The first base in a list of bases. -/
def firstBase? (bases : SyntaxNode) : Option SyntaxNode :=
  bases.children.find? fun c => c.named && isBase c

/-- What a class extends, if `first` gives the construct to take from the list of its bases. -/
def baseBy (first : SyntaxNode → Option SyntaxNode) (source : Bytes) (n : SyntaxNode) :
    Option String :=
  ((n.child? "superclasses").bind first).bind (·.text? source)

/-- The entry of a class says that it extends a base, and so does each live node that is made of the
entry with the standard factory. -/
structure Extends (base : Option String) (source : Bytes) (t : SyntaxTree) (e : Entry) : Prop where
  given : e.payload.attribute? "extends" = base
  supertype : ∀ fileName tree, Tree.ofEntries (language.listing fileName source t) = .ok tree →
    ∀ i, (language.listing fileName source t)[i]? = some e → ∀ calls, StandardCalls calls →
    ∃ live : LiveNode, ((LiveCall.live .standard i).run tree (tree.after calls)).1 = .ok [live] ∧
      live.element = .typeDecl e.payload.name (e.payload.attribute? "visibility") base

variable {source : Bytes} {t : SyntaxTree} {n : SyntaxNode} {e : Entry}

/-- The entry of a class has the parts that its live node has. -/
theorem class_of_declares (h : language.Declares source t n e)
    (hkind : n.kind = "class_definition") :
    e.kind = .classType ∧ e.payload.name ≠ "" ∧ e.payload.attribute? "trait" = none ∧
      e.payload.attribute? "extends" = baseBy (·.firstNamed?) source n := by
  obtain ⟨-, kind, around, hentry⟩ := h.exists_entry
  have hname := Language.ne_empty_of_entry? renames hentry
  obtain ⟨r, part, name, hr, -, -, rfl⟩ := Language.entry?_eq_some_iff.1 hentry
  have hrule : r = { kind := .classType } := by
    rw [show (Site.mk n kind source).node.kind = _ from hkind] at hr
    exact (Option.some.inj hr).symm
  have hgiven : (Language.draft r name n.row around).kind = .classType := by
    rw [Language.kind_draft (by rw [hrule]), hrule]
  have hnone : ∀ key, key ≠ "line" → key ≠ "receiver" →
      (Language.draft r name n.row around).payload.attribute? key = none := fun _ hline hreceiver =>
    Language.attribute?_draft hline hreceiver r name n.row around
  refine ⟨?_, hname, ?_, ?_⟩
  · rcases (keepsReceivers ⟨n, kind, source⟩ (Language.draft r name n.row around)).kind with
      hkept | ⟨hfield, -⟩
    · exact hkept.trans hgiven
    · exact absurd (hgiven.symm.trans hfield) (by decide)
  · refine (attribute?_amend_class hkind _ (by decide)).trans ?_
    rw [if_neg (by decide), hnone _ (by decide) (by decide)]
  · refine (attribute?_amend_class hkind _ (by decide)).trans ?_
    rw [if_pos rfl, hnone _ (by decide) (by decide), Option.or_none]
    rfl

/-- **A class extends what comes first in the list of its bases.** The entry of a class and the live
nodes that are made of it say that it extends the first construct there. Where this is a base, and
not a keyword argument or a comment, it is the first base. -/
theorem extends_first (h : language.Declares source t n e) (hkind : n.kind = "class_definition") :
    Extends (baseBy (·.firstNamed?) source n) source t e ∧
      ((∀ bases c, n.child? "superclasses" = some bases → bases.firstNamed? = some c → isBase c) →
        Extends (baseBy firstBase? source n) source t e) := by
  obtain ⟨hclass, hname, htrait, hextends⟩ := class_of_declares h hkind
  -- -- Entry `i` is node `i` of the tree with the same payload, and the factory reads nothing but
  -- that.
  have hfirst : Extends (baseBy (·.firstNamed?) source n) source t e := by
    refine ⟨hextends, fun fileName tree htree i hi calls hcalls => ?_⟩
    obtain ⟨m, hm, hmkind, hpayload⟩ := (describes_of_ofEntries htree).node i e hi
    refine Tree.element_standard hcalls hm ?_
    rw [standardFactory_classType tree (hmkind.trans hclass) (hpayload ▸ hname), hpayload, hextends,
      htrait, Option.or_none]
  refine ⟨hfirst, fun hbase => ?_⟩
  have hsame : baseBy firstBase? source n = baseBy (·.firstNamed?) source n := by
    rw [baseBy, baseBy]
    cases hbases : n.child? "superclasses" with
    | none => rfl
    | some bases =>
        rw [Option.bind_some, Option.bind_some, firstBase?,
          SyntaxNode.find?_and fun c hc => hbase bases c hbases hc]
        rfl
  rwa [hsame]

/-- A base comes before a keyword argument. -/
theorem extends_first_keyword :
    let source := "class D(A, metaclass=M): pass\n".toUTF8.toList
    let token (kind : String) (start stop : Nat) : SyntaxNode := .mk none kind false start stop 0 []
    let name (field : Option String) (start stop : Nat) : SyntaxNode :=
      .mk field "identifier" true start stop 0 []
    let definition : SyntaxNode := .mk none "class_definition" true 0 29 0
      [token "class" 0 5, name (some "name") 6 7,
        .mk (some "superclasses") "argument_list" true 7 23 0
          [token "(" 7 8, name none 8 9, token "," 9 10,
            .mk none "keyword_argument" true 11 22 0
              [name (some "name") 11 20, token "=" 20 21, name (some "value") 21 22],
            token ")" 22 23],
        token ":" 23 24,
        .mk (some "body") "block" true 25 29 0
          [.mk none "pass_statement" true 25 29 0 [token "pass" 25 29]]]
    let t : SyntaxTree := ⟨.mk none "module" true 0 30 0 [definition], false⟩
    let e : Entry := ⟨.classType,
      ((Payload.mk "D" .empty).withAttribute "line" "1").withAttribute "extends" "A", 1⟩
    language.Declares source t definition e ∧ ∃ tree live,
      Tree.ofEntries (language.listing "d.py" source t) = .ok tree ∧
        ((LiveCall.live .standard 1).run tree (tree.after [])).1 = .ok [live] ∧
        live.element = .typeDecl "D" none (some "A") := by
  intro source token name definition t e
  obtain ⟨_, hdeclares, rfl⟩ : ∃ e', language.Declares source t definition e' ∧ id e' = e :=
    Language.exists_declares id e [0] (by decide +kernel) rfl
  have hlisting : language.listing "d.py" source t = [language.fileEntry "d.py" false, e] := by
    rw [Language.listing_eq]
    decide +kernel
  have hnested : Nested (language.listing "d.py" source t) := by
    rw [hlisting]
    exact nested_iff.2 ⟨List.cons_ne_nil _ _, by unfold Faultless; decide +kernel⟩
  obtain ⟨tree, htree⟩ := exists_tree_of_nested hnested
  have hbase : ∀ bases c, definition.child? "superclasses" = some bases →
      bases.firstNamed? = some c → isBase c := by
    rintro bases c ⟨⟩ ⟨⟩
    rfl
  obtain ⟨live, hlive, helement⟩ := ((extends_first hdeclares rfl).2 hbase).supertype "d.py" tree
    htree 1 (by rw [hlisting]; rfl) [] fun c hc => absurd hc List.not_mem_nil
  refine ⟨hdeclares, tree, live, htree, hlive, helement.trans ?_⟩
  decide +kernel

/-- A keyword argument is taken for the base of a class that has none. -/
theorem not_extends_firstBase :
    let source := "class E(metaclass=M): pass\n".toUTF8.toList
    let token (kind : String) (start stop : Nat) : SyntaxNode := .mk none kind false start stop 0 []
    let name (field : Option String) (start stop : Nat) : SyntaxNode :=
      .mk field "identifier" true start stop 0 []
    let definition : SyntaxNode := .mk none "class_definition" true 0 26 0
      [token "class" 0 5, name (some "name") 6 7,
        .mk (some "superclasses") "argument_list" true 7 20 0
          [token "(" 7 8,
            .mk none "keyword_argument" true 8 19 0
              [name (some "name") 8 17, token "=" 17 18, name (some "value") 18 19],
            token ")" 19 20],
        token ":" 20 21,
        .mk (some "body") "block" true 22 26 0
          [.mk none "pass_statement" true 22 26 0 [token "pass" 22 26]]]
    let t : SyntaxTree := ⟨.mk none "module" true 0 27 0 [definition], false⟩
    ∃ e, language.Declares source t definition e ∧
      e.payload.attribute? "extends" = some "metaclass=M" ∧
      baseBy firstBase? source definition = none ∧
      ¬ Extends (baseBy firstBase? source definition) source t e := by
  intro source token name definition t
  obtain ⟨e, hdeclares, he⟩ : ∃ e, language.Declares source t definition e ∧ _ :=
    Language.exists_declares (·.payload.attribute? "extends") (some "metaclass=M") [0]
      (by decide +kernel) rfl
  have hnone : baseBy firstBase? source definition = none := by decide +kernel
  refine ⟨e, hdeclares, he, hnone, fun h => ?_⟩
  have hgiven := h.given
  rw [hnone, he] at hgiven
  cases hgiven

end Python

end Outline
