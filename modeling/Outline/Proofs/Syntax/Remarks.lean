import Outline.Proofs.Syntax.Entries

/-!
# Outline.Proofs.Syntax.Remarks

**Where comments and annotations matter.** They are constructs of a tree like others, so a language
that takes the first construct below a node takes one that stands in front. These nodes are few
(`SyntaxNode.takesFirst`). Anywhere else comments and annotations may be put in or left out: two
trees that differ in that way (`Remarked`) show the same to every language (`Agrees`), node by node,
so the walk gathers the same from both.

Putting in is a relation on lists of siblings, so that it can be done anywhere and any number of
times. It carries one bit, whether a construct has come before: in front of the first one, what is
put in would become the first. Each question that a language asks of a node is a search among its
children, and the heart of the proof is that every such search finds the same child on both sides.
-/

namespace Outline

namespace SyntaxNode

/-- The constructs that say something about a text and are not part of what it says. -/
def remarks : List String :=
  ["comment", "line_comment", "block_comment", "annotation", "marker_annotation"]

/-- Whether a node is a comment or an annotation. -/
def isRemark (n : SyntaxNode) : Bool := remarks.contains n.kind

/-- The first child that is a construct, and neither a comment nor an annotation. -/
def firstTelling? (n : SyntaxNode) : Option SyntaxNode :=
  n.children.find? fun c => c.named && !c.isRemark

/-- The constructs that languages may take for their first construct. -/
def takingKinds : List String :=
  ["package_declaration", "import_declaration", "package_clause", "class_heritage"]

/-- The fields that languages may take for their first construct. -/
def takingFields : List String := ["superclass", "superclasses", "receiver"]

/-- Whether languages may take a node for its first construct. -/
def takesFirst (n : SyntaxNode) : Bool :=
  takingKinds.contains n.kind || takingFields.any (n.field == some ·)

theorem takesFirst_of_kind {n : SyntaxNode} (h : n.kind ∈ takingKinds) : n.takesFirst = true := by
  rw [takesFirst, List.contains_iff_mem.2 h, Bool.true_or]

theorem takesFirst_of_field {n : SyntaxNode} {field : String} (h : field ∈ takingFields)
    (hn : n.field = some field) : n.takesFirst = true := by
  have hany : takingFields.any (n.field == some ·) = true :=
    List.any_eq_true.2 ⟨field, h, beq_iff_eq.2 hn⟩
  rw [takesFirst, hany, Bool.or_true]

@[simp] theorem children_withChildren (n : SyntaxNode) (cs : List SyntaxNode) :
    (n.withChildren cs).children = cs := by
  cases n
  rfl

@[simp] theorem field_withChildren (n : SyntaxNode) (cs : List SyntaxNode) :
    (n.withChildren cs).field = n.field := by
  cases n
  rfl

@[simp] theorem kind_withChildren (n : SyntaxNode) (cs : List SyntaxNode) :
    (n.withChildren cs).kind = n.kind := by
  cases n
  rfl

@[simp] theorem named_withChildren (n : SyntaxNode) (cs : List SyntaxNode) :
    (n.withChildren cs).named = n.named := by
  cases n
  rfl

@[simp] theorem row_withChildren (n : SyntaxNode) (cs : List SyntaxNode) :
    (n.withChildren cs).row = n.row := by
  cases n
  rfl

@[simp] theorem text?_withChildren (n : SyntaxNode) (cs : List SyntaxNode) (source : Bytes) :
    (n.withChildren cs).text? source = n.text? source := by
  cases n
  rfl

/-- A search for more finds the same, if what is found without it is also found with it. -/
theorem find?_and {p q : SyntaxNode → Bool} {cs : List SyntaxNode}
    (h : ∀ c, cs.find? p = some c → q c = true) :
    cs.find? (fun c => p c && q c) = cs.find? p := by
  induction cs with
  | nil => rfl
  | cons c cs ih =>
      by_cases hc : p c
      · rw [List.find?_cons_of_pos hc] at h ⊢
        rw [List.find?_cons_of_pos (by rw [hc, h c rfl]; rfl)]
      · rw [List.find?_cons_of_neg hc] at h ⊢
        rw [List.find?_cons_of_neg (by simp [hc]), ih h]

/-- Where no comment and no annotation comes first, the first construct is the first that tells
something. -/
theorem firstTelling?_eq {n : SyntaxNode} (h : ∀ c, n.firstNamed? = some c → c.isRemark = false) :
    n.firstTelling? = n.firstNamed? :=
  find?_and fun c hc => by rw [h c hc]; rfl

end SyntaxNode

/-- A comment or an annotation that may stand among others: it fills no field, and a language finds
no declaration in it. -/
structure Remark (l : Language) (source : Bytes) (x : SyntaxNode) : Prop where
  remark : x.isRemark = true
  field : x.field = none
  silent : ∀ scope kind, l.gather source scope kind x = []

/-- Comments and annotations are put in among siblings and among all that is below them. In front of
the first construct this is done only where `free` says so, and below a node unless languages take
its first construct. -/
inductive RemarkedAll (l : Language) (source : Bytes) :
    Bool → List SyntaxNode → List SyntaxNode → Prop
  | nil {free : Bool} : RemarkedAll l source free [] []
  | cons {free : Bool} {n : SyntaxNode} {ns cs ms : List SyntaxNode}
      (below : RemarkedAll l source (!n.takesFirst) n.children cs)
      (behind : RemarkedAll l source (free || n.named) ns ms) :
      RemarkedAll l source free (n :: ns) (n.withChildren cs :: ms)
  | remark {x : SyntaxNode} {ns ms : List SyntaxNode} (told : Remark l source x)
      (behind : RemarkedAll l source true ns ms) : RemarkedAll l source true ns (x :: ms)

/-- Comments and annotations are put in below a node. -/
def Remarked (l : Language) (source : Bytes) (n m : SyntaxNode) : Prop :=
  ∃ cs, m = n.withChildren cs ∧ RemarkedAll l source (!n.takesFirst) n.children cs

variable {l : Language} {source : Bytes}

/-! ### What stays

Two searches differ in what they say of remarks. A search by field, or by a kind that is none of the
remarks, passes over them wherever they stand (`RemarkedAll.find?`). A search for the first
construct would stop at one, so it agrees only where nothing was put in before the first construct
(`RemarkedAll.find?_named`). -/

namespace RemarkedAll

variable {free : Bool} {ns ms : List SyntaxNode}

/-- Nothing has to be put in. -/
theorem refl (ns : List SyntaxNode) : RemarkedAll l source free ns ns := by
  induction ns using SyntaxNode.siblings_induction generalizing free with
  | nil => exact .nil
  | cons n ns ihc ihs =>
      have hn : n.withChildren n.children = n := by
        cases n
        rfl
      have hcons : RemarkedAll l source free (n :: ns) (n.withChildren n.children :: ns) :=
        .cons ihc ihs
      rwa [hn] at hcons

/-- A search for what no comment and no annotation is finds the same child. -/
theorem find? {p : SyntaxNode → Bool} (hsame : ∀ n cs, p (n.withChildren cs) = p n)
    (hremark : ∀ x, Remark l source x → p x = false) (h : RemarkedAll l source free ns ms) :
    Option.Rel (Remarked l source) (ns.find? p) (ms.find? p) := by
  induction h with
  | nil => exact .none
  | @cons free n ns cs ms below behind _ ih =>
      by_cases hp : p n
      -- The child that is found is the same one, with remarks put in below it.
      · rw [List.find?_cons_of_pos hp, List.find?_cons_of_pos ((hsame n cs).trans hp)]
        exact .some ⟨cs, rfl, below⟩
      · rw [List.find?_cons_of_neg hp, List.find?_cons_of_neg (by rwa [hsame n cs])]
        exact ih
  | remark told behind ih =>
      rw [List.find?_cons_of_neg (Bool.eq_false_iff.1 (hremark _ told))]
      exact ih

/-- With nothing put in before it, the first construct stays. -/
theorem find?_named (h : RemarkedAll l source false ns ms) :
    Option.Rel (Remarked l source) (ns.find? (·.named)) (ms.find? (·.named)) := by
  generalize hfree : false = free at h
  -- A token in front of it is no construct, so the search and the bit go on.
  induction h with
  | nil => exact .none
  | @cons free n ns cs ms below behind _ ih =>
      by_cases hn : n.named
      · rw [List.find?_cons_of_pos hn, List.find?_cons_of_pos ((n.named_withChildren cs).trans hn)]
        exact .some ⟨cs, rfl, below⟩
      · rw [List.find?_cons_of_neg hn, List.find?_cons_of_neg (by rwa [n.named_withChildren cs])]
        exact ih (by rw [← hfree, Bool.eq_false_iff.2 hn]; rfl)
  | remark => cases hfree

end RemarkedAll

namespace Remarked

variable {n m : SyntaxNode}

/-- A node keeps its kind, -/
theorem kind_eq (h : Remarked l source n m) : m.kind = n.kind := by
  obtain ⟨cs, rfl, -⟩ := h
  exact n.kind_withChildren cs

/-- its place in the source, -/
theorem row_eq (h : Remarked l source n m) : m.row = n.row := by
  obtain ⟨cs, rfl, -⟩ := h
  exact n.row_withChildren cs

/-- and its text. -/
theorem text?_eq (h : Remarked l source n m) : m.text? source = n.text? source := by
  obtain ⟨cs, rfl, -⟩ := h
  exact n.text?_withChildren cs source

theorem find? (h : Remarked l source n m) {p : SyntaxNode → Bool}
    (hsame : ∀ n cs, p (n.withChildren cs) = p n)
    (hremark : ∀ x, Remark l source x → p x = false) :
    Option.Rel (Remarked l source) (n.children.find? p) (m.children.find? p) := by
  obtain ⟨cs, rfl, hcs⟩ := h
  rw [SyntaxNode.children_withChildren]
  exact hcs.find? hsame hremark

/-- What fills a field is found again, for remarks fill none. -/
theorem child? (h : Remarked l source n m) (field : String) :
    Option.Rel (Remarked l source) (n.child? field) (m.child? field) :=
  h.find? (fun n cs => by rw [n.field_withChildren]) fun x hx => by rw [hx.field]; rfl

/-- So is a child of a kind, unless it is one of the remarks that is looked for. -/
theorem childOfKind? (h : Remarked l source n m) (kind : String)
    (hkind : kind ∉ SyntaxNode.remarks) :
    Option.Rel (Remarked l source) (n.childOfKind? kind) (m.childOfKind? kind) := by
  unfold SyntaxNode.childOfKind? SyntaxNode.namedChildren
  rw [List.find?_filter, List.find?_filter]
  refine h.find? (fun n cs => by rw [n.named_withChildren, n.kind_withChildren]) fun x hx => ?_
  rw [decide_eq_false_iff_not, beq_iff_eq]
  rintro ⟨-, rfl⟩
  exact hkind (List.contains_iff_mem.1 hx.remark)

/-- Where languages take the first construct, nothing was put in before it. -/
theorem firstNamed? (h : Remarked l source n m) (hfirst : n.takesFirst = true) :
    Option.Rel (Remarked l source) n.firstNamed? m.firstNamed? := by
  obtain ⟨cs, rfl, hcs⟩ := h
  rw [hfirst] at hcs
  unfold SyntaxNode.firstNamed?
  rw [SyntaxNode.children_withChildren]
  exact hcs.find?_named

end Remarked

section

variable {n m : SyntaxNode}

/-- Parts of parts are found where the parts are. -/
theorem rel_bind {f : SyntaxNode → Option SyntaxNode} {x y : Option SyntaxNode}
    (h : Option.Rel (Remarked l source) x y)
    (hf : ∀ a b, x = some a → Remarked l source a b →
      Option.Rel (Remarked l source) (f a) (f b)) :
    Option.Rel (Remarked l source) (x.bind f) (y.bind f) := by
  cases h with
  | none => exact .none
  | some h => exact hf _ _ rfl h

/-- The first construct in a field, where languages take it. -/
theorem Remarked.firstOfChild? (h : Remarked l source n m) (field : String)
    (hfield : field ∈ SyntaxNode.takingFields) :
    Option.Rel (Remarked l source) ((n.child? field).bind (·.firstNamed?))
      ((m.child? field).bind (·.firstNamed?)) :=
  rel_bind (h.child? field) fun _ _ ha hab =>
    hab.firstNamed? (SyntaxNode.takesFirst_of_field hfield (by simpa using List.find?_some ha))

/-- The first construct in a child of a kind, where languages take it. -/
theorem Remarked.firstOfKind? (h : Remarked l source n m) (kind : String)
    (hkind : kind ∈ SyntaxNode.takingKinds) (hremark : kind ∉ SyntaxNode.remarks) :
    Option.Rel (Remarked l source) ((n.childOfKind? kind).bind (·.firstNamed?))
      ((m.childOfKind? kind).bind (·.firstNamed?)) :=
  rel_bind (h.childOfKind? kind hremark) fun a _ ha hab => by
    have hfound : a.kind = kind := by simpa using List.find?_some ha
    exact hab.firstNamed? (SyntaxNode.takesFirst_of_kind (hfound ▸ hkind))

/-- Nodes that differ in comments and annotations below them can be asked the same. -/
theorem bind_of_rel {α : Type} {f : SyntaxNode → Option α}
    (hf : ∀ {n m : SyntaxNode}, Remarked l source n m → f m = f n) {x y : Option SyntaxNode}
    (h : Option.Rel (Remarked l source) x y) : y.bind f = x.bind f := by
  cases h with
  | none => rfl
  | some h => exact hf h

/-- Whether a part is there is the same. -/
theorem isSome_of_rel {x y : Option SyntaxNode} (h : Option.Rel (Remarked l source) x y) :
    y.isSome = x.isSome := by
  cases h <;> rfl

/-- And what its text is. -/
theorem text?_of_rel {x y : Option SyntaxNode} (h : Option.Rel (Remarked l source) x y)
    (parentKind : String) :
    (Site.mk m parentKind source).text? y = (Site.mk n parentKind source).text? x :=
  bind_of_rel (fun h => h.text?_eq) h

/-- Whether a name is that of the first construct below. -/
def NameSource.isFirst : NameSource → Bool
  | firstNamed => true
  | _ => false

/-- The part that a rule names a construct by is found again, whichever way it is found. -/
theorem Remarked.resolve? (h : Remarked l source n m) (name : NameSource)
    (hfirst : name.isFirst = true → n.takesFirst = true) :
    Option.Rel (Remarked l source) (name.resolve? n) (name.resolve? m) := by
  cases name with
  | field name => exact h.child? name
  | firstNamed => exact h.firstNamed? (hfirst rfl)
  -- Field by field.
  | fieldPath names =>
      show Option.Rel _ (names.foldlM (fun n name => n.child? name) n)
        (names.foldlM (fun n name => n.child? name) m)
      clear hfirst
      induction names generalizing n m with
      | nil => exact .some h
      | cons name names ih =>
          rw [List.foldlM_cons, List.foldlM_cons]
          exact rel_bind (h.child? name) fun _ _ _ => ih

/-- A language takes the first construct below a node only where `SyntaxNode.takesFirst` says so,
and amends the same where comments and annotations differ. -/
structure Language.IgnoresRemarks (l : Language) : Prop where
  rules : ∀ x ∈ l.rules, x.2.name.isFirst = true → x.1 ∈ SyntaxNode.takingKinds
  amend : ∀ {source : Bytes} {n m : SyntaxNode}, Remarked l source n m → ∀ parentKind d,
    l.amend ⟨m, parentKind, source⟩ d = l.amend ⟨n, parentKind, source⟩ d

/-- Go takes the first construct in the field `receiver`, and behind that the fields and texts that
all other languages take, too. -/
theorem Go.receiver?_eq (h : Remarked l source n m) (parentKind : String) :
    Go.receiver? ⟨m, parentKind, source⟩ = Go.receiver? ⟨n, parentKind, source⟩ := by
  have hreceiver : ∀ k : SyntaxNode, Go.receiver? ⟨k, parentKind, source⟩ =
      ((k.child? "receiver").bind (·.firstNamed?)).bind fun p =>
        ((p.child? "type").bind (·.text? source)).bind Go.baseType? :=
    fun k => (Option.bind_assoc ..).symm
  rw [hreceiver, hreceiver]
  refine bind_of_rel (fun hp => ?_) (h.firstOfChild? "receiver" (by decide))
  rw [bind_of_rel (fun ht => ht.text?_eq) (hp.child? "type")]

theorem Go.ignoresRemarks : Go.language.IgnoresRemarks where
  rules := by decide
  amend {source n m} h parentKind d := by
    have htype : (m.child? "type").map (·.kind) = (n.child? "type").map (·.kind) := by
      rw [Option.map_eq_bind, Option.map_eq_bind]
      exact bind_of_rel (fun ht => congrArg some ht.kind_eq) (h.child? "type")
    show Go.amend _ d = Go.amend _ d
    simp only [Go.amend, h.kind_eq, Go.receiver?_eq h, htype,
      text?_of_rel (n := n) (h.child? "name")]

theorem Java.ignoresRemarks : Java.language.IgnoresRemarks where
  rules := by decide
  amend {source n m} h parentKind d := by
    show Java.amend _ d = Java.amend _ d
    simp only [Java.amend, Java.amendImport, h.kind_eq,
      isSome_of_rel (h.childOfKind? "asterisk" (by decide)),
      text?_of_rel (n := n) (h.childOfKind? "modifiers" (by decide)),
      text?_of_rel (n := n) (h.firstOfChild? "superclass" (by decide)),
      text?_of_rel (n := n) (Option.Rel.some h)]

theorem JavaScript.ignoresRemarks : JavaScript.language.IgnoresRemarks where
  rules := by decide
  amend {source n m} h parentKind d := by
    show JavaScript.amend _ d = JavaScript.amend _ d
    simp only [JavaScript.amend, h.kind_eq,
      text?_of_rel (n := n) (h.firstOfKind? "class_heritage" (by decide) (by decide))]

theorem Python.ignoresRemarks : Python.language.IgnoresRemarks where
  rules := by decide
  amend {source n m} h parentKind d := by
    have hname := h.child? "name"
    have hbase := text?_of_rel (n := n) (m := m) (h.firstOfChild? "superclasses" (by decide))
      parentKind
    show Python.amend _ d = Python.amend _ d
    simp only [Python.amend, h.kind_eq, hbase]
    generalize n.child? "name" = x at hname ⊢
    generalize m.child? "name" = y at hname ⊢
    cases hname with
    | none => rfl
    | some hab =>
        simp only [Python.amendImport, hab.kind_eq, text?_of_rel (n := n) (hab.child? "name"),
          text?_of_rel (n := n) (hab.child? "alias")]

theorem Rust.ignoresRemarks : Rust.language.IgnoresRemarks where
  rules := by decide
  amend {source n m} h parentKind d := by
    have hargument := h.child? "argument"
    show Rust.amend _ d = Rust.amend _ d
    simp only [Rust.amend, h.kind_eq, text?_of_rel (n := n) (h.child? "trait"),
      text?_of_rel (n := n) (h.childOfKind? "visibility_modifier" (by decide))]
    generalize n.child? "argument" = x at hargument ⊢
    generalize m.child? "argument" = y at hargument ⊢
    cases hargument with
    | none => rfl
    | some hab =>
        simp only [hab.kind_eq, text?_of_rel (n := n) (hab.child? "path"),
          text?_of_rel (n := n) (hab.child? "alias")]

theorem TypeScript.ignoresRemarks : TypeScript.language.IgnoresRemarks where
  rules := by decide
  amend {source n m} h parentKind d := by
    have hbase : Option.Rel _ (TypeScript.base? ⟨n, parentKind, source⟩)
        (TypeScript.base? ⟨m, parentKind, source⟩) :=
      rel_bind (h.childOfKind? "class_heritage" (by decide)) fun _ _ _ ha =>
        rel_bind (ha.childOfKind? "extends_clause" (by decide)) fun _ _ _ hb => hb.child? "value"
    show TypeScript.amend _ d = TypeScript.amend _ d
    simp only [TypeScript.amend, h.kind_eq, text?_of_rel (n := n) hbase,
      text?_of_rel (n := n) (h.childOfKind? "accessibility_modifier" (by decide))]

end

namespace Language

/-- The languages that extensions belong to, one by one. In each the amendments are rewritten by the
lemmas above; a part of a part is first taken out of both nodes at once. -/
theorem ignoresRemarks : ∀ l ∈ byExtension.map (·.2), l.IgnoresRemarks :=
  forall_mem_byExtension Go.ignoresRemarks Java.ignoresRemarks JavaScript.ignoresRemarks
    Python.ignoresRemarks Rust.ignoresRemarks TypeScript.ignoresRemarks

/-! ### The walk over trees that differ in comments and annotations

One case for each way of putting something in: with a node, its entry is the same and what is below
it is so by induction; a remark has nothing to gather. -/

/-- A node makes the same entry on both sides. Its rule may take the first construct only if it is
for one of the kinds where nothing was put in before it. -/
theorem entry?_of_remarked (hl : l.IgnoresRemarks) {n m : SyntaxNode} (h : Remarked l source n m)
    (parentKind : String) (scope : Scope) :
    l.entry? ⟨m, parentKind, source⟩ scope = l.entry? ⟨n, parentKind, source⟩ scope := by
  unfold entry?
  simp only [h.kind_eq, h.row_eq, hl.amend h, Option.bind_eq_bind]
  cases hr : l.rule? n.kind with
  | none => rfl
  | some r =>
      obtain ⟨x, hfind, rfl⟩ := Option.map_eq_some_iff.1 hr
      have hkind : x.1 = n.kind := by simpa using List.find?_some hfind
      have hpart := h.resolve? x.2.name fun hfirst => SyntaxNode.takesFirst_of_kind
        (hkind ▸ hl.rules x (List.mem_of_find?_eq_some hfind) hfirst)
      exact bind_of_rel (fun hc => by rw [hc.text?_eq]) hpart

/-- If the same is gathered below a node, the same is gathered from it. -/
theorem gather_of_remarked (hl : l.IgnoresRemarks) {n m : SyntaxNode} (h : Remarked l source n m)
    (hbelow : ∀ scope, l.gatherAll source scope m.kind m.children =
      l.gatherAll source scope n.kind n.children) (scope : Scope) (parentKind : String) :
    l.gather source scope parentKind m = l.gather source scope parentKind n := by
  have hentry := entry?_of_remarked hl h parentKind scope
  have hnamed : m.named = n.named := by
    obtain ⟨cs, rfl, -⟩ := h
    exact n.named_withChildren cs
  cases hn : n.named with
  | false => rw [gather_of_token (hnamed.trans hn), gather_of_token hn]
  | true =>
      cases he : l.entry? ⟨n, parentKind, source⟩ scope with
      | some e =>
          rw [gather_of_some (hnamed.trans hn) (hentry.trans he), gather_of_some hn he, hbelow]
      | none =>
          rw [gather_of_none (hnamed.trans hn) (hentry.trans he), gather_of_none hn he, hbelow]

/-- The same is gathered from siblings on both sides, in every scope. -/
theorem gatherAll_of_remarked (hl : l.IgnoresRemarks) {free : Bool} {ns ms : List SyntaxNode}
    (h : RemarkedAll l source free ns ms) (scope : Scope) (parentKind : String) :
    l.gatherAll source scope parentKind ms = l.gatherAll source scope parentKind ns := by
  induction h generalizing scope parentKind with
  | nil => rfl
  | @cons free n ns cs ms below behind ihbelow ihbehind =>
      rw [gatherAll, gatherAll, ihbehind, gather_of_remarked hl ⟨cs, rfl, below⟩]
      intro scope
      rw [n.children_withChildren, n.kind_withChildren, ihbelow]
  | remark told behind ih => rw [gatherAll, told.silent, List.nil_append, ih]

/-- Comments and annotations may be put in, or left out, wherever no language takes the first
construct. -/
theorem listing_of_remarked (hl : l ∈ byExtension.map (·.2)) {t t' : SyntaxTree}
    (h : Remarked l source t.root t'.root) (herror : t'.hasError = t.hasError) (fileName : String) :
    l.listing fileName source t' = l.listing fileName source t := by
  obtain ⟨cs, hroot, hcs⟩ := h
  rw [listing_eq, listing_eq, herror, hroot, SyntaxNode.children_withChildren,
    SyntaxNode.kind_withChildren, gatherAll_of_remarked (ignoresRemarks l hl) hcs]

end Language

/-! ### What is taken from a first construct

The second half is about single entries. Each of the four things that languages take from a first
construct is told with `first` as a parameter: for the first construct as it is this always holds,
and for the first that is no remark it holds where no remark stands in front. -/

/-- An entry of a construct tells what `first` gives of the constructs that a language takes for
their first construct: the name of a package or an import, the base of a class, and the receiver of
a method. -/
structure TellsOf (first : SyntaxNode → Option SyntaxNode) (l : Language) (source : Bytes)
    (n : SyntaxNode) (e : Entry) : Prop where
  package : l = Java.language ∧ n.kind = "package_declaration" ∨
      l = Go.language ∧ n.kind = "package_clause" →
    ∃ c, first n = some c ∧ c.text? source = some e.payload.name
  importing : l = Java.language → n.kind = "import_declaration" →
    ∃ c v, first n = some c ∧ c.text? source = some v ∧
      e.payload.name = if (n.childOfKind? "asterisk").isSome then v ++ ".*" else v
  base : ∀ field, l = Java.language ∧ n.kind = "class_declaration" ∧ field = "superclass" ∨
      l = Python.language ∧ n.kind = "class_definition" ∧ field = "superclasses" →
    e.payload.attribute? "extends" = ((n.child? field).bind first).bind (·.text? source)
  receiver : l = Go.language → n.kind = "method_declaration" → ∀ p type v,
    (n.child? "receiver").bind first = some p →
    (p.child? "type").bind (·.text? source) = some type → Go.baseType? type = some v →
    e.payload.attribute? "receiver" = some v

/-- It is the first construct that is told of, whatever it is. -/
theorem Language.Declares.tellsOf_firstNamed? {t : SyntaxTree} {n : SyntaxNode} {e : Entry}
    (h : l.Declares source t n e) : TellsOf (·.firstNamed?) l source n e := by
  obtain ⟨kind, around, r, part, name, hr, hpart, hname, rfl⟩ := h.exists_rule
  have hnone : (Language.draft r name n.row around).payload.attribute? "extends" = none :=
    Language.attribute?_draft (by decide) (by decide) r name n.row around
  have hgiven : (Language.draft r name n.row around).payload.name = name :=
    Language.name_draft r name n.row around
  -- The rule for such a construct names it by its first construct.
  have hfirst : ∀ k, l.rule? n.kind = some ⟨k, none, .firstNamed⟩ →
      n.firstNamed? = some part := fun k hk => by
    rw [← hpart, Option.some.inj (hr.symm.trans hk)]
    rfl
  refine ⟨?_, ?_, ?_, ?_⟩
  -- The name of a package, in Java and in Go, which neither language changes.
  · rintro (⟨rfl, hkind⟩ | ⟨rfl, hkind⟩)
    · refine ⟨part, hfirst .moduleDecl (by rw [hkind]; rfl), hname.trans (congrArg some ?_)⟩
      refine Eq.trans ?_ (Java.name_amend _ _).symm
      rw [if_neg fun h => absurd (hkind.symm.trans h.1) (by decide), hgiven]
    · refine ⟨part, hfirst .moduleDecl (by rw [hkind]; rfl), hname.trans (congrArg some ?_)⟩
      exact ((Go.name_amend _ _).trans hgiven).symm
  -- The name of an import, which Java makes longer for all members.
  · rintro rfl hkind
    refine ⟨part, name, hfirst .importDecl (by rw [hkind]; rfl), hname, ?_⟩
    refine (Java.name_amend _ _).trans ?_
    simp only [hkind, true_and, hgiven]
  -- The base of a class: nothing else is set under this key.
  · rintro field (⟨rfl, hkind, rfl⟩ | ⟨rfl, hkind, rfl⟩)
    · exact Java.extends_amend hkind hnone
    · refine (Python.attribute?_amend_class hkind _ (by decide)).trans ?_
      rw [if_pos rfl, hnone, Option.or_none]
      rfl
  -- The receiver of a method in Go.
  · rintro rfl hkind p type v hp htype hv
    refine Go.receiver_amend hkind ?_ _
    obtain ⟨list, hlist, hp⟩ := Option.bind_eq_some_iff.1 hp
    obtain ⟨c, hc, htype⟩ := Option.bind_eq_some_iff.1 htype
    simp only [Go.receiver?, Site.text?, hlist, hp, hc, htype, hv, Option.bind_eq_bind,
      Option.bind_some]

/-- No comment and no annotation comes first where languages take the first construct: neither
below the node nor below its parts. -/
def SyntaxNode.Unled (n : SyntaxNode) : Prop :=
  ∀ m, (m = n ∨ ∃ field ∈ takingFields, n.child? field = some m) → m.takesFirst = true →
    ∀ c, m.firstNamed? = some c → c.isRemark = false

/-- With no remark in front, the first construct and the first that tells something are one. -/
theorem TellsOf.of_unled {n : SyntaxNode} {e : Entry} (h : TellsOf (·.firstNamed?) l source n e)
    (hn : n.Unled) : TellsOf (·.firstTelling?) l source n e := by
  -- For the construct itself and for its parts, where languages take the first construct of these.
  have hself : n.kind ∈ SyntaxNode.takingKinds → n.firstTelling? = n.firstNamed? := fun hkind =>
    SyntaxNode.firstTelling?_eq (hn n (.inl rfl) (SyntaxNode.takesFirst_of_kind hkind))
  have hpart : ∀ field ∈ SyntaxNode.takingFields,
      (n.child? field).bind (·.firstTelling?) = (n.child? field).bind (·.firstNamed?) := by
    intro field hfield
    cases hm : n.child? field with
    | none => rfl
    | some m =>
        have hfound : m.field = some field := by simpa using List.find?_some hm
        exact SyntaxNode.firstTelling?_eq (hn m (.inr ⟨field, hfield, hm⟩)
          (SyntaxNode.takesFirst_of_field hfield hfound))
  refine ⟨fun hl => ?_, fun hl hkind => ?_, fun field hl => ?_, fun hl hkind p type v hp => ?_⟩
  · rw [hself (by rcases hl with ⟨-, hkind⟩ | ⟨-, hkind⟩ <;> rw [hkind] <;> decide)]
    exact h.package hl
  · rw [hself (by rw [hkind]; decide)]
    exact h.importing hl hkind
  · rw [hpart field (by rcases hl with ⟨-, -, rfl⟩ | ⟨-, -, rfl⟩ <;> decide)]
    exact h.base field hl
  · rw [hpart "receiver" (by decide)] at hp
    exact h.receiver hl hkind p type v hp

/-- **Comments and annotations matter where they come first.** Wherever no language takes the first
construct they may be put in or left out, and the listing is the same. What is taken from a first
construct is told of whatever stands first; where that is no comment and no annotation, it is the
first construct besides these. -/
theorem remarks_matter_in_front (source : Bytes) :
    (∀ l ∈ Language.byExtension.map (·.2), ∀ t t' : SyntaxTree,
      Remarked l source t.root t'.root → t'.hasError = t.hasError →
      ∀ fileName, l.listing fileName source t' = l.listing fileName source t) ∧
      ∀ l t n e, Language.Declares l source t n e → TellsOf (·.firstNamed?) l source n e ∧
        (n.Unled → TellsOf (·.firstTelling?) l source n e) :=
  ⟨fun _ hl _ _ h herror fileName => Language.listing_of_remarked hl h herror fileName,
    fun _ _ _ _ h => ⟨h.tellsOf_firstNamed?, fun hn => h.tellsOf_firstNamed?.of_unled hn⟩⟩

/-- A comment behind the first base of a class may be left out. -/
theorem remarks_matter_in_front_behind_base :
    let source := "class A(B, # c\n  C): pass\n".toUTF8.toList
    let token (kind : String) (start stop row : Nat) : SyntaxNode :=
      .mk none kind false start stop row []
    let name (field : Option String) (start stop row : Nat) : SyntaxNode :=
      .mk field "identifier" true start stop row []
    let comment : SyntaxNode := .mk none "comment" true 11 14 0 []
    let definition (remarks : List SyntaxNode) : SyntaxNode :=
      .mk none "class_definition" true 0 25 0
        [token "class" 0 5 0, name (some "name") 6 7 0,
          .mk (some "superclasses") "argument_list" true 7 19 0
            (token "(" 7 8 0 :: name none 8 9 0 :: token "," 9 10 0 ::
              (remarks ++ [name none 17 18 1, token ")" 18 19 1])),
          token ":" 19 20 1,
          .mk (some "body") "block" true 21 25 1
            [.mk none "pass_statement" true 21 25 1 [token "pass" 21 25 1]]]
    let tree (remarks : List SyntaxNode) : SyntaxTree :=
      ⟨.mk none "module" true 0 26 0 [definition remarks], false⟩
    Python.language.listing "a.py" source (tree [comment]) =
        Python.language.listing "a.py" source (tree []) ∧
      ∃ e, Python.language.Declares source (tree [comment]) (definition [comment]) e ∧
        (definition [comment]).Unled ∧ e.payload.attribute? "extends" = some "B" := by
  intro source token name comment definition tree
  obtain ⟨hlisting, htells⟩ := remarks_matter_in_front source
  have hcomment : Remark Python.language source comment := ⟨rfl, rfl, fun _ _ => rfl⟩
  have hremarked : Remarked Python.language source (tree []).root (tree [comment]).root :=
    ⟨_, rfl, .cons (.cons .nil (.cons .nil (.cons (.cons .nil (.cons .nil (.cons .nil
      (.remark hcomment (.refl _))))) (.refl _)))) .nil⟩
  have hpython : Python.language ∈ Language.byExtension.map (·.2) :=
    List.mem_of_getElem? (i := 8) rfl
  have hunled : (definition [comment]).Unled := by
    rintro m (rfl | ⟨field, hfield, hm⟩) hfirst c hc
    · exact absurd hfirst (by decide)
    · rcases List.mem_cons.1 hfield with rfl | hfield
      · cases hm
      · rcases List.mem_cons.1 hfield with rfl | hfield
        · cases hm
          cases hc
          rfl
        · rw [List.mem_singleton.1 hfield] at hm
          cases hm
  obtain ⟨e, hdeclares, -⟩ : ∃ e, Python.language.Declares source (tree [comment])
      (definition [comment]) e ∧ _ :=
    Language.exists_declares (fun _ => ()) () [0] (by decide +kernel) rfl
  refine ⟨hlisting _ hpython _ _ hremarked rfl _, e, hdeclares, hunled, ?_⟩
  rw [((htells _ _ _ _ hdeclares).2 hunled).base "superclasses" (.inr ⟨rfl, rfl, rfl⟩)]
  decide +kernel

/-- A comment in front of the name of a package becomes the name. -/
theorem not_tellsOf_firstTelling :
    let source := "package /* c */ x . y ;\n".toUTF8.toList
    let token (kind : String) (start stop : Nat) : SyntaxNode := .mk none kind false start stop 0 []
    let part (field : Option String) (kind : String) (start stop : Nat) (cs : List SyntaxNode) :
        SyntaxNode :=
      .mk field kind true start stop 0 cs
    let clause := part none "package_declaration" 0 23
      [token "package" 0 7, part none "block_comment" 8 15 [],
        part none "scoped_identifier" 16 21
          [part (some "scope") "identifier" 16 17 [], token "." 18 19,
            part (some "name") "identifier" 20 21 []],
        token ";" 22 23]
    ∃ e, Java.language.Declares source ⟨part none "program" 0 24 [clause], false⟩ clause e ∧
      e.payload.name = "/* c */" ∧ clause.firstTelling?.bind (·.text? source) = some "x . y" ∧
      ¬ TellsOf (·.firstTelling?) Java.language source clause e := by
  intro source token part clause
  obtain ⟨e, hdeclares, he⟩ : ∃ e, Java.language.Declares source
      ⟨part none "program" 0 24 [clause], false⟩ clause e ∧ _ :=
    Language.exists_declares (·.payload.name) "/* c */" [0] (by decide +kernel) rfl
  have htold : clause.firstTelling?.bind (·.text? source) = some "x . y" := by decide +kernel
  refine ⟨e, hdeclares, he, htold, fun h => ?_⟩
  obtain ⟨c, hc, hname⟩ := h.package (.inl ⟨rfl, rfl⟩)
  rw [hc, Option.bind_some, hname, he] at htold
  exact absurd htold (by decide)

end Outline
