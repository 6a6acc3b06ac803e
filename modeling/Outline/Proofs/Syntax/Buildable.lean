import Outline.Proofs.Syntax.NodeText
import Outline.Proofs.Syntax.Ownership
import Outline.Syntax.Languages

/-!
# Outline.Proofs.Syntax.Buildable

**Only a control character in a name keeps a file from having a tree.** The depths of a listing
always nest, so only a payload can be wrong. What a language says of a declaration comes from texts
of nodes, which have no line ends (`Alphabet`), and every language passes on to names and attributes
no other characters than these (`Language.Keeps`). So all attributes are without fault, and a name
has control characters only if the source has them, in places that are not blank
(`Language.listing_builds`).

The characters that names may have are a parameter of the proof (`ok` below). It is gone through
once, for any alphabet that has what texts of nodes have, and used twice: with all characters but
the line end, which settles the attributes of every source, and with all that are no control
characters, which settles the names of a source that has none.
-/

namespace Outline

/-! ### Payloads of fine characters

Names and attributes are treated differently, as the check on payloads does: an attribute is at
fault for a line end in its value, a name for any control character. What a language may do to a
declaration is to set an attribute and to give another name, so there is one lemma for each of
these. -/

/-- The name has only characters in `ok`, and the attributes are without fault. -/
structure Payload.Fine (ok : Char → Prop) (p : Payload) : Prop where
  name : ∀ c ∈ p.name.toList, ok c
  attributes : ∀ a ∈ p.attributes.entries, Payload.entryFault? a = none

/-- A set of characters that has all that stand in texts of nodes, but no line end. -/
structure Alphabet (ok : Char → Prop) (source : Bytes) : Prop where
  text : ∀ {n : SyntaxNode} {s : String}, n.text? source = some s → ∀ c ∈ s.toList, ok c
  dot : ok '.'
  star : ok '*'
  line : ¬ ok '\n'

variable {ok : Char → Prop}

/-- What a language reads of a part of the node has the characters of a text. -/
theorem Alphabet.site_text {s : Site} (h : Alphabet ok s.source) {part : Option SyntaxNode}
    {v : String} (hv : s.text? part = some v) : ∀ c ∈ v.toList, ok c := by
  obtain ⟨n, -, hn⟩ := Option.bind_eq_some_iff.1 hv
  exact h.text hn

/-- And it has no line end, since the alphabet has none. -/
theorem Alphabet.site_line {s : Site} (h : Alphabet ok s.source) {part : Option SyntaxNode}
    {v : String} (hv : s.text? part = some v) : '\n' ∉ v.toList :=
  fun hline => h.line (h.site_text hv _ hline)

/-- An attribute is without fault if its key is and its value has no line end. -/
theorem Payload.entryFault?_eq_none {key value : String}
    (hkey : Payload.entryFault? (key, "") = none) (hvalue : '\n' ∉ value.toList) :
    Payload.entryFault? (key, value) = none := by
  unfold Payload.entryFault? at hkey ⊢
  split at hkey
  · cases hkey
  · rename_i hfine
    rw [if_neg hfine, if_neg (by simpa using hvalue)]

/-- A key of a language is fixed, so its part is decided; only the value is to be looked at. -/
theorem Payload.Fine.withAttribute {p : Payload} (h : p.Fine ok) {key value : String}
    (hkey : Payload.entryFault? (key, "") = none) (hvalue : '\n' ∉ value.toList) :
    (p.withAttribute key value).Fine ok where
  name := h.name
  attributes a ha := by
    rcases Attributes.mem_insertEntry ha with rfl | ha
    · exact Payload.entryFault?_eq_none hkey hvalue
    · exact h.attributes a ha

namespace Draft

variable {d : Draft}

theorem fine_set (h : d.payload.Fine ok) {key value : String}
    (hkey : Payload.entryFault? (key, "") = none) (hvalue : '\n' ∉ value.toList) :
    (d.set key value).payload.Fine ok :=
  h.withAttribute hkey hvalue

theorem fine_set? (h : d.payload.Fine ok) {key : String} {value : Option String}
    (hkey : Payload.entryFault? (key, "") = none)
    (hvalue : ∀ v, value = some v → '\n' ∉ v.toList) : (d.set? key value).payload.Fine ok := by
  cases value with
  | none => exact h
  | some v => exact fine_set h hkey (hvalue v rfl)

theorem fine_rename? (h : d.payload.Fine ok) {name : Option String}
    (hname : ∀ v, name = some v → ∀ c ∈ v.toList, ok c) :
    (d.rename? name).payload.Fine ok := by
  cases name with
  | none => exact h
  | some v => exact ⟨hname v rfl, h.attributes⟩

/-- Both branches of a choice are fine, whichever is taken. -/
theorem fine_ite {c : Prop} [Decidable c] {d e : Draft} (hd : d.payload.Fine ok)
    (he : e.payload.Fine ok) : (if c then d else e).payload.Fine ok := by
  split
  · exact hd
  · exact he

end Draft

/-! ### The languages

Each language amends declarations in its own way, and its lemma follows the branches of its `amend`.
In every branch a value is a text of a node, a part of one, or fixed. A language that is added needs
such a lemma and a place in `Language.forall_mem_byExtension`; nothing after this section looks at
any of them. -/

/-- A language that amends fine payloads to fine payloads. -/
def Language.Keeps (l : Language) : Prop :=
  ∀ {ok : Char → Prop} (s : Site) (d : Draft), Alphabet ok s.source → d.payload.Fine ok →
    (l.amend s d).payload.Fine ok

/-- A base type is cut out of the type that is written, so it has no other characters. -/
theorem Go.mem_of_baseType? {type v : String} (h : Go.baseType? type = some v) :
    ∀ c ∈ v.toList, c ∈ type.toList := by
  unfold Go.baseType? at h
  dsimp only at h
  split at h
  · cases h
  · intro c hc
    rw [← Option.some.inj h, String.toList_ofList] at hc
    exact Text.mem_of_mem_dropWhile ((List.takeWhile_prefix _).mem (Text.mem_of_mem_strip hc))

theorem Go.fine_markExported {d : Draft} (h : d.payload.Fine ok) :
    (Go.markExported d).payload.Fine ok :=
  Draft.fine_ite (Draft.fine_set h (by decide) (by decide)) h

theorem Go.keeps : Go.language.Keeps := by
  intro ok s d hok h
  show (Go.amend s d).payload.Fine ok
  unfold Go.amend
  split
  · exact fine_markExported h
  -- The receiver of a method is the base of its type.
  · refine fine_markExported (Draft.fine_set? h (by decide) fun v hv hline => ?_)
    obtain ⟨_, -, hv⟩ := Option.bind_eq_some_iff.1 hv
    obtain ⟨_, -, hv⟩ := Option.bind_eq_some_iff.1 hv
    obtain ⟨type, htype, hv⟩ := Option.bind_eq_some_iff.1 hv
    exact hok.site_line htype (Go.mem_of_baseType? hv _ hline)
  · exact Draft.fine_set? h (by decide) fun v => hok.site_line
  · exact h
  · exact fine_markExported h

/-- The words of the modifiers are kept together as one value, and the visibility is one of three
that are fixed. -/
theorem Java.fine_applyModifiers {d : Draft} (h : d.payload.Fine ok) {modifiers : String}
    (hline : '\n' ∉ modifiers.toList) : (Java.applyModifiers modifiers d).payload.Fine ok := by
  have hvisibilities : ∀ v ∈ Java.visibilities, '\n' ∉ v.toList := by decide
  have hvisible : ∀ p, (d.set? "visibility" (Java.visibilities.find? p)).payload.Fine ok :=
    fun p => Draft.fine_set? h (by decide) fun v hv =>
      hvisibilities v (List.mem_of_find?_eq_some hv)
  unfold Java.applyModifiers
  refine Draft.fine_set ?_ (by decide) hline
  split
  · exact hvisible _
  · exact hvisible _

/-- An import of all members has a dot and a star behind its name, which an alphabet has. -/
theorem Java.fine_amendImport {s : Site} {d : Draft} (hok : Alphabet ok s.source)
    (h : d.payload.Fine ok) : (Java.amendImport s d).payload.Fine ok := by
  have hall : (d.rename? (some (d.payload.name ++ ".*"))).payload.Fine ok := by
    refine Draft.fine_rename? h fun v hv c hc => ?_
    obtain rfl := Option.some.inj hv
    rw [String.toList_append, show ".*".toList = ['.', '*'] by decide] at hc
    rcases List.mem_append.1 hc with hc | hc
    · exact h.name c hc
    · rcases List.mem_pair.1 hc with rfl | rfl
      · exact hok.dot
      · exact hok.star
  exact Draft.fine_ite (Draft.fine_set (Draft.fine_ite hall h) (by decide) (by decide))
    (Draft.fine_ite hall h)

theorem Java.fine_modified {s : Site} {d : Draft} (hok : Alphabet ok s.source)
    (h : d.payload.Fine ok) : (match s.text? (s.node.childOfKind? "modifiers") with
      | some modifiers => Java.applyModifiers modifiers d
      | none => d).payload.Fine ok := by
  split
  · rename_i modifiers hmodifiers
    exact fine_applyModifiers h (hok.site_line hmodifiers)
  · exact h

theorem Java.keeps : Java.language.Keeps := by
  intro ok s d hok h
  show (Java.amend s d).payload.Fine ok
  have hmodified := fine_modified hok h
  unfold Java.amend
  dsimp only
  split
  · exact Draft.fine_set? hmodified (by decide) fun v => hok.site_line
  · exact fine_amendImport hok hmodified
  · exact hmodified

theorem JavaScript.keeps : JavaScript.language.Keeps := by
  intro ok s d hok h
  show (JavaScript.amend s d).payload.Fine ok
  have hbase : (if s.node.kind == "class_declaration" then
      d.set? "extends" (s.text? ((s.node.childOfKind? "class_heritage").bind (·.firstNamed?)))
    else d).payload.Fine ok :=
    Draft.fine_ite (Draft.fine_set? h (by decide) fun v => hok.site_line) h
  exact Draft.fine_ite (Draft.fine_set hbase (by decide) (by decide)) hbase

theorem Python.fine_markPrivate {d : Draft} (h : d.payload.Fine ok) :
    (Python.markPrivate d).payload.Fine ok :=
  Draft.fine_ite (Draft.fine_set h (by decide) (by decide)) h

theorem Python.keeps : Python.language.Keeps := by
  intro ok s d hok h
  show (Python.amend s d).payload.Fine ok
  unfold Python.amend
  split
  -- A class with its first base.
  · exact fine_markPrivate (Draft.fine_set? h (by decide) fun v => hok.site_line)
  · split
    · exact fine_markPrivate (Draft.fine_ite (Draft.fine_set?
        (Draft.fine_rename? h fun v => hok.site_text) (by decide) fun v => hok.site_line) h)
    · exact h
  · exact fine_markPrivate h

theorem Rust.keeps : Rust.language.Keeps := by
  intro ok s d hok h
  show (Rust.amend s d).payload.Fine ok
  have hvisible : (d.set? "visibility"
      (s.text? (s.node.childOfKind? "visibility_modifier"))).payload.Fine ok :=
    Draft.fine_set? h (by decide) fun v => hok.site_line
  unfold Rust.amend
  dsimp only
  split
  · exact Draft.fine_set? hvisible (by decide) fun v => hok.site_line
  · exact Draft.fine_set hvisible (by decide) (by decide)
  · split
    · exact Draft.fine_ite (Draft.fine_set? (Draft.fine_rename? hvisible fun v => hok.site_text)
        (by decide) fun v => hok.site_line) hvisible
    · exact hvisible
  · exact hvisible

theorem TypeScript.fine_based {s : Site} {d : Draft} (hok : Alphabet ok s.source)
    (h : d.payload.Fine ok) : (match s.node.kind with
      | "class_declaration" | "abstract_class_declaration" =>
        d.set? "extends" (s.text? (TypeScript.base? s))
      | _ => d).payload.Fine ok := by
  split
  · exact Draft.fine_set? h (by decide) fun v => hok.site_line
  · exact Draft.fine_set? h (by decide) fun v => hok.site_line
  · exact h

theorem TypeScript.keeps : TypeScript.language.Keeps := by
  intro ok s d hok h
  show (TypeScript.amend s d).payload.Fine ok
  have hvisible : (d.set? "visibility"
      (s.text? (s.node.childOfKind? "accessibility_modifier"))).payload.Fine ok :=
    Draft.fine_set? h (by decide) fun v => hok.site_line
  have hbase := fine_based hok hvisible
  exact Draft.fine_ite (Draft.fine_set hbase (by decide) (by decide)) hbase

/-- What holds of each of the languages holds of every one that an extension belongs to: some have
several extensions, so the list of extensions is longer than that of languages. -/
theorem Language.forall_mem_byExtension {motive : Language → Prop} (go : motive Go.language)
    (java : motive Java.language) (javaScript : motive JavaScript.language)
    (python : motive Python.language) (rust : motive Rust.language)
    (typeScript : motive TypeScript.language) :
    ∀ l ∈ Language.byExtension.map (·.2), motive l := by
  simp only [Language.byExtension, List.map_cons, List.map_nil, List.forall_mem_cons]
  exact ⟨javaScript, typeScript, go, java, javaScript, javaScript, javaScript, typeScript, python,
    rust, typeScript, typeScript, List.forall_mem_nil _⟩

theorem Language.keeps : ∀ l ∈ Language.byExtension.map (·.2), l.Keeps :=
  forall_mem_byExtension Go.keeps Java.keeps JavaScript.keeps Python.keeps Rust.keeps
    TypeScript.keeps

/-! ### Listings

A declaration in a scope may get the name of the scope as its receiver, so the scope has to be fine
too. The walk keeps this: a declaration that is fine makes a scope of fine name for what is nested
in it. -/

/-- A line number is written with digits. -/
theorem notMem_toString (n : Nat) : '\n' ∉ (toString n).toList := by
  intro h
  have hdigits : (toString n).toList = Nat.toDigits 10 n := String.toList_ofList
  rw [hdigits] at h
  exact absurd (Nat.isDigit_of_mem_toDigits (by decide) (by decide) h) (by decide)

namespace Language

variable {l : Language} {source : Bytes} {scope : Scope}

/-- A rule gives the name, the line, and for some the receiver; these are fine in a fine scope. -/
theorem fine_draft (hok : Alphabet ok source) (hscope : ∀ c ∈ scope.name.toList, ok c) (r : Rule)
    {name : String} (hname : ∀ c ∈ name.toList, ok c) (row : Nat) :
    (draft r name row scope).payload.Fine ok := by
  have hline : (Payload.mk name .empty).withAttribute "line" (toString (row + 1)) |>.Fine ok :=
    Payload.Fine.withAttribute ⟨hname, fun a ha => by cases ha⟩ (by decide) (notMem_toString _)
  exact Draft.fine_ite (Draft.fine_set hline (by decide) fun h => hok.line (hscope _ h)) hline

/-- A declaration in a scope of fine name is fine. -/
theorem fine_entry? (hl : l.Keeps) (hok : Alphabet ok source)
    (hscope : ∀ c ∈ scope.name.toList, ok c) {n : SyntaxNode} {kind : String} {e : Entry}
    (he : l.entry? ⟨n, kind, source⟩ scope = some e) : e.payload.Fine ok := by
  obtain ⟨r, -, he⟩ := Option.bind_eq_some_iff.1 he
  obtain ⟨part, -, he⟩ := Option.bind_eq_some_iff.1 he
  obtain ⟨name, hname, he⟩ := Option.bind_eq_some_iff.1 he
  cases he
  exact hl ⟨n, kind, source⟩ _ hok (fine_draft hok hscope r (hok.text hname) _)

/-- All declarations below a node are fine, since each makes a scope of fine name. -/
theorem fine_gatherAll (hl : l.Keeps) (hok : Alphabet ok source)
    (hscope : ∀ c ∈ scope.name.toList, ok c) (kind : String) (ns : List SyntaxNode) :
    ∀ e ∈ l.gatherAll source scope kind ns, e.payload.Fine ok := by
  -- Over the nodes and the nodes in them, for scopes of any fine name. A node has no declaration in
  -- it, or declares something around what is nested in it, or is only passed through.
  induction ns using SyntaxNode.siblings_induction generalizing scope kind with
  | nil => exact fun e he => by cases he
  | cons n ns ihc ihs =>
      intro e he
      rcases List.mem_append.1 he with he | he
      · rcases stubs_cases l source scope kind [] n with
          ⟨-, hg⟩ | ⟨d, -, hd, -, hg⟩ | ⟨-, hg⟩
        · rw [hg] at he
          cases he
        · have hfine := fine_entry? hl hok hscope hd
          rw [hg] at he
          rcases List.mem_cons.1 he with rfl | he
          · exact hfine
          · exact ihc hfine.name _ e he
        · rw [hg] at he
          exact ihc hscope _ e he
      · exact ihs hscope kind e he

/-- No attribute of a listing is at fault, whatever the source is. -/
theorem attributes_listing (hl : l ∈ byExtension.map (·.2)) (fileName : String) (source : Bytes)
    (t : SyntaxTree) : ∀ e ∈ l.listing fileName source t, ∀ a ∈ e.payload.attributes.entries,
      Payload.entryFault? a = none := by
  -- A line end is a blank, and in a text of a node every stretch of blanks is one space.
  have hok : Alphabet (· ≠ '\n') source := by
    refine ⟨fun hs c hc => ?_, by decide, by decide, fun h => h rfl⟩
    rintro rfl
    rcases SyntaxNode.of_mem_text? hs hc with hspace | ⟨-, hblank⟩
    · exact absurd hspace (by decide)
    · exact absurd hblank (by decide)
  intro e he
  rw [listing_eq] at he
  -- The file has attributes of its own, which are fixed for its language.
  rcases List.mem_cons.1 he with rfl | he
  · have hname : '\n' ∉ l.name.toList :=
      forall_mem_byExtension (motive := fun l => '\n' ∉ l.name.toList) (by decide) (by decide)
        (by decide) (by decide) (by decide) (by decide) l hl
    have hfile : ((Payload.mk fileName .empty).withAttribute "language" l.name).Fine
        fun _ => True :=
      Payload.Fine.withAttribute ⟨fun _ _ => trivial, fun a ha => by cases ha⟩ (by decide) hname
    unfold fileEntry
    dsimp only
    split
    · exact (hfile.withAttribute (by decide) (by decide)).attributes
    · exact hfile.attributes
  · exact (fine_gatherAll (keeps l hl) hok (fun c hc => by cases hc) _ _ e he).attributes

/-- No name of a listing has a control character, if neither the name of the file nor the source
has one that is not blank. -/
theorem name_listing (hl : l ∈ byExtension.map (·.2)) {fileName : String} (t : SyntaxTree)
    (hfile : ∀ c ∈ fileName.toList, Text.isControl c = false)
    (hsource : ∀ c, Text.isControl c = true → Text.isBlank c = false →
      ¬ String.utf8EncodeChar c <:+: source) :
    ∀ e ∈ l.listing fileName source t, ∀ c ∈ e.payload.name.toList, Text.isControl c = false := by
  -- The only blank in a text is the space; all else stands in the source, where no control
  -- character is that is not blank.
  have hok : Alphabet (Text.isControl · = false) source := by
    refine ⟨fun hs c hc => ?_, by decide, by decide, by decide⟩
    rcases SyntaxNode.of_mem_text? hs hc with rfl | ⟨hbytes, hblank⟩
    · decide
    · exact Bool.eq_false_iff.2 fun hcontrol => hsource c hcontrol hblank hbytes
  intro e he
  rw [listing_eq] at he
  rcases List.mem_cons.1 he with rfl | he
  · unfold fileEntry
    dsimp only
    split
    · exact hfile
    · exact hfile
  · exact (fine_gatherAll (keeps l hl) hok (fun c hc => by cases hc) _ _ e he).name

end Language

/-- What a list whose depths nest comes to: the first payload with a fault decides. Building stops
at the first fault of any kind, and here only payloads can have one. -/
theorem Placed.ofEntries_cases {ss : List Stub} (h : Placed ss) {es : List Entry}
    (hes : ss.map (·.2) = es) :
    (es.findSome? (·.payload.fault?) = none ∧ ∃ t, Tree.ofEntries es = .ok t) ∨
      ∃ p, es.findSome? (·.payload.fault?) = some p ∧
        Tree.ofEntries es = .error (.malformedPayload p) := by
  have hfault := h.faultAt?_eq
  rw [hes] at hfault
  rcases Outline.ofEntries_cases es with ⟨hnested, t, ht, -⟩ | ⟨fault, herror, hfirst⟩
  · exact .inl ⟨List.findSome?_eq_none_iff.2 hnested.payload, t, ht⟩
  · rcases hfirst with ⟨hnil, -⟩ | ⟨i, hi, hbefore⟩
    · exact absurd (List.map_eq_nil_iff.1 (hes.trans hnil)) h.nests.1
    · rw [hfault] at hi
      obtain ⟨e, he, hi⟩ := Option.bind_eq_some_iff.1 hi
      obtain ⟨p, hp, rfl⟩ := Option.map_eq_some_iff.1 hi
      obtain ⟨hlt, rfl⟩ := List.getElem?_eq_some_iff.1 he
      -- The entries before the fault are without one, so this is the first payload that is at
      -- fault.
      refine .inr ⟨p, List.findSome?_eq_some_iff.2
        ⟨es.take i, es[i], es.drop (i + 1), ?_, hp, fun x hx => ?_⟩, herror⟩
      · rw [← List.drop_eq_getElem_cons hlt, List.take_append_drop]
      · obtain ⟨j, hj, rfl⟩ := List.mem_take_iff_getElem.1 hx
        have hjl : j < es.length := by omega
        have hnone := hbefore j (by omega)
        rw [hfault, List.getElem?_eq_getElem hjl, Option.bind_some] at hnone
        exact Option.map_eq_none_iff.1 hnone

/-- Whether the name of a declaration has a control character. -/
def Entry.hasOddName (e : Entry) : Bool := e.payload.name.toList.any Text.isControl

/-- If the attributes are without fault, only the name can be at fault. -/
theorem Payload.fault?_eq {p : Payload}
    (h : ∀ a ∈ p.attributes.entries, Payload.entryFault? a = none) :
    p.fault? = if p.name.toList.any Text.isControl then some (.controlInName p.name) else none := by
  rw [fault?, List.findSome?_eq_none_iff.2 h]

/-- The first fault of a listing is that of the first name with a control character. -/
theorem findSome?_fault? {es : List Entry}
    (h : ∀ e ∈ es, ∀ a ∈ e.payload.attributes.entries, Payload.entryFault? a = none) :
    es.findSome? (·.payload.fault?) =
      (es.find? Entry.hasOddName).map fun e => .controlInName e.payload.name := by
  induction es with
  | nil => rfl
  | cons e es ih =>
      have he := Payload.fault?_eq (h e List.mem_cons_self)
      have hes := ih fun d hd => h d (List.mem_cons_of_mem e hd)
      rw [List.findSome?_cons, List.find?_cons, he, Entry.hasOddName]
      cases e.payload.name.toList.any Text.isControl
      · exact hes
      · rfl

/-- A listing makes a tree if no name has a control character; otherwise the first such name
decides. -/
theorem Language.ofEntries_listing {l : Language} (hl : l ∈ byExtension.map (·.2))
    (fileName : String) (source : Bytes) (t : SyntaxTree) :
    ((l.listing fileName source t).find? Entry.hasOddName = none ∧
        ∃ tree, Tree.ofEntries (l.listing fileName source t) = .ok tree) ∨
      ∃ e, (l.listing fileName source t).find? Entry.hasOddName = some e ∧
        Tree.ofEntries (l.listing fileName source t) =
          .error (.malformedPayload (.controlInName e.payload.name)) := by
  have hfault := findSome?_fault? (l.attributes_listing hl fileName source t)
  rcases (l.placed_spec fileName source t).ofEntries_cases (l.placed_entries fileName source t) with
    ⟨hnone, htree⟩ | ⟨p, hp, herror⟩
  · rw [hnone] at hfault
    exact .inl ⟨Option.map_eq_none_iff.1 hfault.symm, htree⟩
  · rw [hp] at hfault
    obtain ⟨e, he, rfl⟩ := Option.map_eq_some_iff.1 hfault.symm
    exact .inr ⟨e, he, herror⟩

/-- **Only a control character in a name keeps a file from having a tree.** Of whatever source and
syntax tree the listing is, it makes a tree unless a name has a control character; then the first
such name is reported. If the name of the file has none, and the source has none but blank ones, the
file has a tree. -/
theorem Language.listing_builds (l : Language) (hl : l ∈ byExtension.map (·.2))
    (fileName : String) (source : Bytes) (t : SyntaxTree) :
    let es := l.listing fileName source t
    (es.find? Entry.hasOddName = none → ∃ tree, Tree.ofEntries es = .ok tree) ∧
      (∀ e, es.find? Entry.hasOddName = some e →
        Tree.ofEntries es = .error (.malformedPayload (.controlInName e.payload.name))) ∧
      ((∀ c ∈ fileName.toList, Text.isControl c = false) →
        (∀ c, Text.isControl c = true → Text.isBlank c = false →
          ¬ String.utf8EncodeChar c <:+: source) →
        ∃ tree, Tree.ofEntries es = .ok tree) := by
  intro es
  -- Whether there is an odd name decides all three parts; the last one because an odd name cannot
  -- be if the source has no such character.
  rcases ofEntries_listing hl fileName source t with ⟨hnone, htree⟩ | ⟨d, hd, herror⟩
  · refine ⟨fun _ => htree, fun e he => ?_, fun _ _ => htree⟩
    rw [hnone] at he
    cases he
  · refine ⟨fun hnone => ?_, fun e he => ?_, fun hfile hsource => ?_⟩
    · rw [hd] at hnone
      cases hnone
    · rw [hd] at he
      cases he
      exact herror
    · have hodd : d.hasOddName = true := List.find?_some hd
      obtain ⟨c, hc, hcontrol⟩ := List.any_eq_true.1 hodd
      rw [name_listing hl t hfile hsource d (List.mem_of_find?_eq_some hd) c hc] at hcontrol
      cases hcontrol

/-- A source of printable and blank characters has no control characters but blank ones. -/
theorem not_infix_of_printable {source : Bytes}
    (h : ∀ b ∈ source, b = 9 ∨ b = 10 ∨ 32 ≤ b.toNat ∧ b.toNat < 127) {c : Char}
    (hcontrol : Text.isControl c = true) (hblank : Text.isBlank c = false) :
    ¬ String.utf8EncodeChar c <:+: source := by
  intro hbytes
  obtain ⟨b, hb⟩ := List.exists_mem_of_ne_nil _ (List.ne_nil_of_length_pos
    (String.length_utf8EncodeChar c ▸ c.utf8Size_pos))
  have hrange := h b (hbytes.subset hb)
  have hcb := Text.toNat_of_mem_utf8EncodeChar hb
  have hnine : (9 : UInt8).toNat = 9 := rfl
  have hten : (10 : UInt8).toNat = 10 := rfl
  have hcontrol' : c.toNat < 32 ∨ 127 ≤ c.toNat := by
    simp only [Text.isControl, Bool.or_eq_true, Bool.and_eq_true, decide_eq_true_eq] at hcontrol
    omega
  have hblank' : ¬ (9 ≤ c.toNat ∧ c.toNat ≤ 13) := by
    intro hin
    simp [Text.isBlank, hin] at hblank
  -- `c` is its own byte, and of these only the tab and the line feed are control characters
  rcases hrange with rfl | rfl | hrange <;> omega

/-- A source with an import and a line end. -/
theorem Language.listing_builds_import :
    let source := "import b from 'lib';\n".toUTF8.toList
    let root : SyntaxNode := .mk none "program" true 0 21 0
      [.mk none "import_statement" true 0 20 0
        [.mk (some "source") "string" true 14 19 0 []]]
    let es := JavaScript.language.listing "a.js" source ⟨root, false⟩
    es.map (·.payload.name) = ["a.js", "lib"] ∧ ∃ tree, Tree.ofEntries es = .ok tree := by
  intro source root es
  have hprintable : ∀ b ∈ source, b = 9 ∨ b = 10 ∨ 32 ≤ b.toNat ∧ b.toNat < 127 := by
    decide +kernel
  have hname : "a.js".toList.all (!Text.isControl ·) = true := by decide
  obtain ⟨-, -, hbuilds⟩ := listing_builds JavaScript.language List.mem_cons_self "a.js" source
    ⟨root, false⟩
  refine ⟨?_, hbuilds (fun c hc => ?_) fun c => not_infix_of_printable hprintable⟩
  · rw [show es = _ from listing_eq ..]
    decide +kernel
  · simpa using List.all_eq_true.1 hname c hc

/-- A bell in the path of an import keeps the whole file from having a tree. -/
theorem Language.not_builds_bell :
    let source := "import b from 'bell\x07here';\nfunction f() {}\n".toUTF8.toList
    let token (kind : String) (start stop row : Nat) : SyntaxNode :=
      .mk none kind false start stop row []
    let root : SyntaxNode := .mk none "program" true 0 43 0
      [.mk none "import_statement" true 0 26 0
        [token "import" 0 6 0,
          .mk none "import_clause" true 7 8 0 [.mk none "identifier" true 7 8 0 []],
          token "from" 9 13 0,
          .mk (some "source") "string" true 14 25 0
            [token "'" 14 15 0, .mk none "string_fragment" true 15 24 0 [], token "'" 24 25 0],
          token ";" 25 26 0],
        .mk none "function_declaration" true 27 42 1
          [token "function" 27 35 1, .mk (some "name") "identifier" true 36 37 1 [],
            .mk (some "parameters") "formal_parameters" true 37 39 1
              [token "(" 37 38 1, token ")" 38 39 1],
            .mk (some "body") "statement_block" true 40 42 1
              [token "\x7b" 40 41 1, token "\x7d" 41 42 1]]]
    let es := JavaScript.language.listing "ctrl2.js" source ⟨root, false⟩
    es.map (·.payload.name) = ["ctrl2.js", "bell\x07here", "f"] ∧
      Tree.ofEntries es = .error (.malformedPayload (.controlInName "bell\x07here")) := by
  intro source token root es
  have hnames : es.map (·.payload.name) = ["ctrl2.js", "bell\x07here", "f"] := by
    rw [show es = _ from listing_eq ..]
    decide +kernel
  have hodd : (es.find? Entry.hasOddName).map (·.payload.name) = some "bell\x07here" := by
    rw [show es = _ from listing_eq ..]
    decide +kernel
  rcases ofEntries_listing (l := JavaScript.language) List.mem_cons_self "ctrl2.js" source
    ⟨root, false⟩ with ⟨hnone, -⟩ | ⟨e, he, herror⟩
  · rw [show es.find? _ = _ from hnone] at hodd
    cases hodd
  · rw [show es.find? _ = _ from he] at hodd
    have hname : e.payload.name = "bell\x07here" := Option.some.inj hodd
    rw [hname] at herror
    exact ⟨hnames, herror⟩

end Outline
