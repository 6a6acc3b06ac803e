import Outline.Proofs.Live.Calls
import Outline.Proofs.Syntax.Buildable
import Outline.Proofs.Tree.RoundTrip
import Outline.Syntax.Languages

/-!
# Outline.Proofs.Syntax.Named

**Every declaration has a name, so every node has a live node.** The text of a node is not empty,
and a language that renames a declaration takes another text of a node for it, or adds to the name
(`Language.Renames`). So in a listing only the file may lack a name, which is the one kind that the
standard factory does not need a name for (`Tree.Materializes`).

The proof has the shape of the one on characters: one property of what a language does to a name
(`Site.Renamed`), one lemma for each language, and the listing as a whole. No walk is needed here,
since an entry has its name from its own construct and not from the scopes around it.
-/

namespace Outline

/-! ### Names of declarations

The text of a node is tidied, and a node with nothing left has no text. So a name is there if it
comes from a node, and stays there if something is added to it. -/

/-- A text is what is left of a node when it is tidied, and never nothing. -/
theorem SyntaxNode.ne_empty_of_text? {n : SyntaxNode} {source : Bytes} {s : String}
    (h : n.text? source = some s) : s ≠ "" := by
  dsimp only [text?] at h
  split at h
  · cases h
  · split at h
    · cases h
    · rename_i htidy
      rw [← Option.some.inj h]
      exact fun hempty => htidy (String.ofList_eq_empty_iff.1 hempty)

/-- The same for what a language reads of a part of the node. -/
theorem Site.ne_empty_of_text? {s : Site} {part : Option SyntaxNode} {v : String}
    (h : s.text? part = some v) : v ≠ "" := by
  obtain ⟨n, -, hn⟩ := Option.bind_eq_some_iff.1 h
  exact SyntaxNode.ne_empty_of_text? hn

/-- What may become of the name of a declaration: it stays, is made longer, or gives way to the text
of a node. -/
def Site.Renamed (s : Site) (d e : Draft) : Prop :=
  e.payload.name = d.payload.name ∨ (∃ more, e.payload.name = d.payload.name ++ more) ∨
    ∃ part, s.text? part = some e.payload.name

namespace Site.Renamed

variable {s : Site} {d e : Draft}

/-- In each of the three ways a declaration with a name keeps having one. -/
theorem ne_empty (h : s.Renamed d e) (hd : d.payload.name ≠ "") : e.payload.name ≠ "" := by
  rcases h with h | ⟨more, h⟩ | ⟨part, h⟩
  · rwa [h]
  · rw [h]
    exact fun hempty => hd (String.append_eq_empty_iff.1 hempty).1
  · exact Site.ne_empty_of_text? h

theorem refl (s : Site) (d : Draft) : s.Renamed d d := .inl rfl

theorem set (h : s.Renamed d e) (key value : String) : s.Renamed d (e.set key value) := h

theorem set? (h : s.Renamed d e) (key : String) (value : Option String) :
    s.Renamed d (e.set? key value) := by
  cases value with
  | none => exact h
  | some v => exact h.set key v

/-- A language that chooses keeps a name on both sides. -/
theorem either {c : Prop} [Decidable c] {e' : Draft} (h : s.Renamed d e) (h' : s.Renamed d e') :
    s.Renamed d (if c then e else e') := by
  split
  · exact h
  · exact h'

/-- A part that has no text gives no name, and the old one stays. -/
theorem rename? (h : s.Renamed d e) (part : Option SyntaxNode) :
    s.Renamed d (e.rename? (s.text? part)) := by
  cases hv : s.text? part with
  | none => exact h
  | some v => exact .inr (.inr ⟨part, hv⟩)

end Site.Renamed

/-- A language that takes new names only from texts of nodes, or makes a name longer. -/
def Language.Renames (l : Language) : Prop := ∀ (s : Site) (d : Draft), s.Renamed d (l.amend s d)

section

open Site.Renamed (refl either)

variable {s : Site} {d e : Draft}

theorem Go.renamed_markExported (h : s.Renamed d e) : s.Renamed d (Go.markExported e) :=
  either (h.set _ _) h

theorem Go.renames : Go.language.Renames := by
  intro s d
  show s.Renamed d (Go.amend s d)
  unfold Go.amend
  split
  · exact renamed_markExported (e := ⟨_, d.payload⟩) (.inl rfl)
  · exact renamed_markExported ((refl s d).set? _ _)
  · exact (refl s d).set? _ _
  · exact refl s d
  · exact renamed_markExported (refl s d)

/-- Modifiers are attributes and leave the name alone. -/
theorem Java.name_applyModifiers (modifiers : String) (d : Draft) :
    (Java.applyModifiers modifiers d).payload.name = d.payload.name := by
  unfold Java.applyModifiers
  dsimp only
  split <;> cases Java.visibilities.find? _ <;> rfl

/-- An import of all members is the only one whose name is made longer. -/
theorem Java.renamed_amendImport {m : Draft} (hm : m.payload.name = d.payload.name) :
    s.Renamed d (Java.amendImport s m) := by
  have hall : s.Renamed d (m.rename? (some (m.payload.name ++ ".*"))) :=
    .inr (.inl ⟨".*", by rw [← hm]; rfl⟩)
  exact either ((either hall (.inl hm)).set _ _) (either hall (.inl hm))

theorem Java.renames : Java.language.Renames := by
  intro s d
  show s.Renamed d (Java.amend s d)
  unfold Java.amend
  dsimp only
  split
  -- Each kind of construct with modifiers in front of it and without.
  · split
    · exact Site.Renamed.set? (.inl (name_applyModifiers _ d)) _ _
    · exact (refl s d).set? _ _
  · split
    · exact renamed_amendImport (name_applyModifiers _ d)
    · exact renamed_amendImport rfl
  · split
    · exact .inl (name_applyModifiers _ d)
    · exact refl s d

theorem JavaScript.renames : JavaScript.language.Renames := by
  intro s d
  show s.Renamed d (JavaScript.amend s d)
  have hbase : s.Renamed d (if s.node.kind == "class_declaration" then
      d.set? "extends" (s.text? ((s.node.childOfKind? "class_heritage").bind (·.firstNamed?)))
    else d) :=
    either ((refl s d).set? _ _) (refl s d)
  exact either (hbase.set _ _) hbase

theorem Python.renamed_markPrivate (h : s.Renamed d e) : s.Renamed d (Python.markPrivate e) :=
  either (h.set _ _) h

theorem Python.renames : Python.language.Renames := by
  intro s d
  show s.Renamed d (Python.amend s d)
  unfold Python.amend
  split
  · exact renamed_markPrivate ((refl s d).set? _ _)
  · split
    · exact renamed_markPrivate (either (((refl s d).rename? _).set? _ _) (refl s d))
    · exact refl s d
  · exact renamed_markPrivate (refl s d)

theorem Rust.renames : Rust.language.Renames := by
  intro s d
  show s.Renamed d (Rust.amend s d)
  have hvisible : s.Renamed d (d.set? "visibility"
      (s.text? (s.node.childOfKind? "visibility_modifier"))) := (refl s d).set? _ _
  unfold Rust.amend
  dsimp only
  split
  · exact hvisible.set? _ _
  · exact hvisible.set _ _
  · split
    · exact either ((hvisible.rename? _).set? _ _) hvisible
    · exact hvisible
  · exact hvisible

theorem TypeScript.renames : TypeScript.language.Renames := by
  intro s d
  show s.Renamed d (TypeScript.amend s d)
  have hvisible : s.Renamed d (d.set? "visibility"
      (s.text? (s.node.childOfKind? "accessibility_modifier"))) := (refl s d).set? _ _
  unfold TypeScript.amend
  refine either (Site.Renamed.set ?_ _ _) ?_ <;>
    · split
      · exact hvisible.set? _ _
      · exact hvisible.set? _ _
      · exact hvisible

end

namespace Language

variable {l : Language}

theorem renames : ∀ l ∈ byExtension.map (·.2), l.Renames :=
  forall_mem_byExtension Go.renames Java.renames JavaScript.renames Python.renames Rust.renames
    TypeScript.renames

/-- A rule gives the name that it is given, whether there is a receiver or not. -/
theorem name_draft (r : Rule) (name : String) (row : Nat) (scope : Scope) :
    (draft r name row scope).payload.name = name := by
  have hite : ∀ {c : Prop} [Decidable c] (a b : Draft), a.payload.name = name →
      b.payload.name = name → (if c then a else b).payload.name = name := by
    intro c _ a b ha hb
    split
    · exact ha
    · exact hb
  exact hite _ _ rfl rfl

/-- What a construct declares has a name. -/
theorem ne_empty_of_entry? (hl : l.Renames) {site : Site} {scope : Scope} {e : Entry}
    (he : l.entry? site scope = some e) : e.payload.name ≠ "" := by
  obtain ⟨r, -, he⟩ := Option.bind_eq_some_iff.1 he
  obtain ⟨part, -, he⟩ := Option.bind_eq_some_iff.1 he
  obtain ⟨name, hname, he⟩ := Option.bind_eq_some_iff.1 he
  cases he
  refine (hl site _).ne_empty ?_
  rw [name_draft]
  exact SyntaxNode.ne_empty_of_text? hname

/-- Everything in a listing but the file has a name. -/
theorem ne_empty_of_mem_listing (hl : l ∈ byExtension.map (·.2)) (fileName : String)
    (source : Bytes) (t : SyntaxTree) :
    ∀ e ∈ (l.listing fileName source t).tail, e.payload.name ≠ "" := by
  intro e he
  rw [listing_eq, List.tail_cons, ← stubsAll_entries .file t.root.kind [] 0] at he
  obtain ⟨s, hs, rfl⟩ := List.mem_map.1 he
  obtain ⟨-, -, -, m, -, -, -, -, kind, around, hentry⟩ := stubsAll_path hs
  exact ne_empty_of_entry? (renames l hl) hentry

end Language

/-! ### Live nodes for all

Of the registry only one thing is used: the standard factory refuses a node for want of a name and
for nothing else. The live node may have been made before by any calls with any registries; it
stays, and it still tells where its node is and of which kind. -/

/-- Only files lack a name. -/
def Tree.Named (t : Tree) : Prop :=
  ∀ i n, t.node? i = some n → n.kind = .file ∨ n.payload.name ≠ ""

/-- Every node has a live node with the standard registry, whatever calls have been made before; the
live node tells the place and the kind of its node. -/
def Tree.Materializes (t : Tree) : Prop :=
  ∀ (calls : List LiveCall) (i : NodeId) (n : Node), t.node? i = some n →
    ∃ live : LiveNode, ((LiveCall.live .standard i).run t (t.after calls)).1 = .ok [live] ∧
      live.id = i ∧ live.parent = n.parent ∧ live.kind = n.kind

/-- The standard factory fails for want of a name only. -/
theorem exists_standardFactory (t : Tree) {n : NodeRef}
    (h : n.kind = .file ∨ n.payload.name ≠ "") : ∃ x, standardFactory t n = .ok x := by
  have hrequired : n.payload.name ≠ "" → n.toNode.requiredName = .ok n.payload.name := by
    intro hname
    rw [Node.requiredName, if_neg (by simpa using hname)]
  unfold standardFactory
  cases hkind : n.kind with
  | file => exact ⟨_, rfl⟩
  -- Every other kind is made from the name and attributes that it may or may not have.
  | _ =>
      have hname := h.resolve_left (by rw [hkind]; exact fun hfile => nomatch hfile)
      dsimp only
      rw [hrequired hname]
      exact ⟨_, rfl⟩

/-- The registry has the standard factory for every kind, so it makes the node if the factory does.
-/
theorem Registry.exists_materialize_standard {t : Tree} {i : NodeId} {n : Node}
    (hn : t.node? i = some n) (h : n.kind = .file ∨ n.payload.name ≠ "") :
    ∃ live, Registry.standard.materialize t i = .ok live := by
  obtain ⟨x, hx⟩ := exists_standardFactory t (n := ⟨n, i⟩) h
  have hfactory : Registry.standard.factory? n.kind = some standardFactory := rfl
  refine ⟨⟨i, n.parent, n.kind, x⟩, ?_⟩
  rw [materialize, hn]
  simp only [hfactory, hx]

/-- What is made for a node tells its place and its kind. -/
theorem MadeFor.tells {t : Tree} {r : Registry} {i : NodeId} {n : Node} {live : LiveNode}
    (h : MadeFor t r i live) (hn : t.node? i = some n) :
    live.id = i ∧ live.parent = n.parent ∧ live.kind = n.kind := by
  obtain ⟨m, -, hm, hkind, -⟩ := h.element
  rw [Option.some.inj (hn.symm.trans hm)]
  exact ⟨h.id, h.parent.trans (Tree.parent?_of_some hm), hkind⟩

/-- A tree in which only files lack a name has a live node for each of its nodes. -/
theorem Tree.Named.materializes {t : Tree} (h : t.Named) : t.Materializes := by
  intro calls i n hn
  -- either an earlier call has made the live node, or the standard registry makes it now
  have hhad : ∃ live r, (t.after calls).had t .standard i = .ok live ∧ MadeFor t r i live := by
    cases hi : (t.after calls).live? i with
    | some live =>
        obtain ⟨-, c, -, -, -, -, hmade⟩ := madeBy_of_after hi
        exact ⟨live, c.registry, Slots.had_of_some hi, hmade⟩
    | none =>
        obtain ⟨live, hlive⟩ := Registry.exists_materialize_standard hn (h i n hn)
        exact ⟨live, .standard, (Slots.had_of_none hi).trans hlive,
          Registry.madeFor_of_materialize hlive⟩
  obtain ⟨live, r, hlive, hmade⟩ := hhad
  refine ⟨live, ?_, hmade.tells hn⟩
  rw [LiveCall.run_live, (on_live (t.size_after calls) i).1, hlive]
  rfl

/-- **Every declaration of a listing has a name, so every node has a live node.** In a listing of
any language only the file may lack a name. So if there is a tree, the standard registry makes a
live node of each of its nodes, and of each node of the tree that is read back from its bytes. -/
theorem Language.listing_materializes (l : Language) (hl : l ∈ byExtension.map (·.2))
    (fileName : String) (source : Bytes) (t : SyntaxTree) :
    let es := l.listing fileName source t
    (∀ e ∈ es.tail, e.payload.name ≠ "") ∧
      ∀ tree, Tree.ofEntries es = .ok tree → tree.Materializes ∧
        (tree.size ≤ Nat.pow 2 32 → ∀ f,
          ∃ d, Tree.decode (tree.encode f) = .ok (f, d) ∧ d.Materializes) := by
  intro es
  have hnames := ne_empty_of_mem_listing hl fileName source t
  refine ⟨hnames, fun tree htree => ?_⟩
  -- A node of the tree is an entry of the listing: the first is the file, all others have names.
  have hnamed : tree.Named := by
    intro i n hn
    obtain ⟨e, he, hkind, hpayload⟩ := (describes_of_ofEntries htree).exists_entry hn
    rw [hkind, hpayload]
    cases i with
    | zero =>
        refine .inl ?_
        have hfile : es[0]? = some (l.fileEntry fileName t.hasError) := by
          rw [show es = _ from listing_eq ..]
          rfl
        rw [Option.some.inj (he.symm.trans hfile)]
        rfl
    | succ i =>
        refine .inr (hnames _ (List.mem_of_getElem? (i := i) ?_))
        rw [List.getElem?_tail, he]
  refine ⟨hnamed.materializes, fun hsize f => ⟨tree, ?_, hnamed.materializes⟩⟩
  exact Tree.decode_encode_of_preorder f hsize (Tree.preorder_of_ofEntries htree)

/-- An import under another name, which is known by the path of what it imports. -/
theorem Language.listing_materializes_alias :
    let source := "import os.path as p\n".toUTF8.toList
    let root : SyntaxNode := .mk none "module" true 0 20 0
      [.mk none "import_statement" true 0 19 0
        [.mk (some "name") "aliased_import" true 7 19 0
          [.mk (some "name") "dotted_name" true 7 14 0 [],
            .mk (some "alias") "identifier" true 18 19 0 []]]]
    let es := Python.language.listing "a.py" source ⟨root, false⟩
    es.map (·.payload.name) = ["a.py", "os.path"] ∧ (∀ e ∈ es.tail, e.payload.name ≠ "") ∧
      ∃ tree d, Tree.ofEntries es = .ok tree ∧ tree.Materializes ∧
        Tree.decode (tree.encode (.ofContent source)) = .ok (.ofContent source, d) ∧
        d.Materializes := by
  intro source root es
  have hl : Python.language ∈ byExtension.map (·.2) := by
    simp only [byExtension, List.map_cons, List.mem_cons, true_or, or_true]
  have hnames : es.map (·.payload.name) = ["a.py", "os.path"] := by
    rw [show es = _ from listing_eq ..]
    decide +kernel
  obtain ⟨hnamed, hlive⟩ := listing_materializes Python.language hl "a.py" source ⟨root, false⟩
  have hodd : es.find? Entry.hasOddName = none := by
    rw [show es = _ from listing_eq ..]
    decide +kernel
  rcases ofEntries_listing hl "a.py" source ⟨root, false⟩ with ⟨-, tree, htree⟩ | ⟨e, he, -⟩
  · obtain ⟨hmade, hback⟩ := hlive tree htree
    have hsize : tree.size ≤ Nat.pow 2 32 := by
      rw [(describes_of_ofEntries htree).size, ← List.length_map (·.payload.name),
        show (List.map _ _ : List String) = _ from hnames]
      decide
    obtain ⟨d, hd, hagain⟩ := hback hsize (.ofContent source)
    exact ⟨hnames, hnamed, tree, d, htree, hmade, hd, hagain⟩
  · rw [show es.find? _ = _ from he] at hodd
    cases hodd

end Outline
