import Outline.Proofs.Syntax.Receivers

/-!
# Outline.Proofs.Syntax.Entries

**Which construct an entry is of, and what it says.** What a construct of a tree declares
(`Language.Declares`) is made from a rule for the construct and a part of it that has a text
(`Language.Declares.exists_rule`). What a language amends is told part by part: an attribute that is
set has its value, and every other one stays.

What an entry says is thus told by three equations, one for each of rule, draft and amendment, and
none of the results on bases, modifiers or remarks has to look into the walk.
-/

namespace Outline

namespace Draft

variable (d : Draft) (key : String) (other : String)

/-- An attribute that is set, and every other one. -/
theorem attribute?_set (value : String) :
    (d.set key value).payload.attribute? other =
      if key = other then some value else d.payload.attribute? other :=
  Payload.attribute?_withAttribute d.payload key value other

/-- An attribute that is set if there is a value. -/
theorem attribute?_set? (value : Option String) :
    (d.set? key value).payload.attribute? other =
      if key = other then value.or (d.payload.attribute? other)
      else d.payload.attribute? other := by
  cases value with
  | none => exact (ite_self _).symm
  | some v => exact d.attribute?_set key other v

theorem kind_set? (value : Option String) : (d.set? key value).kind = d.kind := by
  cases value <;> rfl

theorem name_set? (value : Option String) :
    (d.set? key value).payload.name = d.payload.name := by
  cases value <;> rfl

end Draft

/-! ### What languages amend

Only the branches that matter to some result are told, each for the construct that it is about: the
names that Go and Python keep, the one that Java makes longer, the bases in Java and Python, and the
receiver in Go. -/

/-- No branch for Go renames; the methods get a receiver and everything else a mark at most. -/
theorem Go.name_amend (s : Site) (d : Draft) : (Go.amend s d).payload.name = d.payload.name := by
  have hmark : ∀ d : Draft, (Go.markExported d).payload.name = d.payload.name := fun d => by
    unfold Go.markExported
    split <;> rfl
  unfold Go.amend
  split
  · exact hmark _
  · exact (hmark _).trans (d.name_set? _ _)
  · exact d.name_set? _ _
  · rfl
  · exact hmark d

/-- Being static is noted in an attribute, and says nothing of the name. -/
theorem Java.name_amendImport (s : Site) (d : Draft) :
    (Java.amendImport s d).payload.name =
      if (s.node.childOfKind? "asterisk").isSome then d.payload.name ++ ".*"
      else d.payload.name := by
  unfold Java.amendImport
  dsimp only
  split <;> split <;> rfl

/-- Only an import of all members has another name than its rule gives. -/
theorem Java.name_amend (s : Site) (d : Draft) :
    (Java.amend s d).payload.name =
      if s.node.kind = "import_declaration" ∧ (s.node.childOfKind? "asterisk").isSome then
        d.payload.name ++ ".*"
      else d.payload.name := by
  have hmodifiers := fun modifiers => Java.name_applyModifiers modifiers d
  unfold Java.amend
  dsimp only
  -- With modifiers in front or without, the name is the same; so the branches on the construct
  -- decide.
  generalize s.text? (s.node.childOfKind? "modifiers") = text
  split
  · rename_i hkind
    rw [Draft.name_set?, if_neg fun h => absurd (hkind.symm.trans h.1) (by decide)]
    cases text <;> simp only [hmodifiers]
  · rename_i hkind
    rw [Java.name_amendImport]
    cases text <;> simp only [hmodifiers, hkind, true_and]
  · rename_i hother
    rw [if_neg fun h => hother h.1]
    cases text <;> simp only [hmodifiers]

/-- What a class extends is the first part of its `superclass`, unless an attribute of this key was
there before. -/
theorem Java.extends_amend {s : Site} (hkind : s.node.kind = "class_declaration") {d : Draft}
    (hd : d.payload.attribute? "extends" = none) :
    (Java.amend s d).payload.attribute? "extends" =
      s.text? ((s.node.child? "superclass").bind (·.firstNamed?)) := by
  -- The modifiers are kept under a key of their own, and so is the visibility.
  have hmodifiers : ∀ modifiers, (Java.applyModifiers modifiers d).payload.attribute? "extends" =
      none := fun modifiers => by
    unfold Java.applyModifiers
    dsimp only
    rw [Draft.attribute?_set, if_neg (by decide)]
    split <;> exact (d.attribute?_set? _ _ _).trans ((if_neg (by decide)).trans hd)
  unfold Java.amend
  simp only [hkind]
  rw [Draft.attribute?_set?, if_pos rfl]
  generalize s.text? (s.node.childOfKind? "modifiers") = text
  cases text <;> simp only [hmodifiers, hd, Option.or_none]

/-- A name with an underscore is marked, and stays as it is. -/
theorem Python.name_markPrivate (d : Draft) :
    (Python.markPrivate d).payload.name = d.payload.name := by
  unfold Python.markPrivate
  dsimp only
  split <;> rfl

/-- The mark is the visibility; all else stays. -/
theorem Python.attribute?_markPrivate (d : Draft) {key : String} (hkey : key ≠ "visibility") :
    (Python.markPrivate d).payload.attribute? key = d.payload.attribute? key := by
  unfold Python.markPrivate
  dsimp only
  split
  · rw [Draft.attribute?_set, if_neg hkey.symm]
  · rfl

/-- Of a class the first part in its parentheses is set as its base, whatever part this is. -/
theorem Python.attribute?_amend_class {s : Site} (hkind : s.node.kind = "class_definition")
    (d : Draft) {key : String} (hkey : key ≠ "visibility") :
    (Python.amend s d).payload.attribute? key =
      if "extends" = key then
        (s.text? ((s.node.child? "superclasses").bind (·.firstNamed?))).or
          (d.payload.attribute? key)
      else d.payload.attribute? key := by
  unfold Python.amend
  simp only [hkind]
  rw [Python.attribute?_markPrivate _ hkey, Draft.attribute?_set?]

/-- The receiver of a method is read off the method. It is set before the mark is, which has another
key. -/
theorem Go.receiver_amend {s : Site} (hkind : s.node.kind = "method_declaration") {v : String}
    (hv : Go.receiver? s = some v) (d : Draft) :
    (Go.amend s d).payload.attribute? "receiver" = some v := by
  have hset : (d.set? "receiver" (some v)).payload.attribute? "receiver" = some v := by
    rw [Draft.attribute?_set?, if_pos rfl, Option.some_or]
  unfold Go.amend Go.markExported
  simp only [hkind, hv]
  split
  · rw [Draft.attribute?_set, if_neg (by decide), hset]
  · exact hset

namespace Language

variable {l : Language} {source : Bytes}

/-- An entry is made from a rule for a construct and a part of the construct that has a text. -/
theorem entry?_eq_some_iff {site : Site} {scope : Scope} {e : Entry} :
    l.entry? site scope = some e ↔
      ∃ r part name, l.rule? site.node.kind = some r ∧ r.name.resolve? site.node = some part ∧
        part.text? site.source = some name ∧
        e = ⟨(l.amend site (draft r name site.node.row scope)).kind,
          (l.amend site (draft r name site.node.row scope)).payload, scope.depth⟩ := by
  unfold entry?
  simp only [Option.bind_eq_bind, Option.bind_eq_some_iff, Option.pure_def, Option.some.injEq]
  constructor
  · rintro ⟨r, hr, part, hpart, name, hname, rfl⟩
    exact ⟨r, part, name, hr, hpart, hname, rfl⟩
  · rintro ⟨r, part, name, hr, hpart, hname, rfl⟩
    exact ⟨r, hr, part, hpart, name, hname, rfl⟩

/-- A rule without a kind for nested constructs gives its own kind in every scope. -/
theorem kind_draft {r : Rule} (h : r.nestedKind = none) (name : String) (row : Nat)
    (scope : Scope) : (draft r name row scope).kind = r.kind := by
  rw [(draft_spec r name row scope).1, kindIn, h]

/-- A rule gives nothing but the line and the receiver. -/
theorem attribute?_draft {key : String} (hline : key ≠ "line") (hreceiver : key ≠ "receiver")
    (r : Rule) (name : String) (row : Nat) (scope : Scope) :
    (draft r name row scope).payload.attribute? key = none := by
  have hgiven : ((Payload.mk name .empty).withAttribute "line"
      (toString (row + 1))).attribute? key = none := by
    rw [Payload.attribute?_withAttribute, if_neg hline.symm]
    rfl
  -- Whether the rule adds a receiver or not.
  have hset : ∀ {c : Prop} [Decidable c] (d : Draft) (value : String),
      d.payload.attribute? key = none →
      (if c then d.set "receiver" value else d).payload.attribute? key = none := by
    intro c _ d value hd
    split
    · rw [Draft.attribute?_set, if_neg hreceiver.symm, hd]
    · exact hd
  exact hset ⟨_, _⟩ scope.name hgiven

/-- The construct `n` of a tree declares `e`. -/
def Declares (l : Language) (source : Bytes) (t : SyntaxTree) (n : SyntaxNode) (e : Entry) :
    Prop :=
  ∃ path, (path, e) ∈ l.stubsAll source .file t.root.kind [] 0 t.root.children ∧
    t.root.at? path = some n

variable {t : SyntaxTree} {n : SyntaxNode} {e : Entry}

/-- A declaration that is known by its path and by something it says. This is how the listing of a
given tree is taken apart: it is computed, and a path in it leads to the construct. -/
theorem exists_declares {α : Type} (f : Entry → α) (a : α) (path : List Nat)
    (h : (path, a) ∈ (l.stubsAll source .file t.root.kind [] 0 t.root.children).map
      fun s => (s.1, f s.2)) (hn : t.root.at? path = some n) :
    ∃ e, l.Declares source t n e ∧ f e = a := by
  obtain ⟨⟨path, e⟩, hmem, heq⟩ := List.mem_map.1 h
  obtain ⟨rfl, rfl⟩ := Prod.mk.inj heq
  exact ⟨e, ⟨_, hmem, hn⟩, rfl⟩

/-- What a construct declares, it declares in some scope. -/
theorem Declares.exists_entry (h : l.Declares source t n e) :
    n.named = true ∧ ∃ kind around, l.entry? ⟨n, kind, source⟩ around = some e := by
  obtain ⟨path, hmem, hat⟩ := h
  obtain ⟨k, rest, c, m, hpath, hc, hm, hnamed, hentry⟩ := stubsAll_path hmem
  have hsame : t.root.at? path = some m := by
    rw [show path = _ from hpath, Nat.zero_add, List.nil_append, SyntaxNode.at?, hc]
    exact hm
  obtain rfl := Option.some.inj (hat.symm.trans hsame)
  exact ⟨hnamed, hentry⟩

/-- What a construct declares is made from a rule for the construct. -/
theorem Declares.exists_rule (h : l.Declares source t n e) :
    ∃ kind around r part name, l.rule? n.kind = some r ∧ r.name.resolve? n = some part ∧
      part.text? source = some name ∧
      e = ⟨(l.amend ⟨n, kind, source⟩ (draft r name n.row around)).kind,
        (l.amend ⟨n, kind, source⟩ (draft r name n.row around)).payload, around.depth⟩ := by
  obtain ⟨-, kind, around, hentry⟩ := h.exists_entry
  exact ⟨kind, around, entry?_eq_some_iff.1 hentry⟩

end Language

end Outline
