import Outline.Proofs.Syntax.Walk
import Outline.Proofs.Tree.Nesting
import Outline.Syntax.Languages

/-!
# Outline.Proofs.Syntax.Naming

**A grammar under which a text tells what it is.** `Grammar.naming` takes the whole of a text for
the name of one function, so outlines of different texts are different, and an outline shows of
which text it is (`exists_tree_naming`). It is the grammar to look at where what matters is which
content an answer belongs to.
-/

namespace Outline

/-- The grammar of texts that are names: there is one function, and the text is its name. -/
def Grammar.naming : Grammar := fun _ source =>
  ⟨.mk none "module" true 0 source.length 0
    [.mk none "function_definition" true 0 source.length 0
      [.mk (some "name") "identifier" true 0 source.length 0 []]], false⟩

/-- The declarations of a Python file with nothing but a function of the given name. -/
def namingEntries (fileName name : String) : List Entry :=
  [Python.language.fileEntry fileName false,
    ⟨.function, (Payload.mk name .empty).withAttribute "line" "1", 1⟩]

variable {fileName name : String} {source : Bytes} {p : Path}

/-- A text that is a name is listed under this name. One that begins with an underscore would be
private besides. -/
theorem listing_naming (hfile : p.fileName? = some fileName) (hextension : p.extension? = some "py")
    (hname : (SyntaxNode.mk (some "name") "identifier" true 0 source.length 0 []).text? source =
      some name) (hpublic : name.toList.head? ≠ some '_') :
    listingOf? .naming p source = some (namingEntries fileName name) := by
  have hlanguage : Language.ofExtension? ("." ++ "py") = some Python.language := rfl
  have hmark : ∀ d : Draft, d.payload.name = name → Python.markPrivate d = d := fun d hd => by
    unfold Python.markPrivate
    dsimp only
    rw [hd, beq_false_of_ne hpublic]
    rfl
  let part : SyntaxNode := .mk (some "name") "identifier" true 0 source.length 0 []
  have hentry : Python.language.entry?
      ⟨.mk none "function_definition" true 0 source.length 0 [part], "module", source⟩ .file =
        some ⟨.function, (Payload.mk name .empty).withAttribute "line" "1", 1⟩ := by
    show (part.text? source).bind _ = _
    rw [hname]
    show some (⟨(Python.markPrivate _).kind, (Python.markPrivate _).payload, 1⟩ : Entry) = _
    rw [hmark _ rfl]
    show some (⟨.function, (Payload.mk name .empty).withAttribute "line" (toString 1), 1⟩ : Entry) =
      _
    rw [show toString 1 = "1" by decide]
  unfold listingOf?
  rw [hextension, Option.bind_eq_bind, Option.bind_some, hlanguage, Option.bind_eq_bind,
    Option.bind_some, hfile, Language.listing_eq]
  show some (_ :: (Python.language.gather source .file "module" _ ++ [])) = _
  rw [Language.gather_of_some rfl hentry]
  rfl

/-- A text has no more declarations than the one tree that all texts share in shape. -/
theorem length_listing_naming {es : List Entry} (h : listingOf? .naming p source = some es) :
    es.length ≤ 6 := by
  obtain ⟨extension, -, h⟩ := Option.bind_eq_some_iff.1 h
  obtain ⟨l, -, h⟩ := Option.bind_eq_some_iff.1 h
  rw [← Option.some.inj h]
  exact l.length_listing_le _ source _

/-- If file and function may be called so, there is a tree, and its second node has the name that
the text is. -/
theorem exists_tree_naming (fileName name : String)
    (h : ∀ e ∈ namingEntries fileName name, e.payload.fault? = none) :
    ∃ t n, Tree.ofEntries (namingEntries fileName name) = .ok t ∧ t.node? 1 = some n ∧
      n.kind = .function ∧ n.payload.name = name := by
  have hnested : Nested (namingEntries fileName name) := {
    nonempty := List.cons_ne_nil _ _
    first := fun _ he => Option.some.inj he ▸ rfl
    later := fun i d e hd he => by
      match i with
      | 0 =>
          obtain rfl := Option.some.inj hd
          obtain rfl := Option.some.inj he
          exact ⟨Nat.le_refl 1, Nat.le_refl 1⟩
      | i + 1 => cases he
    payload := h }
  obtain ⟨t, ht⟩ := exists_tree_of_nested hnested
  obtain ⟨n, hn, hkind, hpayload⟩ := (describes_of_ofEntries ht).node 1 _ rfl
  exact ⟨t, n, ht, hn, hkind, congrArg Payload.name hpayload⟩

/-- Nothing in a tree is called otherwise than the file and the function. -/
theorem name_of_node_naming {t : Tree}
    (ht : Tree.ofEntries (namingEntries fileName name) = .ok t) {i : NodeId} {n : Node}
    (hn : t.node? i = some n) : n.payload.name = fileName ∨ n.payload.name = name := by
  obtain ⟨e, he, -, hpayload⟩ := (describes_of_ofEntries ht).exists_entry hn
  rw [hpayload]
  match i with
  | 0 => exact .inl (Option.some.inj he ▸ rfl)
  | 1 => exact .inr (Option.some.inj he ▸ rfl)
  | i + 2 => cases he

end Outline
