import Outline.Proofs.Syntax.Buildable
import Outline.Proofs.Text.Spacing

/-!
# Outline.Proofs.Syntax.Spacing

**The text of a node tells its words, and nothing of how they were laid out.** The text of a node is
made of its words alone (`SyntaxNode.text?_eq`), and it is on one line
(`SyntaxNode.oneLine_of_text?`). So what languages pass on from it has no line end.
-/

namespace Outline

namespace SyntaxNode

open Text

/-! ### The text of a node -/

/-- What the source has where a node is, if that is a text. -/
def raw? (n : SyntaxNode) (source : Bytes) : Option String :=
  String.fromUTF8? ⟨((source.drop n.start).take (n.stop - n.start)).toArray⟩

/-- What words come to as the text of a node; none if nothing is left of them. -/
def ofWords? (ws : List (List Char)) : Option String :=
  match strip isQuote (dropRightWhile (· == ';') (unwords ws)) with
  | [] => none
  | cs => some (String.ofList cs)

/-- The text of a node is made of its words alone. -/
theorem text?_eq (n : SyntaxNode) (source : Bytes) :
    n.text? source = (n.raw? source).bind fun s => ofWords? (words s.toList) := by
  dsimp only [text?]
  rw [raw?]
  cases String.fromUTF8? ⟨((source.drop n.start).take (n.stop - n.start)).toArray⟩ with
  | none => rfl
  | some s => rfl

/-- What words come to is on one line. -/
theorem oneLine_of_ofWords? {cs : List Char} {s : String} (h : ofWords? (words cs) = some s) :
    OneLine s.toList := by
  have hwords : ∀ w ∈ words cs, IsWord w := fun _ hw => isWord_of_mem_words hw
  have hpart := (strip_isInfix isQuote _).trans
    (dropRightWhile_isPrefix (· == ';') (unwords (words cs))).isInfix
  unfold ofWords? at h
  split at h
  · cases h
  · rename_i hleft
    rw [← Option.some.inj h, String.toList_ofList]
    refine ⟨hleft, fun c hc hblank => ?_, List.IsChain.infix (isChain_unwords hwords) hpart⟩
    rcases of_mem_unwords (hpart.subset hc) with rfl | ⟨w, hw, hcw⟩
    · rfl
    · rw [(hwords w hw).solid c hcw] at hblank
      cases hblank

theorem oneLine_of_text? {n : SyntaxNode} {source : Bytes} {s : String}
    (h : n.text? source = some s) : OneLine s.toList := by
  rw [text?_eq] at h
  obtain ⟨_, -, h⟩ := Option.bind_eq_some_iff.1 h
  exact oneLine_of_ofWords? h

/-- Nodes with the same words have the same text, or both have none. -/
theorem text?_eq_of_words {n n' : SyntaxNode} {source source' : Bytes} {s s' : String}
    (h : n.raw? source = some s) (h' : n'.raw? source' = some s')
    (hwords : words s.toList = words s'.toList) : n.text? source = n'.text? source' := by
  rw [text?_eq, text?_eq, h, h', Option.bind_some, Option.bind_some, hwords]

end SyntaxNode

/-- A text on one line can be the value of an attribute. -/
theorem Payload.entryFault?_of_oneLine {text : String} (h : Text.OneLine text.toList)
    (key : String) : Payload.entryFault? (key, text) ≠ some (.multilineValue key) := by
  have hline : '\n' ∉ text.toList := fun hmem =>
    absurd (h.blanks _ hmem (by decide)) (by decide)
  unfold Payload.entryFault?
  dsimp only
  split
  · exact fun hfault => nomatch Option.some.inj hfault
  · rw [if_neg (by simpa using hline)]
    exact nofun

/-- **The text of a node is on one line, and its words decide it.** If a node has a text, there is
something in it, its blanks are single spaces, and it can be the value of any attribute. Nodes that
are rendered from the same words have the same text or both have none, as when one is the other with
other blanks in the place of blanks. So no attribute in a listing of any of the languages is at
fault. -/
theorem text_by_words :
    (∀ (n : SyntaxNode) (source : Bytes) (text : String), n.text? source = some text →
      Text.OneLine text.toList ∧
        ∀ key, Payload.entryFault? (key, text) ≠ some (.multilineValue key)) ∧
    (∀ (n n' : SyntaxNode) (source source' : Bytes) (s s' : String),
      n.raw? source = some s → n'.raw? source' = some s' →
      (∀ ws, Text.Renders ws s.toList → Text.Renders ws s'.toList →
        n.text? source = n'.text? source') ∧
      (Relation.EqvGen Text.Respaced s.toList s'.toList → n.text? source = n'.text? source')) ∧
    ∀ l ∈ Language.byExtension.map (·.2), ∀ (fileName : String) (source : Bytes) (t : SyntaxTree),
      ∀ e ∈ l.listing fileName source t, ∀ a ∈ e.payload.attributes.entries,
        Payload.entryFault? a = none := by
  refine ⟨fun n source text h => ?_, fun n n' source source' s s' h h' => ⟨fun ws hws hws' => ?_,
    fun hrespaced => ?_⟩, fun l hl => Language.attributes_listing hl⟩
  · have hline := SyntaxNode.oneLine_of_text? h
    exact ⟨hline, Payload.entryFault?_of_oneLine hline⟩
  · have hwords := (Text.words_eq_iff.2 hws).trans (Text.words_eq_iff.2 hws').symm
    exact SyntaxNode.text?_eq_of_words h h' hwords
  · exact SyntaxNode.text?_eq_of_words h h' (Text.words_eq_of_respaced hrespaced)

/-- A base with a tab in it, and the same over two lines. -/
theorem text_by_words_base :
    let source := "class A extends lib\t.B \x7b\x7d".toUTF8.toList
    let source' := "class A extends lib\n  .B \x7b\x7d".toUTF8.toList
    let base (stop : Nat) : SyntaxNode := .mk none "member_expression" true 16 stop 0 []
    let token (kind : String) (start stop row : Nat) : SyntaxNode :=
      .mk none kind false start stop row []
    let root : SyntaxNode := .mk none "program" true 0 27 0
      [.mk none "class_declaration" true 0 27 0
        [token "class" 0 5 0, .mk (some "name") "identifier" true 6 7 0 [],
          .mk none "class_heritage" true 8 24 0 [token "extends" 8 15 0, base 24],
          .mk (some "body") "class_body" true 25 27 1
            [token "\x7b" 25 26 1, token "\x7d" 26 27 1]]]
    let es := JavaScript.language.listing "a.js" source' ⟨root, false⟩
    (base 22).raw? source = some "lib\t.B" ∧ (base 24).raw? source' = some "lib\n  .B" ∧
      (base 22).text? source = some "lib .B" ∧ (base 24).text? source' = some "lib .B" ∧
      (base 22).text? source = (base 24).text? source' ∧ Text.OneLine "lib .B".toList ∧
      es.map (·.payload.attribute? "extends") = [none, some "lib .B"] ∧
      ∀ e ∈ es, ∀ a ∈ e.payload.attributes.entries, Payload.entryFault? a = none := by
  intro source source' base token root es
  obtain ⟨hline, hsame, hlisting⟩ := text_by_words
  have hraw : (base 22).raw? source = some "lib\t.B" := by decide +kernel
  have hraw' : (base 24).raw? source' = some "lib\n  .B" := by decide +kernel
  have htext : (base 22).text? source = some "lib .B" := by decide +kernel
  obtain ⟨hrendered, hrespaced⟩ := hsame _ _ _ _ _ _ hraw hraw'
  have hwords : (base 22).text? source = (base 24).text? source' :=
    hrendered ["lib".toList, ".B".toList] (Text.words_eq_iff.1 (by decide))
      (Text.words_eq_iff.1 (by decide))
  have htab : ∀ c ∈ ['\t'], Text.isBlank c = true := List.all_eq_true.1 (by decide)
  have hbreak : ∀ c ∈ ['\n', ' ', ' '], Text.isBlank c = true := List.all_eq_true.1 (by decide)
  have hblanks : (base 22).text? source = (base 24).text? source' :=
    hrespaced (.rel _ _ (.between "lib".toList ".B".toList htab hbreak (by decide) (by decide)))
  refine ⟨hraw, hraw', htext, hwords.symm.trans htext, hblanks, (hline _ _ _ htext).1, ?_,
    hlisting _ List.mem_cons_self "a.js" source' ⟨root, false⟩⟩
  rw [show es = _ from Language.listing_eq ..]
  decide +kernel

end Outline
