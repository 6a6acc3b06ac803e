import Mathlib.Data.List.Chain
import Mathlib.Logic.Relation
import Outline.Proofs.Text.Words

/-!
# Outline.Proofs.Text.Spacing

**Words do not depend on the blanks between them.** A text is rendered from words if blanks part
them, whichever and however many (`Renders`). The words of a text are just those that it is rendered
from (`words_eq_iff`), so they stay when blanks are replaced by other blanks (`Respaced`). Joined by
single spaces they make a text on one line (`OneLine`).
-/

namespace Outline.Text

variable {c : Char} {cs ds word rest : List Char} {ws : List (List Char)}

/-! ### Texts rendered from words

### Texts rendered from words

The words of a text are found by going through it from behind, joining each character to the word
that follows it at once. Rendering says the same from the front: a gap, a word, and then either the
end or a blank. That the two agree is what makes the words a matter of the text and not of the order
in which it is read. -/

/-- A word: it has characters, and none of them is blank. -/
structure IsWord (word : List Char) : Prop where
  nonempty : word ≠ []
  solid : ∀ c ∈ word, isBlank c = false

/-- A text is rendered from words if it has them one after another, with blanks between them. There
may be blanks in front of the first and behind the last. -/
inductive Renders : List (List Char) → List Char → Prop
  | nil {gap : List Char} (blank : ∀ c ∈ gap, isBlank c = true) : Renders [] gap
  | cons {gap word rest : List Char} {ws : List (List Char)}
      (blank : ∀ c ∈ gap, isBlank c = true) (isWord : IsWord word)
      (apart : ∀ c ∈ rest.head?, isBlank c = true) (tail : Renders ws rest) :
      Renders (word :: ws) (gap ++ (word ++ rest))

/-- One more blank in front makes no other words. -/
theorem Renders.cons_blank (h : Renders ws cs) (hc : isBlank c = true) : Renders ws (c :: cs) := by
  cases h with
  | nil blank => exact .nil (List.forall_mem_cons.2 ⟨hc, blank⟩)
  | cons blank isWord apart tail =>
      exact .cons (List.forall_mem_cons.2 ⟨hc, blank⟩) isWord apart tail

/-- A text that does not begin with a blank begins with its first word. -/
theorem Renders.exists_rest (h : Renders (word :: ws) cs) (hc : ∀ c ∈ cs.head?, isBlank c = false) :
    ∃ rest, cs = word ++ rest ∧ IsWord word ∧ (∀ c ∈ rest.head?, isBlank c = true) ∧
      Renders ws rest := by
  cases h with
  | @cons gap _ rest _ blank isWord apart tail =>
      cases gap with
      | nil => exact ⟨rest, rfl, isWord, apart, tail⟩
      | cons b gap =>
          have hblank := blank b List.mem_cons_self
          rw [hc b rfl] at hblank
          cases hblank

/-- Every text is rendered from its words. -/
theorem renders_words (cs : List Char) : Renders (words cs) cs := by
  induction cs with
  | nil => exact .nil fun c hc => absurd hc List.not_mem_nil
  | cons c cs ih =>
      rw [words]
      split
      · rename_i hc
        exact ih.cons_blank hc
      · rename_i hc
        have hword : IsWord [c] := ⟨List.cons_ne_nil c [], fun d hd => by
          rw [List.mem_singleton.1 hd]
          exact Bool.eq_false_iff.2 hc⟩
        have hnone : ∀ c ∈ ([] : List Char), isBlank c = true := fun _ h =>
          absurd h List.not_mem_nil
        split
        · -- the first word of the rest begins right behind
          rename_i word ws hhead hwords
          rw [hwords] at ih
          obtain ⟨rest, rfl, hw, apart, tail⟩ := ih.exists_rest fun d hd => by
            rw [hd] at hhead
            exact Option.some.inj hhead
          have hlong : IsWord (c :: word) := ⟨List.cons_ne_nil c word,
            List.forall_mem_cons.2 ⟨Bool.eq_false_iff.2 hc, hw.solid⟩⟩
          exact .cons hnone hlong apart tail
        · rename_i hfirst
          refine .cons hnone hword (fun d hd => ?_) ih
          cases hblank : isBlank d with
          | true => rfl
          | false =>
              obtain ⟨tail, rfl⟩ := List.head?_eq_some_iff.1 hd
              obtain ⟨w, ws, hws⟩ := List.exists_cons_of_ne_nil (words_ne_nil hblank tail)
              exact absurd hws (hfirst w ws (by rw [List.head?_cons, Option.map_some, hblank]))

/-- The words of a text are words. -/
theorem isWord_of_mem_words (h : word ∈ words cs) : IsWord word := by
  suffices ∀ {ws cs}, Renders ws cs → word ∈ ws → IsWord word from this (renders_words cs) h
  intro ws cs hrenders hmem
  induction hrenders with
  | nil => cases hmem
  | cons _ isWord _ _ ih =>
      rcases List.mem_cons.1 hmem with rfl | hmem
      · exact isWord
      · exact ih hmem

/-- A word in front of a blank, or at the end, is the first word. -/
theorem words_word_append (hword : IsWord word) (apart : ∀ c ∈ rest.head?, isBlank c = true) :
    words (word ++ rest) = word :: words rest := by
  obtain ⟨hne, hsolid⟩ := hword
  induction word with
  | nil => exact absurd rfl hne
  | cons c word ih =>
      obtain ⟨hc, hword⟩ := List.forall_mem_cons.1 hsolid
      rw [List.cons_append, words, if_neg (Bool.eq_false_iff.1 hc)]
      cases word with
      | nil =>
          rw [List.nil_append]
          split
          · rename_i hhead _
            obtain ⟨d, hd, hsolid⟩ := Option.map_eq_some_iff.1 hhead
            rw [apart d hd] at hsolid
            cases hsolid
          · rfl
      | cons d word =>
          rw [ih (List.cons_ne_nil d word) hword, List.cons_append, List.head?_cons,
            Option.map_some, hword d List.mem_cons_self]

/-- The words of a text are those that it is rendered from. -/
theorem words_eq_iff : words cs = ws ↔ Renders ws cs := by
  constructor
  · rintro rfl
    exact renders_words cs
  · intro h
    induction h with
    | @nil gap blank =>
        rw [← List.append_nil gap, words_blank_append blank]
        rfl
    | cons blank isWord apart _ ih =>
        rw [words_blank_append blank, words_word_append isWord apart, ih]

/-! ### Other blanks in the place of blanks

### Other blanks in the place of blanks

Between two words a gap may be replaced by any other, but it must not vanish, or the words would run
together; at the ends it may. Any number of such replacements, back and forth, is the equivalence
that they generate. -/

/-- One text has other blanks than another, between two words or at one of the ends. -/
inductive Respaced : List Char → List Char → Prop
  | between {gap gap' : List Char} (front back : List Char) (blank : ∀ c ∈ gap, isBlank c = true)
      (blank' : ∀ c ∈ gap', isBlank c = true) (some : gap ≠ []) (some' : gap' ≠ []) :
      Respaced (front ++ (gap ++ back)) (front ++ (gap' ++ back))
  | front {gap gap' : List Char} (cs : List Char) (blank : ∀ c ∈ gap, isBlank c = true)
      (blank' : ∀ c ∈ gap', isBlank c = true) : Respaced (gap ++ cs) (gap' ++ cs)
  | back {gap gap' : List Char} (cs : List Char) (blank : ∀ c ∈ gap, isBlank c = true)
      (blank' : ∀ c ∈ gap', isBlank c = true) : Respaced (cs ++ gap) (cs ++ gap')

theorem words_append_blank {gap : List Char} (h : ∀ c ∈ gap, isBlank c = true) (cs : List Char) :
    words (cs ++ gap) = words cs := by
  by_cases hgap : gap = []
  · rw [hgap, List.append_nil]
  · have hparts := words_append_of_blank h hgap cs []
    rw [List.append_nil] at hparts
    exact hparts.trans (List.append_nil _)

/-- One replacement leaves the words. -/
theorem Respaced.words_eq (h : Respaced cs ds) : words cs = words ds := by
  cases h with
  | between front back blank blank' some some' =>
      rw [words_append_of_blank blank some, words_append_of_blank blank' some']
  | front cs blank blank' => rw [words_blank_append blank, words_blank_append blank']
  | back cs blank blank' => rw [words_append_blank blank, words_append_blank blank']

/-- Replacing blanks by blanks any number of times leaves the words. -/
theorem words_eq_of_respaced (h : Relation.EqvGen Respaced cs ds) : words cs = words ds := by
  induction h with
  | rel _ _ h => exact h.words_eq
  | refl => rfl
  | symm _ _ _ ih => exact ih.symm
  | trans _ _ _ _ _ ih ih' => exact ih.trans ih'

/-! ### Texts on one line

### Texts on one line

A single space is a blank, and a word has none, so in joined words a space is always followed by the
first character of a word. -/

/-- A text on one line: there is something in it, all blanks in it are spaces, and no two of them
stand side by side. -/
structure OneLine (cs : List Char) : Prop where
  nonempty : cs ≠ []
  blanks : ∀ c ∈ cs, isBlank c = true → c = ' '
  apart : cs.IsChain fun c d => c = ' ' → d ≠ ' '

/-- Joined words have no two spaces side by side, for there is a word between any two. -/
theorem isChain_unwords (h : ∀ w ∈ ws, IsWord w) :
    (unwords ws).IsChain fun c d => c = ' ' → d ≠ ' ' := by
  have hspace : ∀ {w}, IsWord w → ∀ c ∈ w, c ≠ ' ' := by
    rintro w hw c hc rfl
    exact absurd (hw.solid _ hc) (by decide)
  induction ws with
  | nil => exact .nil
  | cons w ws ih =>
      obtain ⟨hw, hws⟩ := List.forall_mem_cons.1 h
      have hpairs : w.Pairwise fun c d => c = ' ' → d ≠ ' ' :=
        List.pairwise_of_forall_mem_list fun _ _ d hd _ => hspace hw d hd
      cases ws with
      | nil =>
          rw [unwords_singleton]
          exact hpairs.isChain
      | cons v vs =>
          rw [unwords_cons (List.cons_ne_nil v vs), List.isChain_append, List.isChain_cons]
          obtain ⟨hv, -⟩ := List.forall_mem_cons.1 hws
          obtain ⟨c, v, rfl⟩ := List.exists_cons_of_ne_nil hv.nonempty
          refine ⟨hpairs.isChain, ⟨fun d hd _ => ?_, ih hws⟩, fun d hd _ _ hd' => ?_⟩
          · -- what follows the space is the first character of the next word
            have hfirst : (unwords ((c :: v) :: vs)).head? = some c := by
              by_cases hvs : vs = []
              · rw [hvs, unwords_singleton, List.head?_cons]
              · rw [unwords_cons hvs, List.cons_append, List.head?_cons]
            rw [hfirst] at hd
            exact Option.some.inj hd ▸ hspace hv c List.mem_cons_self
          · exact absurd hd' (hspace hw d (List.mem_of_getLast? hd))

theorem dropRightWhile_isPrefix (p : Char → Bool) (cs : List Char) :
    dropRightWhile p cs <+: cs := by
  obtain ⟨ds, hcs, -⟩ := exists_append_dropRightWhile p cs
  exact ⟨ds, hcs.symm⟩

theorem strip_isInfix (p : Char → Bool) (cs : List Char) : strip p cs <:+: cs :=
  (dropRightWhile_isPrefix p _).isInfix.trans (List.dropWhile_suffix p).isInfix

end Outline.Text
