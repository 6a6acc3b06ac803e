import Mathlib.Data.List.TakeWhile
import Outline.Proofs.Syntax.NodeText

/-!
# Outline.Proofs.Text.Words

**A blank parts words, and tidying keeps them apart.** Where texts stand side by side with blanks
between them, the words of the whole are those of the texts, one text after another
(`words_append_of_blank`). A tidied text has the words that it had before, except that the first and
the last may have lost quotes and semicolons at their ends (`exists_unwords_tidy`).

Texts are lists of characters here. Words are rendered with one space between them (`unwords`), so
to tidy a text is to take something from the first and from the last of its words; the proof follows
these two ends, and everything between them stays.
-/

namespace Outline

namespace Text

variable {c : Char} {cs gap : List Char}

/-! ### Words of texts side by side

`words` goes through the text once and asks at each character whether the next one is blank. The end
of a text counts as blank, so a text in front of a blank has the words that it has alone. -/

/-- A character that is not blank begins a word. -/
theorem words_ne_nil (h : isBlank c = false) (cs : List Char) : words (c :: cs) ≠ [] := by
  rw [words, if_neg (Bool.eq_false_iff.1 h)]
  split <;> exact List.cons_ne_nil _ _

/-- A blank in front is passed over, -/
theorem words_cons_of_blank (h : isBlank c = true) (cs : List Char) :
    words (c :: cs) = words cs := by
  rw [words, if_pos h]

/-- and so are many. -/
theorem words_blank_append (h : ∀ c ∈ gap, isBlank c = true) (cs : List Char) :
    words (gap ++ cs) = words cs := by
  induction gap with
  | nil => rfl
  | cons b gap ih =>
      obtain ⟨hb, hgap⟩ := List.forall_mem_cons.1 h
      rw [List.cons_append, words_cons_of_blank hb, ih hgap]

/-- A blank ends a word. -/
theorem words_append_cons (h : isBlank c = true) (cs ds : List Char) :
    words (cs ++ c :: ds) = words cs ++ words ds := by
  induction cs with
  | nil => exact words_cons_of_blank h ds
  | cons d cs ih =>
      rw [List.cons_append, words, words]
      split
      · exact ih
      -- whether the word ends depends on what is next: the blank, or a character of the text
      · cases cs with
        | nil =>
            rw [List.nil_append, List.head?_cons, Option.map_some, h, words_cons_of_blank h]
            rfl
        | cons e cs =>
            rw [ih, List.cons_append, List.head?_cons, List.head?_cons, Option.map_some]
            cases he : isBlank e with
            | true => rfl
            | false =>
                obtain ⟨w, ws, hw⟩ := List.exists_cons_of_ne_nil (words_ne_nil he cs)
                rw [hw]
                rfl

/-- With blanks between two texts, their words stay apart. -/
theorem words_append_of_blank (h : ∀ c ∈ gap, isBlank c = true) (hgap : gap ≠ [])
    (cs ds : List Char) : words (cs ++ (gap ++ ds)) = words cs ++ words ds := by
  obtain ⟨b, gap, rfl⟩ := List.exists_cons_of_ne_nil hgap
  obtain ⟨hb, hrest⟩ := List.forall_mem_cons.1 h
  rw [List.cons_append, words_append_cons hb, words_blank_append hrest]

/-- No word has a space in it. -/
theorem space_notMem_of_mem_words {w : List Char} (h : w ∈ words cs) : ' ' ∉ w := fun hspace =>
  absurd (of_mem_words h hspace).2 (by decide)

/-! ### The first and the last of some words

Rendered words can be taken apart at the first and at the last space. -/

/-- A word alone has no space. -/
theorem unwords_singleton (w : List Char) : unwords [w] = w := List.intercalate_singleton

/-- The first word, a space, and the others. -/
theorem unwords_cons {ws : List (List Char)} (hne : ws ≠ []) (w : List Char) :
    unwords (w :: ws) = w ++ ' ' :: unwords ws := by
  rw [unwords, List.intercalate_cons_of_ne_nil hne, List.append_assoc]
  rfl

/-- The other words, a space, and the last. -/
theorem unwords_concat {ws : List (List Char)} (hne : ws ≠ []) (w : List Char) :
    unwords (ws ++ [w]) = unwords ws ++ ' ' :: w := by
  induction ws with
  | nil => exact absurd rfl hne
  | cons v vs ih =>
      cases vs with
      | nil =>
          rw [List.singleton_append, unwords_cons (List.cons_ne_nil w []), unwords_singleton,
            unwords_singleton]
      | cons u us =>
          rw [List.cons_append, unwords_cons (List.append_ne_nil_of_left_ne_nil
            (List.cons_ne_nil _ _) _), ih (List.cons_ne_nil _ _),
            unwords_cons (List.cons_ne_nil _ _), List.append_assoc, List.cons_append]

/-! ### Ends that are taken away

`strip` takes characters from both ends, and what was taken from an end before makes no difference
to it, if it would take the same and more. A character that is not taken keeps all that stands
behind it. -/

variable {p q : Char → Bool}

/-- At the front nothing is taken behind a character that stays, -/
theorem dropWhile_append_cons (h : p c = false) (cs ds : List Char) :
    (cs ++ c :: ds).dropWhile p = cs.dropWhile p ++ c :: ds := by
  rw [List.dropWhile_append, List.dropWhile_cons_of_neg (Bool.eq_false_iff.1 h)]
  split
  · rename_i hnil
    rw [List.isEmpty_iff.1 hnil, List.nil_append]
  · rfl

/-- and at the back nothing before it. -/
theorem dropRightWhile_append_cons (h : p c = false) (cs ds : List Char) :
    dropRightWhile p (cs ++ c :: ds) = cs ++ c :: dropRightWhile p ds := by
  rw [dropRightWhile, dropRightWhile, List.reverse_append, List.reverse_cons, List.append_assoc,
    List.singleton_append, dropWhile_append_cons h, List.reverse_append, List.reverse_cons,
    List.reverse_reverse, List.append_assoc, List.singleton_append]

/-- What is taken at the back is an end of the text. -/
theorem exists_append_dropRightWhile (p : Char → Bool) (cs : List Char) :
    ∃ ds, cs = dropRightWhile p cs ++ ds ∧ ∀ c ∈ ds, p c = true := by
  refine ⟨(cs.reverse.takeWhile p).reverse, ?_, fun c hc => ?_⟩
  · rw [dropRightWhile, ← List.reverse_append, List.takeWhile_append_dropWhile,
      List.reverse_reverse]
  · exact List.mem_takeWhile_imp (List.mem_reverse.1 hc)

/-- An end that would be taken may as well not be there, -/
theorem dropRightWhile_append (h : ∀ c ∈ gap, p c = true) (cs : List Char) :
    dropRightWhile p (cs ++ gap) = dropRightWhile p cs := by
  rw [dropRightWhile, List.reverse_append,
    List.dropWhile_append_of_pos fun c hc => h c (List.mem_reverse.1 hc), dropRightWhile]

/-- also if the front is taken too. -/
theorem strip_append (h : ∀ c ∈ gap, p c = true) (cs : List Char) :
    strip p (cs ++ gap) = strip p cs := by
  rw [strip, strip, List.dropWhile_append]
  split
  · rename_i hnil
    rw [List.isEmpty_iff.1 hnil, List.dropWhile_eq_nil_iff.2 h]
  · exact dropRightWhile_append h _

/-- To take less at the back first changes nothing, -/
theorem strip_dropRightWhile (h : ∀ c, p c = true → q c = true) (cs : List Char) :
    strip q (dropRightWhile p cs) = strip q cs := by
  obtain ⟨ds, hcs, hds⟩ := exists_append_dropRightWhile p cs
  calc strip q (dropRightWhile p cs)
      = strip q (dropRightWhile p cs ++ ds) := (strip_append (fun c hc => h c (hds c hc)) _).symm
    _ = strip q cs := by rw [← hcs]

/-- nor does it at the front. -/
theorem strip_dropWhile (h : ∀ c, p c = true → q c = true) (cs : List Char) :
    strip q (cs.dropWhile p) = strip q cs := by
  have hsplit := List.takeWhile_append_dropWhile (p := p) (l := cs)
  calc strip q (cs.dropWhile p)
      = strip q (cs.takeWhile p ++ cs.dropWhile p) := by
        rw [strip, strip, List.dropWhile_append_of_pos fun c hc => h c (List.mem_takeWhile_imp hc)]
    _ = strip q cs := by rw [hsplit]

/-- Where nothing is to be taken, the text stays. -/
theorem dropWhile_eq_self (h : ∀ c ∈ cs, p c = false) : cs.dropWhile p = cs := by
  cases cs with
  | nil => rfl
  | cons c cs => exact List.dropWhile_cons_of_neg (Bool.eq_false_iff.1 (h c List.mem_cons_self))

theorem dropRightWhile_eq_self (h : ∀ c ∈ cs, p c = false) : dropRightWhile p cs = cs := by
  rw [dropRightWhile, dropWhile_eq_self fun c hc => h c (List.mem_reverse.1 hc),
    List.reverse_reverse]

end Text

namespace SyntaxNode

open Text

/-- Whether a character may be lost at the ends of a text that is tidied. -/
def isEdge (c : Char) : Bool := isQuote c || c == ';'

/-- What becomes of words when the text that they make is tidied: a word without quotes and
semicolons stays, and every word that is left was there but for some of them at its ends. -/
structure Tidied (ws vs : List (List Char)) : Prop where
  keeps : ∀ w ∈ ws, (∀ c ∈ w, isEdge c = false) → w ∈ vs
  source : ∀ v ∈ vs, ∃ w ∈ ws, v ⊆ w ∧ strip isEdge v = strip isEdge w

namespace Tidied

/-- Words that stay are tidied, -/
theorem refl (ws : List (List Char)) : Tidied ws ws :=
  ⟨fun _ hw _ => hw, fun v hv => ⟨v, hv, List.Subset.refl v, rfl⟩⟩

/-- and what is tidied may be tidied again. -/
theorem trans {us vs ws : List (List Char)} (h : Tidied us vs) (h' : Tidied vs ws) :
    Tidied us ws where
  keeps u hu hedge := h'.keeps u (h.keeps u hu hedge) hedge
  source w hw := by
    obtain ⟨v, hv, hwv, hvstrip⟩ := h'.source w hw
    obtain ⟨u, hu, hvu, hustrip⟩ := h.source v hv
    exact ⟨u, hu, List.Subset.trans hwv hvu, hvstrip.trans hustrip⟩

/-- One word among others gives way to what is left of it. -/
theorem replace (before after : List (List Char)) {w v : List Char} (hsub : v ⊆ w)
    (hstrip : strip isEdge v = strip isEdge w) (hkeeps : (∀ c ∈ w, isEdge c = false) → v = w) :
    Tidied (before ++ w :: after) (before ++ v :: after) where
  keeps u hu hedge := by
    -- a word is the one that gives way, or stands before or behind it
    rcases List.mem_append.1 hu with hu | hu
    · exact List.mem_append_left _ hu
    · refine List.mem_append_right _ ?_
      rcases List.mem_cons.1 hu with rfl | hu
      · rw [hkeeps hedge]
        exact List.mem_cons_self
      · exact List.mem_cons_of_mem _ hu
  source u hu := by
    rcases List.mem_append.1 hu with hu | hu
    · exact ⟨u, List.mem_append_left _ hu, List.Subset.refl u, rfl⟩
    · rcases List.mem_cons.1 hu with rfl | hu
      · exact ⟨w, List.mem_append_right _ List.mem_cons_self, hsub, hstrip⟩
      · exact ⟨u, List.mem_append_right _ (List.mem_cons_of_mem _ hu), List.Subset.refl u, rfl⟩

end Tidied

variable {p : Char → Bool}

/-- A space keeps what stands behind it: only the first word can lose its beginning. -/
theorem exists_unwords_dropWhile (hp : ∀ c, p c = true → isEdge c = true)
    (ws : List (List Char)) :
    ∃ vs, (unwords ws).dropWhile p = unwords vs ∧ Tidied ws vs := by
  cases ws with
  | nil => exact ⟨[], rfl, .refl []⟩
  | cons w ws =>
      refine ⟨w.dropWhile p :: ws, ?_, Tidied.replace [] ws
        (List.dropWhile_subset _) (strip_dropWhile hp w) fun hedge => dropWhile_eq_self
          fun c hc => Bool.eq_false_iff.2 fun h => Bool.eq_false_iff.1 (hedge c hc) (hp c h)⟩
      by_cases hws : ws = []
      · subst hws
        rw [unwords_singleton, unwords_singleton]
      -- a space is at no edge of a text, so the words behind the first are out of reach
      · have hspace : p ' ' = false := Bool.eq_false_iff.2 fun h => absurd (hp _ h) (by decide)
        rw [unwords_cons hws, unwords_cons hws, dropWhile_append_cons hspace]

/-- Likewise, only the last word can lose its end. -/
theorem exists_unwords_dropRightWhile (hp : ∀ c, p c = true → isEdge c = true)
    (ws : List (List Char)) :
    ∃ vs, dropRightWhile p (unwords ws) = unwords vs ∧ Tidied ws vs := by
  rcases List.eq_nil_or_concat' ws with rfl | ⟨ws, w, rfl⟩
  · exact ⟨[], rfl, .refl []⟩
  · refine ⟨ws ++ [dropRightWhile p w], ?_, Tidied.replace ws []
      (fun c => mem_of_mem_dropRightWhile) (strip_dropRightWhile hp w) fun hedge =>
        dropRightWhile_eq_self fun c hc =>
          Bool.eq_false_iff.2 fun h => Bool.eq_false_iff.1 (hedge c hc) (hp c h)⟩
    by_cases hws : ws = []
    · subst hws
      rw [List.nil_append, List.nil_append, unwords_singleton, unwords_singleton]
    -- as at the front
    · have hspace : p ' ' = false := Bool.eq_false_iff.2 fun h => absurd (hp _ h) (by decide)
      rw [unwords_concat hws, unwords_concat hws, dropRightWhile_append_cons hspace]

/-- A tidied text still has its words, but for quotes and semicolons at the ends. -/
theorem exists_unwords_tidy (cs : List Char) :
    ∃ vs, tidy cs = unwords vs ∧ Tidied (words cs) vs := by
  have hquote : ∀ c, isQuote c = true → isEdge c = true := fun c h => by rw [isEdge, h]; rfl
  have hsemicolon : ∀ c, (c == ';') = true → isEdge c = true := fun c h => by
    rw [isEdge, h, Bool.or_true]
  -- semicolons at the end, then quotes at the front and at the end, as `tidy` does
  obtain ⟨us, hus, hends⟩ := exists_unwords_dropRightWhile hsemicolon (words cs)
  obtain ⟨vs, hvs, hfront⟩ := exists_unwords_dropWhile hquote us
  obtain ⟨ws, hws, hback⟩ := exists_unwords_dropRightWhile hquote vs
  refine ⟨ws, ?_, (hends.trans hfront).trans hback⟩
  rw [tidy, strip, hus, hvs, hws]

end SyntaxNode

end Outline
