import Outline.Proofs.Syntax.Entries
import Outline.Proofs.Text.Words

/-!
# Outline.Proofs.Syntax.Modifiers

**What modifiers decide in Java.** Visibility, and whether a field is a constant, are told from the
pieces of the text of the modifiers (`Java.wordsIn`), not from the tokens that stand there. The two
come to the same where the modifiers are legible (`Java.Legible`): blanks part the tokens,
annotations and comments, and no annotation or comment has a deciding word in its text. Then the
words of the whole are those of its parts (`Laid.exists_text`), and tidying the text loses none that
decides.

So there are two ways to say which words modifiers have: the pieces of a text, which is what the
code looks at, and the tokens of a tree, which is what the grammar means. The first part of the
module gets from texts of parts to the text of the whole; the rest compares the two ways.
-/

namespace Outline

namespace SyntaxNode

variable {source : Bytes}

/-! ### Texts of parts

Where a text stands in the source is given by two positions. Neighbouring texts can be put together,
and between two positions there is at most one text. -/

/-- The source from `start` up to `stop` is the text `cs`. -/
structure Reads (source : Bytes) (start stop : Nat) (cs : List Char) : Prop where
  le : start ≤ stop
  bytes : (source.drop start).take (stop - start) = Text.bytesOf cs

namespace Reads

variable {i j k : Nat} {cs ds : List Char}

theorem append (h : Reads source i j cs) (h' : Reads source j k ds) :
    Reads source i k (cs ++ ds) := by
  obtain ⟨hij, hcs⟩ := h
  obtain ⟨hjk, hds⟩ := h'
  refine ⟨Nat.le_trans hij hjk, ?_⟩
  rw [show k - i = (j - i) + (k - j) by omega, List.take_add, hcs, List.drop_drop,
    show i + (j - i) = j by omega, hds, Text.bytesOf_append]

theorem unique (h : Reads source i j cs) (h' : Reads source i j ds) : cs = ds := by
  have hbytes := h.bytes.symm.trans h'.bytes
  rw [← Text.toList_toUTF8, ← Text.toList_toUTF8] at hbytes
  exact String.ofList_injective (Text.toUTF8_injective hbytes)

/-- The text of a node is what the source reads there, tidied. -/
theorem getD_text? {n : SyntaxNode} (h : Reads source n.start n.stop cs) :
    ((n.text? source).getD "").toList = tidy cs := by
  have hread : String.fromUTF8? ⟨((source.drop n.start).take (n.stop - n.start)).toArray⟩ =
      some (String.ofList cs) := by
    rw [h.bytes, ← Text.fromUTF8?_bytesOf (String.ofList cs), String.toList_ofList]
  dsimp only [text?]
  rw [hread]
  dsimp only
  rw [String.toList_ofList]
  split
  · rename_i hnil
    rw [hnil]
    rfl
  · rw [Option.getD_some, String.toList_ofList]

end Reads

/-- Some nodes stand side by side between `start` and `stop`, each with a text, and blanks part
them. -/
inductive Laid (source : Bytes) : List SyntaxNode → Nat → Nat → Prop
  | last {n : SyntaxNode} {cs : List Char} (text : Reads source n.start n.stop cs) :
      Laid source [n] n.start n.stop
  | next {n : SyntaxNode} {ns : List SyntaxNode} {start stop : Nat} {cs gap : List Char}
      (text : Reads source n.start n.stop cs) (between : Reads source n.stop start gap)
      (blank : ∀ c ∈ gap, Text.isBlank c = true) (apart : gap ≠ [])
      (rest : Laid source ns start stop) : Laid source (n :: ns) n.start stop

/-- The words of nodes that blanks part are the words of one or another. -/
theorem Laid.exists_text {ns : List SyntaxNode} {start stop : Nat}
    (h : Laid source ns start stop) :
    ∃ cs, Reads source start stop cs ∧
      ∀ w, w ∈ Text.words cs ↔
        ∃ n ∈ ns, ∃ ds, Reads source n.start n.stop ds ∧ w ∈ Text.words ds := by
  induction h with
  | @last n cs text =>
      refine ⟨cs, text, fun w => ⟨fun hw => ⟨n, List.mem_singleton_self n, cs, text, hw⟩, ?_⟩⟩
      rintro ⟨m, hm, ds, hds, hw⟩
      obtain rfl := List.mem_singleton.1 hm
      exact text.unique hds ▸ hw
  -- the blanks between keep the words of the first node apart from those of the others
  | @next n ns start stop cs gap text between blank apart _ ih =>
      obtain ⟨es, hes, hwords⟩ := ih
      refine ⟨cs ++ (gap ++ es), text.append (between.append hes), fun w => ?_⟩
      rw [Text.words_append_of_blank blank apart, List.mem_append, hwords]
      constructor
      · rintro (hw | ⟨m, hm, hw⟩)
        · exact ⟨n, List.mem_cons_self, cs, text, hw⟩
        · exact ⟨m, List.mem_cons_of_mem n hm, hw⟩
      · rintro ⟨m, hm, ds, hds, hw⟩
        rcases List.mem_cons.1 hm with rfl | hm
        · exact .inl (text.unique hds ▸ hw)
        · exact .inr ⟨m, hm, ds, hds, hw⟩

end SyntaxNode

namespace Java

variable {source : Bytes}

/-! ### Pieces of the text of modifiers

The code splits at single spaces. A tidied text is words with one space between them, so its pieces
are its words, but for the empty piece of an empty text, which is no deciding word. -/

theorem spaced_eq_splitOn (cs : List Char) : spaced cs = cs.splitOn ' ' := by
  induction cs with
  | nil => exact (List.splitOn_nil ' ').symm
  | cons c cs ih =>
      rw [spaced, List.splitOn_cons_eq_if_modifyHead, ih]
      by_cases hc : c = ' '
      · rw [if_pos hc, if_pos (beq_iff_eq.2 hc)]
      · rw [if_neg hc, if_neg fun h => hc (beq_iff_eq.1 h)]
        obtain ⟨w, ws, hw⟩ := List.exists_cons_of_ne_nil (List.splitOn_ne_nil ' ' cs)
        rw [hw]
        rfl

/-- Words joined by spaces are the pieces; without words, the only piece is empty. -/
theorem mem_spaced_unwords {w : List Char} {vs : List (List Char)} (hw : w ≠ [])
    (hvs : ∀ v ∈ vs, ' ' ∉ v) : w ∈ spaced (Text.unwords vs) ↔ w ∈ vs := by
  rw [spaced_eq_splitOn]
  by_cases hnil : vs = []
  · rw [hnil, Text.unwords, List.intercalate_nil, List.splitOn_nil, List.mem_singleton]
    exact ⟨fun h => absurd h hw, fun h => absurd h List.not_mem_nil⟩
  · rw [Text.unwords, List.splitOn_intercalate ' ' hvs hnil]

/-- The pieces of the text of modifiers. -/
def wordsIn (source : Bytes) (m : SyntaxNode) : List String :=
  (spaced ((m.text? source).getD "").toList).map String.ofList

/-- The words of modifiers that decide something. -/
def deciding : List String := visibilities ++ ["static", "final"]

/-- A deciding word is a word of its own, and tidying leaves it as it is. -/
theorem deciding_plain : ∀ w ∈ deciding, w.toList ≠ [] ∧
    Text.strip SyntaxNode.isEdge w.toList = w.toList ∧
    Text.words w.toList = [w.toList] ∧ ∀ c ∈ w.toList, SyntaxNode.isEdge c = false := by
  have hplain : ∀ w ∈ deciding, w.toList ≠ [] ∧
      Text.strip SyntaxNode.isEdge w.toList = w.toList ∧
      Text.words w.toList = [w.toList] ∧ w.toList.all (!SyntaxNode.isEdge ·) = true := by
    decide
  intro w hw
  obtain ⟨hne, hstrip, hwords, hall⟩ := hplain w hw
  exact ⟨hne, hstrip, hwords, fun c hc => by simpa using List.all_eq_true.1 hall c hc⟩

/-! ### What modifiers amend

Only the function that applies modifiers looks at them; whatever else a hook does to a declaration
leaves visibility and kind as they are (`Settled`). -/

/-- The kind of a declaration behind modifiers, if `has` tells what they are. -/
def kindBehind (has : String → Bool) (kind : Kind) : Kind :=
  if kind = .field ∧ has "static" ∧ has "final" then .constant else kind

theorem applyModifiers_spec (modifiers : String) (d : Draft) :
    let has := ((spaced modifiers.toList).map String.ofList).contains
    (applyModifiers modifiers d).payload.attribute? "visibility" =
        (visibilities.find? has).or (d.payload.attribute? "visibility") ∧
      (applyModifiers modifiers d).kind = kindBehind has d.kind := by
  unfold applyModifiers
  dsimp only
  generalize ((spaced modifiers.toList).map String.ofList).contains = has
  have hvisible := d.attribute?_set? "visibility" "visibility" (visibilities.find? has)
  rw [if_pos rfl] at hvisible
  have hguard : ((d.set? "visibility" (visibilities.find? has)).kind == .field &&
      has "static" && has "final") = true ↔ d.kind = .field ∧ has "static" ∧ has "final" := by
    rw [Draft.kind_set?, Bool.and_eq_true, Bool.and_eq_true, beq_iff_eq, and_assoc]
  rw [Draft.attribute?_set, if_neg (by decide)]
  by_cases h : d.kind = .field ∧ has "static" ∧ has "final"
  · rw [if_pos (hguard.2 h), kindBehind, if_pos h]
    exact ⟨hvisible, rfl⟩
  · rw [if_neg fun h' => h (hguard.1 h'), kindBehind, if_neg h]
    exact ⟨hvisible, d.kind_set? _ _⟩

/-- One draft says the same of visibility as another, and is of the same kind. -/
def Settled (d d' : Draft) : Prop :=
  d'.payload.attribute? "visibility" = d.payload.attribute? "visibility" ∧ d'.kind = d.kind

theorem Settled.set? (d : Draft) {key : String} (hkey : key ≠ "visibility")
    (value : Option String) : Settled d (d.set? key value) := by
  refine ⟨?_, d.kind_set? key value⟩
  rw [Draft.attribute?_set?, if_neg hkey]

theorem settled_amendImport (s : Site) (d : Draft) : Settled d (amendImport s d) := by
  have hname : Settled d (if (s.node.childOfKind? "asterisk").isSome then
      d.rename? (some (d.payload.name ++ ".*")) else d) := by
    split <;> exact ⟨rfl, rfl⟩
  unfold amendImport
  dsimp only
  split
  · exact ⟨((Settled.set? _ (by decide) (some "true")).1).trans hname.1, hname.2⟩
  · exact hname

/-- Besides the modifiers, no part of a declaration decides visibility or kind. -/
theorem settled_amend (s : Site) (d : Draft) :
    Settled ((s.text? (s.node.childOfKind? "modifiers")).elim d (applyModifiers · d))
      (amend s d) := by
  unfold amend
  dsimp only
  generalize s.text? (s.node.childOfKind? "modifiers") = text
  -- a class, an import, or anything else, each amended behind the modifiers
  split
  · cases text <;> exact Settled.set? _ (by decide) _
  · cases text <;> exact settled_amendImport s _
  · cases text <;> exact ⟨rfl, rfl⟩

theorem amend_modifiers {s : Site} {m : SyntaxNode} (hm : s.node.childOfKind? "modifiers" = some m)
    (d : Draft) :
    let has := (wordsIn s.source m).contains
    (amend s d).payload.attribute? "visibility" =
        (visibilities.find? has).or (d.payload.attribute? "visibility") ∧
      (amend s d).kind = kindBehind has d.kind := by
  obtain ⟨hvisible, hkind⟩ := settled_amend s d
  dsimp only
  rw [hvisible, hkind, hm, Site.text?, Option.bind_some, wordsIn]
  cases m.text? s.source with
  | some modifiers => exact applyModifiers_spec modifiers d
  | none =>
      -- Without a text there is one piece, and it is empty.
      exact ⟨rfl, (if_neg fun h => absurd h.2.1 (by decide)).symm⟩

/-! ### Modifiers that read as the tokens they have

`Legible` is what has to be true of the source for both ways to agree. It excludes what makes the
code go wrong: a deciding word inside an annotation or a comment, and tokens that run into each
other. -/

/-- Modifiers have the token for a word. -/
def hasToken (m : SyntaxNode) (word : String) : Bool :=
  m.children.any fun c => !c.named && c.kind == word

theorem hasToken_iff {m : SyntaxNode} {word : String} :
    hasToken m word ↔ ∃ c ∈ m.children, c.named = false ∧ c.kind = word := by
  simp [hasToken]

/-- Modifiers that read as the tokens they have. -/
structure Legible (source : Bytes) (m : SyntaxNode) : Prop where
  /-- Blanks part the tokens, annotations and comments. -/
  laid : SyntaxNode.Laid source m.children m.start m.stop
  /-- A deciding token is spelled as its kind. -/
  spelled : ∀ c ∈ m.children, c.named = false → c.kind ∈ deciding →
    SyntaxNode.Reads source c.start c.stop c.kind.toList
  /-- Nothing else has a deciding word in its text, be it in quotes. -/
  silent : ∀ c ∈ m.children, ¬ (c.named = false ∧ c.kind ∈ deciding) →
    ∀ cs, SyntaxNode.Reads source c.start c.stop cs → ∀ w ∈ Text.words cs,
      String.ofList (Text.strip SyntaxNode.isEdge w) ∉ deciding

/-- Where modifiers are legible, the deciding pieces of their text are their tokens. -/
theorem Legible.mem_wordsIn {m : SyntaxNode} (h : Legible source m) {word : String}
    (hword : word ∈ deciding) : word ∈ wordsIn source m ↔ hasToken m word := by
  obtain ⟨cs, hcs, hwords⟩ := h.laid.exists_text
  obtain ⟨vs, htidy, hvs⟩ := SyntaxNode.exists_unwords_tidy cs
  obtain ⟨hne, hstrip, -, hplain⟩ := deciding_plain word hword
  have hspace : ∀ v ∈ vs, ' ' ∉ v := fun v hv hspace => by
    obtain ⟨w, hw, hsub, -⟩ := hvs.source v hv
    exact Text.space_notMem_of_mem_words hw (hsub hspace)
  -- a deciding word is a piece of the text if it is a word that tidying has left
  have hpiece : word ∈ wordsIn source m ↔ word.toList ∈ vs := by
    rw [wordsIn, hcs.getD_text?, htidy, ← mem_spaced_unwords hne hspace, List.mem_map]
    constructor
    · rintro ⟨v, hv, rfl⟩
      rwa [String.toList_ofList]
    · exact fun hv => ⟨word.toList, hv, String.ofList_toList⟩
  rw [hpiece, hasToken_iff]
  constructor
  · intro hv
    obtain ⟨w, hw, -, hsame⟩ := hvs.source _ hv
    obtain ⟨c, hc, ds, hds, hw⟩ := (hwords w).1 hw
    rw [hstrip] at hsame
    -- the word comes from a token, or from something that has no such word
    by_cases htoken : c.named = false ∧ c.kind ∈ deciding
    · obtain ⟨-, hkind, honly, -⟩ := deciding_plain c.kind htoken.2
      rw [hds.unique (h.spelled c hc htoken.1 htoken.2), honly, List.mem_singleton] at hw
      rw [hw, hkind] at hsame
      exact ⟨c, hc, htoken.1, (String.toList_inj.1 hsame).symm⟩
    · refine absurd ?_ (h.silent c hc htoken ds hds w hw)
      rwa [← hsame, String.ofList_toList]
  · rintro ⟨c, hc, hnamed, rfl⟩
    obtain ⟨-, -, honly, -⟩ := deciding_plain c.kind hword
    refine hvs.keeps _ ((hwords _).2 ⟨c, hc, _, h.spelled c hc hnamed hword, ?_⟩) hplain
    rw [honly]
    exact List.mem_singleton_self _

/-! ### What modifiers decide

`DecidedBy` leaves open which words there are, so one theorem serves both ways of telling. -/

/-- An entry of a construct has the visibility and the kind that its modifiers give it, if `has`
tells what they are. -/
structure DecidedBy (has : String → Bool) (n : SyntaxNode) (e : Entry) : Prop where
  visibility : e.payload.attribute? "visibility" = visibilities.find? has
  kind : ∃ r, language.rule? n.kind = some r ∧
    e.kind = if n.kind = "field_declaration" ∧ has "static" ∧ has "final" then .constant else r.kind

/-- Only the words that decide something matter. -/
theorem DecidedBy.congr {has has' : String → Bool} {n : SyntaxNode} {e : Entry}
    (h : DecidedBy has n e) (hsame : ∀ w ∈ deciding, has w = has' w) : DecidedBy has' n e := by
  have hvisible : visibilities.find? has = visibilities.find? has' := by
    simp only [visibilities, List.find?_cons, List.find?_nil, hsame "public" (by decide),
      hsame "protected" (by decide), hsame "private" (by decide)]
  obtain ⟨hvisibility, r, hr, hkind⟩ := h
  rw [hsame "static" (by decide), hsame "final" (by decide)] at hkind
  exact ⟨hvisible ▸ hvisibility, r, hr, hkind⟩

/-- Only a field declaration makes a field, and no scope changes a kind. -/
theorem rules_field : ∀ x ∈ rules, x.2.nestedKind = none ∧
    (x.2.kind = .field ↔ x.1 = "field_declaration") := by
  decide

/-- **Modifiers decide by their words.** The visibility of a declaration with modifiers is the first
one that is a piece of their text between spaces, and a field is a constant if "static" and "final"
are such pieces. Where the modifiers are legible, these are the tokens that stand there. -/
theorem modifiers_decide {t : SyntaxTree} {n m : SyntaxNode} {e : Entry}
    (h : language.Declares source t n e) (hm : n.childOfKind? "modifiers" = some m) :
    DecidedBy (wordsIn source m).contains n e ∧
      (Legible source m → DecidedBy (hasToken m) n e) := by
  have hwords : DecidedBy (wordsIn source m).contains n e := by
    obtain ⟨kind, around, r, part, name, hr, -, -, rfl⟩ := h.exists_rule
    obtain ⟨⟨construct, r⟩, hfind, rfl⟩ := Option.map_eq_some_iff.1 hr
    obtain rfl : construct = n.kind := by simpa using List.find?_some hfind
    obtain ⟨hnested, hfield⟩ := rules_field _ (List.mem_of_find?_eq_some hfind)
    have hgiven : (Language.draft r name n.row around).kind = r.kind :=
      Language.kind_draft hnested name n.row around
    obtain ⟨hvisible, hkind⟩ := amend_modifiers (s := ⟨n, kind, source⟩) hm
      (Language.draft r name n.row around)
    rw [Language.attribute?_draft (by decide) (by decide), Option.or_none] at hvisible
    simp only [hgiven, kindBehind, hfield] at hkind
    exact ⟨hvisible, r, hr, hkind⟩
  refine ⟨hwords, fun hlegible => hwords.congr fun w hw => ?_⟩
  rw [Bool.eq_iff_iff, List.contains_iff_mem, hlegible.mem_wordsIn hw]

/-- Tokens behind an annotation make a public constant. -/
theorem modifiers_decide_annotated :
    let source :=
      "class M \x7b\n @Deprecated\n public static final int X = 1;\n\x7d\n".toUTF8.toList
    let token (kind : String) (start stop row : Nat) : SyntaxNode :=
      .mk none kind false start stop row []
    let name (start stop row : Nat) : SyntaxNode :=
      .mk (some "name") "identifier" true start stop row []
    let modifiers : SyntaxNode := .mk none "modifiers" true 11 43 1
      [.mk none "marker_annotation" true 11 22 1 [token "@" 11 12 1, name 12 22 1],
        token "public" 24 30 2, token "static" 31 37 2, token "final" 38 43 2]
    let field : SyntaxNode := .mk none "field_declaration" true 11 54 1
      [modifiers, .mk (some "type") "integral_type" true 44 47 2 [token "int" 44 47 2],
        .mk (some "declarator") "variable_declarator" true 48 53 2
          [name 48 49 2, token "=" 50 51 2,
            .mk (some "value") "decimal_integer_literal" true 52 53 2 []],
        token ";" 53 54 2]
    let root : SyntaxNode := .mk none "program" true 0 57 0
      [.mk none "class_declaration" true 0 56 0
        [token "class" 0 5 0, name 6 7 0,
          .mk (some "body") "class_body" true 8 56 0
            [token "\x7b" 8 9 0, field, token "\x7d" 55 56 3]]]
    ∃ e, language.Declares source ⟨root, false⟩ field e ∧
      field.childOfKind? "modifiers" = some modifiers ∧ Legible source modifiers ∧
      e.payload.attribute? "visibility" = some "public" ∧ e.kind = .constant := by
  intro source token name modifiers field root
  obtain ⟨e, hdeclares, -⟩ : ∃ e, language.Declares source ⟨root, false⟩ field e ∧ _ :=
    Language.exists_declares (fun _ => ()) () [0, 2, 1] (by decide +kernel) rfl
  have hreads : ∀ {start stop : Nat} {cs : List Char}, start ≤ stop ∧
      (source.drop start).take (stop - start) = Text.bytesOf cs →
      SyntaxNode.Reads source start stop cs := fun h => ⟨h.1, h.2⟩
  have hannotation : SyntaxNode.Reads source 11 22 "@Deprecated".toList :=
    hreads (by decide +kernel)
  have hpublic : SyntaxNode.Reads source 24 30 "public".toList := hreads (by decide +kernel)
  have hstatic : SyntaxNode.Reads source 31 37 "static".toList := hreads (by decide +kernel)
  have hfinal : SyntaxNode.Reads source 38 43 "final".toList := hreads (by decide +kernel)
  have hbreak : SyntaxNode.Reads source 22 24 ['\n', ' '] := hreads (by decide +kernel)
  have hspace : SyntaxNode.Reads source 30 31 [' '] := hreads (by decide +kernel)
  have hspace' : SyntaxNode.Reads source 37 38 [' '] := hreads (by decide +kernel)
  have hblank : ∀ c ∈ ['\n', ' '], Text.isBlank c = true := List.all_eq_true.1 (by decide)
  have hblank' : ∀ c ∈ [' '], Text.isBlank c = true := List.all_eq_true.1 (by decide)
  -- blanks part the annotation and the three tokens, and the annotation has no deciding word
  have hlegible : Legible source modifiers := by
    refine ⟨.next hannotation hbreak hblank (by decide) (.next hpublic hspace hblank' (by decide)
      (.next hstatic hspace' hblank' (by decide) (.last hfinal))), ?_, ?_⟩
    · show ∀ c ∈ [_, _, _, _], _
      simp only [List.forall_mem_cons]
      exact ⟨fun h => absurd h (by decide), fun _ _ => hpublic, fun _ _ => hstatic,
        fun _ _ => hfinal, List.forall_mem_nil _⟩
    · show ∀ c ∈ [_, _, _, _], _
      simp only [List.forall_mem_cons]
      refine ⟨fun _ cs hcs => ?_, fun h => absurd ⟨rfl, by decide⟩ h,
        fun h => absurd ⟨rfl, by decide⟩ h, fun h => absurd ⟨rfl, by decide⟩ h,
        List.forall_mem_nil _⟩
      rw [hcs.unique hannotation]
      decide
  obtain ⟨hvisible, r, hr, hkind⟩ := (modifiers_decide hdeclares rfl).2 hlegible
  refine ⟨e, hdeclares, rfl, hlegible, ?_, ?_⟩
  · rw [hvisible]
    decide +kernel
  · rw [hkind, if_pos (by decide +kernel)]

/-- The argument of an annotation makes a private field a public constant. -/
theorem not_decidedBy_hasToken :
    let source :=
      "class M \x7b\n @A(\x22x public static final y\x22) private int m;\n\x7d\n".toUTF8.toList
    let token (kind : String) (start stop row : Nat) : SyntaxNode :=
      .mk none kind false start stop row []
    let name (start stop row : Nat) : SyntaxNode :=
      .mk (some "name") "identifier" true start stop row []
    let modifiers : SyntaxNode := .mk none "modifiers" true 11 48 1
      [.mk none "annotation" true 11 40 1
        [token "@" 11 12 1, name 12 13 1,
          .mk (some "arguments") "annotation_argument_list" true 13 40 1
            [token "(" 13 14 1,
              .mk none "string_literal" true 14 39 1
                [token "\x22" 14 15 1, .mk none "string_fragment" true 15 38 1 [],
                  token "\x22" 38 39 1],
              token ")" 39 40 1]],
        token "private" 41 48 1]
    let field : SyntaxNode := .mk none "field_declaration" true 11 55 1
      [modifiers, .mk (some "type") "integral_type" true 49 52 1 [token "int" 49 52 1],
        .mk (some "declarator") "variable_declarator" true 53 54 1 [name 53 54 1],
        token ";" 54 55 1]
    let root : SyntaxNode := .mk none "program" true 0 58 0
      [.mk none "class_declaration" true 0 57 0
        [token "class" 0 5 0, name 6 7 0,
          .mk (some "body") "class_body" true 8 57 0
            [token "\x7b" 8 9 0, field, token "\x7d" 56 57 2]]]
    ∃ e, language.Declares source ⟨root, false⟩ field e ∧
      field.childOfKind? "modifiers" = some modifiers ∧
      (e.kind, e.payload.attribute? "visibility") = (.constant, some "public") ∧
      ¬ DecidedBy (hasToken modifiers) field e := by
  intro source token name modifiers field root
  obtain ⟨e, hdeclares, he⟩ : ∃ e, language.Declares source ⟨root, false⟩ field e ∧ _ :=
    Language.exists_declares (fun e => (e.kind, e.payload.attribute? "visibility"))
      (.constant, some "public") [0, 2, 1] (by decide +kernel) rfl
  -- by its tokens the field would be private
  have hprivate : visibilities.find? (hasToken modifiers) = some "private" := by decide +kernel
  refine ⟨e, hdeclares, rfl, he, fun hdecided => ?_⟩
  have hsame : some "private" = some "public" :=
    hprivate.symm.trans (hdecided.visibility.symm.trans (congrArg Prod.snd he))
  exact absurd hsame (by decide)

end Java

end Outline
