import Mathlib.Data.Nat.Digits.Defs
import Mathlib.Tactic.SplitIfs
import Outline.Json.Value
import Outline.Proofs.Text.Encoding
import Outline.Text.Quoted

/-!
# Outline.Proofs.Text.Unambiguous

**Which writings can be taken apart again.** A writing is `Unambiguous` in front of some texts if,
whenever one of these follows, the characters tell from the front what was written and where it
ends. This is closed under quoting and under listing:

* characters whose escapes are unambiguous give unambiguous texts between quotes (`quoting`), and
* items that are unambiguous in front of a comma or a closing bracket give unambiguous lists between
  brackets (`listing`).

Both ways to escape a character, that of quoted texts and that of JSON, are unambiguous whatever
follows (`unambiguous_quoted`, `unambiguous_string`): a character that is not escaped is no
backslash, and what stands behind a backslash tells how the escape goes on.
-/

namespace Outline.Text

/-- In front of the texts `before`, what is written tells what it was written for and where it
ends. -/
def Unambiguous {α : Type} (before : List Char → Prop) (write : α → List Char) : Prop :=
  ∀ ⦃a b : α⦄ ⦃x y : List Char⦄, before x → before y → write a ++ x = write b ++ y → a = b ∧ x = y

/-- Any text. -/
def Anything (_ : List Char) : Prop := True

namespace Unambiguous

variable {α β : Type} {before : List Char → Prop} {write : α → List Char}

theorem injective (h : Unambiguous before write) (hnil : before []) : Function.Injective write :=
  fun _ _ hab => (h hnil hnil (congrArg (· ++ []) hab)).1

/-- A reader that takes from the front what was written makes the writing unambiguous. -/
theorem of_reader {read : List Char → Option (α × List Char)}
    (h : ∀ a x, read (write a ++ x) = some (a, x)) : Unambiguous Anything write := by
  intro a b x y _ _ heq
  have hread := h a x
  rw [heq, h b y, Option.some.injEq, Prod.mk.injEq] at hread
  exact ⟨hread.1.symm, hread.2.symm⟩

/-! ### Texts between quotes -/

/-- A text between quotes is unambiguous if its characters are and none of them looks like a
quote. -/
theorem quoting {code : Char → List Char} (h : Unambiguous Anything code)
    (hquote : ∀ c, ∃ d r, code c = d :: r ∧ d ≠ '"') :
    Unambiguous Anything fun s : String => '"' :: s.toList.flatMap code ++ ['"'] := by
  have hend : ∀ c x y, code c ++ x ≠ '"' :: y := by
    intro c x y heq
    obtain ⟨d, r, hd, hne⟩ := hquote c
    rw [hd] at heq
    exact hne (List.cons.inj heq).1
  have hchars : ∀ (cs ds x y : List Char),
      cs.flatMap code ++ '"' :: x = ds.flatMap code ++ '"' :: y → cs = ds ∧ x = y := by
    intro cs
    induction cs with
    | nil =>
        intro ds x y heq
        cases ds with
        | nil => exact ⟨rfl, (List.cons.inj heq).2⟩
        | cons d ds =>
            rw [List.flatMap_cons, List.append_assoc] at heq
            exact absurd heq.symm (hend d _ _)
    | cons c cs ih =>
        intro ds x y heq
        rw [List.flatMap_cons, List.append_assoc] at heq
        cases ds with
        | nil => exact absurd heq (hend c _ _)
        | cons d ds =>
            rw [List.flatMap_cons, List.append_assoc] at heq
            obtain ⟨rfl, hrest⟩ := h trivial trivial heq
            exact (ih ds x y hrest).imp_left (congrArg (c :: ·))
  intro s t x y _ _ heq
  have hinner : s.toList.flatMap code ++ ['"'] ++ x = t.toList.flatMap code ++ ['"'] ++ y :=
    (List.cons.inj heq).2
  rw [List.append_assoc, List.append_assoc] at hinner
  exact (hchars _ _ _ _ hinner).imp_left String.toList_inj.1

end Unambiguous

/-! ### Items between brackets -/

/-- The characters that may follow an item: a comma, a closing bracket or the end of a line. -/
def marks : List Char := [',', ']', '\n']

/-- A text that goes on with a mark. -/
def AtMark (x : List Char) : Prop := ∃ c ∈ marks, ∃ r, x = c :: r

theorem atMark_cons {c : Char} (h : c ∈ marks) (x : List Char) : AtMark (c :: x) := ⟨c, h, x, rfl⟩

/-- What a property tells apart from what follows can be taken off the front. -/
theorem append_inj_of_takeWhile {α : Type} {p : α → Bool} {u v x y : List α}
    (hu : ∀ c ∈ u, p c = true) (hv : ∀ c ∈ v, p c = true) (hx : ∀ c ∈ x.head?, p c = false)
    (hy : ∀ c ∈ y.head?, p c = false) (h : u ++ x = v ++ y) : u = v ∧ x = y := by
  have hfront : ∀ {w z : List α}, (∀ c ∈ w, p c = true) → (∀ c ∈ z.head?, p c = false) →
      (w ++ z).takeWhile p = w := by
    intro w z hw hz
    rw [List.takeWhile_append_of_pos hw]
    cases z with
    | nil => simp
    | cons c z => simp [hz c rfl]
  have huv : u = v := by rw [← hfront hu hx, h, hfront hv hy]
  subst huv
  exact ⟨rfl, List.append_cancel_left h⟩

/-- A word in front of a mark ends where the mark stands. -/
theorem append_inj_of_atMark {u v x y : List Char} (hu : ∀ c ∈ u, c ∉ marks)
    (hv : ∀ c ∈ v, c ∉ marks) (hx : AtMark x) (hy : AtMark y) (h : u ++ x = v ++ y) :
    u = v ∧ x = y := by
  have hmark : ∀ {z : List Char}, AtMark z → ∀ c ∈ z.head?, decide (c ∉ marks) = false := by
    rintro _ ⟨c, hc, r, rfl⟩ d hd
    simpa [show c = d by simpa using hd] using hc
  exact append_inj_of_takeWhile (fun c hc => decide_eq_true (hu c hc))
    (fun c hc => decide_eq_true (hv c hc)) (hmark hx) (hmark hy) h

/-- Pieces behind the first, each with the separator in front of it. -/
theorem intercalate_cons_flatMap (sep p : List Char) (ps : List (List Char)) :
    sep.intercalate (p :: ps) = p ++ ps.flatMap (sep ++ ·) := by
  induction ps generalizing p with
  | nil => rw [List.intercalate_singleton, List.flatMap_nil, List.append_nil]
  | cons q ps ih =>
      rw [List.intercalate_cons_cons, ih, List.flatMap_cons, List.append_assoc, List.append_assoc]

namespace Unambiguous

variable {α : Type} {write : α → List Char} {close : Char}

theorem atMark_more (write : α → List Char) (hclose : close ∈ marks) (space : List Char)
    (as : List α) (x : List Char) :
    AtMark ((as.map write).flatMap ((',' :: space) ++ ·) ++ close :: x) := by
  cases as with
  | nil => exact atMark_cons hclose x
  | cons a as => exact atMark_cons (by decide) _

/-- Items behind the first, each with its comma, up to a mark that is no comma. -/
theorem more (h : Unambiguous AtMark write) (hclose : close ∈ marks) (hcomma : close ≠ ',')
    (space : List Char) {as bs : List α} {x y : List Char}
    (heq : (as.map write).flatMap ((',' :: space) ++ ·) ++ close :: x =
      (bs.map write).flatMap ((',' :: space) ++ ·) ++ close :: y) : as = bs ∧ x = y := by
  induction as generalizing bs with
  | nil =>
      cases bs with
      | nil => exact ⟨rfl, (List.cons.inj heq).2⟩
      | cons b bs => exact absurd (List.cons.inj heq).1 hcomma
  | cons a as ih =>
      cases bs with
      | nil => exact absurd (List.cons.inj heq).1.symm hcomma
      | cons b bs =>
          simp only [List.map_cons, List.flatMap_cons, List.append_assoc] at heq
          obtain ⟨rfl, hrest⟩ := h (atMark_more write hclose space as x)
            (atMark_more write hclose space bs y) (List.append_cancel_left heq)
          exact (ih hrest).imp_left (congrArg (a :: ·))

/-- One item or more, up to a mark that is no comma. -/
theorem items (h : Unambiguous AtMark write) (hclose : close ∈ marks) (hcomma : close ≠ ',')
    (space : List Char) {a b : α} {as bs : List α} {x y : List Char}
    (heq : (',' :: space).intercalate ((a :: as).map write) ++ close :: x =
      (',' :: space).intercalate ((b :: bs).map write) ++ close :: y) :
    a :: as = b :: bs ∧ x = y := by
  rw [List.map_cons, List.map_cons, intercalate_cons_flatMap, intercalate_cons_flatMap,
    List.append_assoc, List.append_assoc] at heq
  obtain ⟨rfl, hrest⟩ := h (atMark_more write hclose space as x)
    (atMark_more write hclose space bs y) heq
  exact (h.more hclose hcomma space hrest).imp_left (congrArg (a :: ·))

/-- A list between brackets on one line is unambiguous if its items are and none of them looks like
the end of the list. -/
theorem listing (h : Unambiguous AtMark write) (hfirst : ∀ a, (write a).head? ≠ some ']')
    (hne : ∀ a, write a ≠ []) (space : List Char) :
    Unambiguous Anything fun as : List α =>
      '[' :: (',' :: space).intercalate (as.map write) ++ [']'] := by
  have hend : ∀ a as x y,
      (',' :: space).intercalate ((a :: as).map write) ++ ']' :: x ≠ ']' :: y := by
    intro a as x y heq
    rw [List.map_cons, intercalate_cons_flatMap, List.append_assoc] at heq
    cases hwrite : write a with
    | nil => exact hne a hwrite
    | cons d r =>
        rw [hwrite] at heq
        exact hfirst a (by rw [hwrite, (List.cons.inj heq).1]; rfl)
  intro as bs x y _ _ heq
  have hinner : (',' :: space).intercalate (as.map write) ++ [']'] ++ x =
      (',' :: space).intercalate (bs.map write) ++ [']'] ++ y := (List.cons.inj heq).2
  rw [List.append_assoc, List.append_assoc] at hinner
  cases as with
  | nil =>
      cases bs with
      | nil => exact ⟨rfl, (List.cons.inj hinner).2⟩
      | cons b bs => exact absurd hinner.symm (hend b bs _ _)
  | cons a as =>
      cases bs with
      | nil => exact absurd hinner (hend a as _ _)
      | cons b bs => exact h.items (by decide) (by decide) space hinner

end Unambiguous

/-! ### Escaped characters -/

/-- The number that hexadecimal digits stand for. -/
def hexSum (cs : List Char) : Nat := cs.foldl (fun n c => 16 * n + (hexValue? c).getD 0) 0

theorem digitChar_ne_brace : ∀ {d : Nat}, d < 16 → Nat.digitChar d ≠ '\x7d' := by decide

theorem hexSum_concat (cs : List Char) {d : Nat} (hd : d < 16) :
    hexSum (cs ++ [Nat.digitChar d]) = 16 * hexSum cs + d := by
  rw [hexSum, List.foldl_append, List.foldl_cons, List.foldl_nil, hexValue?_digitChar hd]
  rfl

/-- The digits of a number stand for it, and no brace is among them. -/
theorem hexOf_spec (n : Nat) : hexSum (hexOf n) = n ∧ ∀ c ∈ hexOf n, c ≠ '\x7d' := by
  unfold hexOf
  -- the last digit is what is left by the division
  induction n using Nat.base_induction 16 (by decide) with
  | single d hd =>
      rw [Nat.toDigits_of_lt_base hd]
      refine ⟨?_, fun c hc => List.mem_singleton.1 hc ▸ digitChar_ne_brace hd⟩
      have hsum := hexSum_concat [] hd
      rwa [List.nil_append, show hexSum [] = 0 from rfl, Nat.mul_zero, Nat.zero_add] at hsum
  | digit m d hd hm ih =>
      rw [← Nat.toDigits_append_toDigits (by decide) hm hd, Nat.toDigits_of_lt_base hd]
      refine ⟨by rw [hexSum_concat _ hd, ih.1], fun c hc => ?_⟩
      rcases List.mem_append.1 hc with hc | hc
      · exact ih.2 c hc
      · exact List.mem_singleton.1 hc ▸ digitChar_ne_brace hd

/-- The character at the front of a quoted text, and what follows it. -/
def readQuotedChar : List Char → Option (Char × List Char)
  | '\\' :: '0' :: r => some ('\x00', r)
  | '\\' :: 't' :: r => some ('\t', r)
  | '\\' :: 'r' :: r => some ('\r', r)
  | '\\' :: 'n' :: r => some ('\n', r)
  | '\\' :: 'u' :: '\x7b' :: r =>
    some (Char.ofNat (hexSum (r.takeWhile (· ≠ '\x7d'))), (r.dropWhile (· ≠ '\x7d')).tail)
  | '\\' :: c :: r => some (c, r)
  | c :: r => some (c, r)
  | [] => none

theorem readQuotedChar_quotedChar (c : Char) (x : List Char) :
    readQuotedChar (quotedChar c ++ x) = some (c, x) := by
  unfold quotedChar
  split_ifs with hzero htab hreturn hline hslash hquote
  · rw [hzero]; rfl
  · rw [htab]; rfl
  · rw [hreturn]; rfl
  · rw [hline]; rfl
  · rw [hslash]; rfl
  · rw [hquote]; rfl
  · obtain ⟨hsum, hbrace⟩ := hexOf_spec c.toNat
    have hdigits : ∀ d ∈ hexOf c.toNat, decide (d ≠ '\x7d') = true := fun d hd =>
      decide_eq_true (hbrace d hd)
    rw [List.append_assoc, List.append_assoc]
    show some (Char.ofNat (hexSum ((hexOf c.toNat ++ '\x7d' :: x).takeWhile (· ≠ '\x7d'))),
      ((hexOf c.toNat ++ '\x7d' :: x).dropWhile (· ≠ '\x7d')).tail) = _
    rw [List.takeWhile_append_of_pos hdigits, List.dropWhile_append_of_pos hdigits,
      List.takeWhile_cons_of_neg (by decide), List.dropWhile_cons_of_neg (by decide),
      List.append_nil, hsum, Char.ofNat_toNat]
    rfl
  · rw [List.singleton_append, readQuotedChar]
    all_goals (intros; exact hslash ‹c = '\\'›)

/-- How a character stands in a quoted text tells which one it is. -/
theorem unambiguous_quotedChar : Unambiguous Anything quotedChar :=
  .of_reader readQuotedChar_quotedChar

/-- A quoted text tells which text it is and where it ends. -/
theorem unambiguous_quoted : Unambiguous Anything fun s => (quoted s).toList := by
  have hfirst : ∀ c, ∃ d r, quotedChar c = d :: r ∧ d ≠ '"' := by
    intro c
    unfold quotedChar
    split_ifs with _ _ _ _ _ hquote
    case neg => exact ⟨c, [], rfl, hquote⟩
    all_goals exact ⟨_, _, rfl, by decide⟩
  have h := unambiguous_quotedChar.quoting hfirst
  simpa only [quoted, String.toList_ofList] using h

/-- The character at the front of a JSON string, and what follows it. -/
def readEscapedChar : List Char → Option (Char × List Char)
  | '\\' :: 'b' :: r => some ('\x08', r)
  | '\\' :: 'f' :: r => some ('\x0c', r)
  | '\\' :: 'n' :: r => some ('\n', r)
  | '\\' :: 'r' :: r => some ('\r', r)
  | '\\' :: 't' :: r => some ('\t', r)
  | '\\' :: 'u' :: '0' :: '0' :: h :: l :: r => some (Char.ofNat (hexSum [h, l]), r)
  | '\\' :: c :: r => some (c, r)
  | c :: r => some (c, r)
  | [] => none

theorem readEscapedChar_escapedChar (c : Char) (x : List Char) :
    readEscapedChar (Json.escapedChar c ++ x) = some (c, x) := by
  unfold Json.escapedChar
  split_ifs with hquote hslash hback hfeed hline hreturn htab hcontrol
  · rw [hquote]; rfl
  · rw [hslash]; rfl
  · rw [hback]; rfl
  · rw [hfeed]; rfl
  · rw [hline]; rfl
  · rw [hreturn]; rfl
  · rw [htab]; rfl
  · have hbyte : (UInt8.ofNat c.toNat).toNat = c.toNat := by
      rw [UInt8.toNat_ofNat']
      omega
    have hsum : hexSum [Nat.digitChar (c.toNat / 16), Nat.digitChar (c.toNat % 16)] = c.toNat := by
      rw [hexSum, List.foldl_cons, List.foldl_cons, List.foldl_nil, hexValue?_digitChar (by omega),
        hexValue?_digitChar (by omega), Option.getD_some, Option.getD_some]
      omega
    rw [hexOfByte, hbyte]
    show some (Char.ofNat (hexSum [_, _]), x) = _
    rw [hsum, Char.ofNat_toNat]
  · rw [List.singleton_append, readEscapedChar]
    all_goals (intros; exact hslash ‹c = '\\'›)

/-- How a character stands in a JSON string tells which one it is. -/
theorem unambiguous_escapedChar : Unambiguous Anything Json.escapedChar :=
  .of_reader readEscapedChar_escapedChar

/-- A JSON string tells which text it is and where it ends. -/
theorem unambiguous_string : Unambiguous Anything Json.string := by
  refine unambiguous_escapedChar.quoting fun c => ?_
  unfold Json.escapedChar
  split_ifs with hquote
  case neg => exact ⟨c, [], rfl, hquote⟩
  all_goals exact ⟨_, _, rfl, by decide⟩

end Outline.Text
