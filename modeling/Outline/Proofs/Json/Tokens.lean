import Outline.Json.Token
import Outline.Json.Value
import Outline.Proofs.Text.Encoding

/-!
# Outline.Proofs.Json.Tokens

**The tokens of a written value.** Cutting the text of a value on one line into tokens gives the
tokens that the value consists of (`Value.tokens`), whatever follows it in the text; so every
string that is written, with all its escapes, and every natural number of 64 bits is read back.

Each kind of piece has a lemma of the same shape: the bytes of the piece, followed by `rest`, are
cut into its tokens, followed by the tokens of `rest`. A number ends only where its digits do, so
its lemma asks that `rest` does not go on with the number (`Ends`).

A string is read twice: once for what it says (`readBytes`) and once for where it ends
(`skipString`), since a reader that does not want a string passes over it without judging it. So the
lemmas on strings come in pairs.
-/

namespace Outline.Json

open Text (bytesOf bytesOf_append bytesOf_cons)

/-! ### Strings

A character is written in one of three ways: as its own bytes, as a letter behind a backslash, or as
its code point in four digits (`escapedChar_cases`). A piece of the first kind goes through the
readers byte by byte; the other two are an `Escape`, which says what both readers make of the bytes
behind the backslash. All else is an induction over the characters. -/

/-- The bytes that stand for themselves inside a string. -/
def Verbatim (b : UInt8) : Prop := b ≠ 34 ∧ b ≠ 92 ∧ ¬ b < 32

/-- A character that is not escaped consists of bytes that stand for themselves. -/
theorem verbatim_of_mem {c : Char} (hq : c ≠ '"') (hs : c ≠ '\\') (hc : ¬ c.toNat < 32) {b : UInt8}
    (h : b ∈ String.utf8EncodeChar c) : Verbatim b := by
  have hne : ∀ d : Char, c ≠ d → c.toNat ≠ d.toNat := fun d hd he => hd (Char.toNat_inj.1 he)
  have h34 : c.toNat ≠ 34 := hne '"' hq
  have h92 : c.toNat ≠ 92 := hne '\\' hs
  -- A character of one byte is that byte; the bytes of all others are beyond the ones that matter.
  rcases Text.toNat_of_mem_utf8EncodeChar h with hb | hb
  · refine ⟨?_, ?_, ?_⟩
    · rintro rfl
      exact h34 hb.symm
    · rintro rfl
      exact h92 hb.symm
    · rw [UInt8.lt_iff_toNat_lt, hb]
      exact hc
  · refine ⟨?_, ?_, ?_⟩
    · rintro rfl
      exact absurd hb (by decide)
    · rintro rfl
      exact absurd hb (by decide)
    · rw [UInt8.lt_iff_toNat_lt]
      exact fun hlt => absurd (Nat.le_trans hb (Nat.le_of_lt hlt)) (by decide)

/-- Bytes that stand for themselves are taken over. -/
theorem readBytes_verbatim {bs : List UInt8} (h : ∀ b ∈ bs, Verbatim b) (acc rest : List UInt8) :
    readBytes acc (bs ++ rest) = readBytes (bs.reverse ++ acc) rest := by
  induction bs generalizing acc with
  | nil => rfl
  | cons b bs ih =>
      obtain ⟨h34, h92, h32⟩ := h b List.mem_cons_self
      rw [List.cons_append, readBytes, if_neg h34, if_neg h32, if_neg h92,
        ih (fun x hx => h x (List.mem_cons_of_mem _ hx)), List.reverse_cons, List.append_assoc]
      rfl

/-- They are passed over as well. -/
theorem skipString_verbatim {bs : List UInt8} (h : ∀ b ∈ bs, Verbatim b) (rest : List UInt8) :
    skipString (bs ++ rest) = skipString rest := by
  induction bs with
  | nil => rfl
  | cons b bs ih =>
      obtain ⟨h34, h92, h32⟩ := h b List.mem_cons_self
      rw [List.cons_append, skipString, if_neg h34, if_neg h32, if_neg h92,
        ih fun x hx => h x (List.mem_cons_of_mem _ hx)]

/-- What reading an escape comes to, if it stands behind its backslash. -/
structure Escape (bs : List UInt8) (c : Char) : Prop where
  read : ∀ rest, readEscape (bs ++ rest) = .ok (String.utf8EncodeChar c, bs.length)
  skip : ∀ rest, skipEscape (bs ++ rest) = .ok bs.length

/-- A letter other than `u` stands for one byte. -/
theorem Escape.letter {b e : UInt8} {c : Char} (hb : b ≠ 117) (he : simpleEscape? b = some e)
    (hc : String.utf8EncodeChar c = [e]) : Escape [b] c where
  read rest := by
    show readEscape (b :: rest) = _
    unfold readEscape
    split
    · rename_i h
      cases h
    · rename_i h
      exact absurd (List.cons.inj h).1 hb
    · rename_i h
      obtain ⟨rfl, rfl⟩ := List.cons.inj h
      rw [he, hc]
      rfl
  skip rest := by
    show skipEscape (b :: rest) = _
    unfold skipEscape
    split
    · rename_i h
      cases h
    · rename_i h
      exact absurd (List.cons.inj h).1 hb
    · rename_i h
      obtain ⟨rfl, rfl⟩ := List.cons.inj h
      rw [he]
      rfl

/-- A digit of sixteen is one byte, and has the value that it was written for. -/
theorem exists_digitByte : ∀ d < 16, ∃ b, String.utf8EncodeChar (Nat.digitChar d) = [b] ∧
    Text.hexValue? (Char.ofNat b.toNat) = some d := by
  intro d hd
  refine ⟨UInt8.ofNat (Nat.digitChar d).toNat, ?_⟩
  revert d
  decide

/-- Four digits of a number below 256. -/
theorem hex4_digits {n : Nat} {h l : UInt8}
    (hh : Text.hexValue? (Char.ofNat h.toNat) = some (n / 16))
    (hl : Text.hexValue? (Char.ofNat l.toNat) = some (n % 16)) (rest : List UInt8) :
    hex4 (48 :: 48 :: h :: l :: rest) = .ok n := by
  have h0 : Text.hexValue? (Char.ofNat (48 : UInt8).toNat) = some 0 := by decide
  have hn : 16 * (16 * (16 * (16 * 0 + 0) + 0) + n / 16) + n % 16 = n := by omega
  simp only [hex4, List.mapM_cons, List.mapM_nil, h0, hh, hl, Option.bind_eq_bind, Option.bind_some,
    Option.pure_def, List.foldl_cons, List.foldl_nil, hn]

/-- A control character that is written as its code point. -/
theorem Escape.point {n : Nat} (hn : n < 32) :
    Escape (bytesOf (['u', '0', '0'] ++ Text.hexOfByte (UInt8.ofNat n))) (Char.ofNat n) := by
  have hbyte : (UInt8.ofNat n).toNat = n := by
    rw [UInt8.toNat_ofNat']
    omega
  obtain ⟨h, hh, hhv⟩ := exists_digitByte (n / 16) (by omega)
  obtain ⟨l, hl, hlv⟩ := exists_digitByte (n % 16) (by omega)
  -- The number is below 32, so two of its four digits are zero and the others are those of its
  -- byte.
  have hbytes : bytesOf (['u', '0', '0'] ++ Text.hexOfByte (UInt8.ofNat n)) =
      [117, 48, 48, h, l] := by
    rw [Text.hexOfByte, hbyte, bytesOf_append]
    simp only [bytesOf_cons, hh, hl]
    rfl
  rw [hbytes]
  constructor
  · intro rest
    have h4 := hex4_digits hhv hlv rest
    -- Code points as small as this are no surrogates, so no second escape is looked for.
    have h₁ : ¬ (56320 ≤ n ∧ n ≤ 57343) := by omega
    have h₂ : n < 55296 ∨ 56319 < n := by omega
    show (readPoint (48 :: 48 :: h :: l :: rest)).map _ = _
    simp [readPoint, h4, bind, Except.bind, pure, Except.pure, h₁, h₂, encodedPoint, Except.map]
  · intro rest
    show (hex4 (48 :: 48 :: h :: l :: rest)).map _ = _
    rw [hex4_digits hhv hlv rest]
    rfl

/-- The characters with an escape of one letter, the letter's byte and the character's byte. -/
def letterEscapes : List (Char × UInt8 × UInt8) :=
  [('"', 34, 34), ('\\', 92, 92), ('\x08', 98, 8), ('\x0c', 102, 12), ('\n', 110, 10),
    ('\r', 114, 13), ('\t', 116, 9)]

/-- The seven of them, looked through: what is written is what is read. -/
theorem letterEscapes_written : ∀ x ∈ letterEscapes, bytesOf (escapedChar x.1) = [92, x.2.1] ∧
    x.2.1 ≠ 117 ∧ simpleEscape? x.2.1 = some x.2.2 ∧ String.utf8EncodeChar x.1 = [x.2.2] := by
  decide

/-- A character of a string is written as bytes that stand for themselves, or as an escape. -/
theorem escapedChar_cases (c : Char) :
    (bytesOf (escapedChar c) = String.utf8EncodeChar c ∧
        ∀ b ∈ String.utf8EncodeChar c, Verbatim b) ∨
      ∃ bs, bytesOf (escapedChar c) = 92 :: bs ∧ Escape bs c := by
  -- Seven characters have a letter; of the others those below the space have a code point.
  by_cases hletter : ∃ x ∈ letterEscapes, x.1 = c
  · obtain ⟨x, hx, rfl⟩ := hletter
    obtain ⟨hbytes, hb, he, hc⟩ := letterEscapes_written x hx
    exact .inr ⟨_, hbytes, .letter hb he hc⟩
  · have hne : ∀ x ∈ letterEscapes, c ≠ x.1 := fun x hx hc => hletter ⟨x, hx, hc.symm⟩
    simp only [letterEscapes, List.forall_mem_cons] at hne
    obtain ⟨h₁, h₂, h₃, h₄, h₅, h₆, h₇, -⟩ := hne
    have hesc : escapedChar c = if c.toNat < 0x20 then
        ['\\', 'u', '0', '0'] ++ Text.hexOfByte (UInt8.ofNat c.toNat) else [c] := by
      rw [escapedChar, if_neg h₁, if_neg h₂, if_neg h₃, if_neg h₄, if_neg h₅, if_neg h₆, if_neg h₇]
    by_cases h₈ : c.toNat < 0x20
    · have hpoint := Escape.point h₈
      rw [Char.ofNat_toNat] at hpoint
      refine .inr ⟨_, ?_, hpoint⟩
      rw [hesc, if_pos h₈]
      rfl
    · refine .inl ⟨?_, fun b hb => verbatim_of_mem h₁ h₂ h₈ hb⟩
      rw [hesc, if_neg h₈, bytesOf_cons, Text.bytesOf_nil, List.append_nil]

/-- Reading a string gives the bytes of the text that was written. -/
theorem readBytes_escaped (cs : List Char) (acc rest : List UInt8) :
    readBytes acc (bytesOf (cs.flatMap escapedChar) ++ 34 :: rest) =
      .ok (acc.reverse ++ bytesOf cs) := by
  induction cs generalizing acc with
  | nil =>
      rw [List.flatMap_nil, Text.bytesOf_nil, List.nil_append, readBytes, if_pos rfl,
        List.append_nil]
  | cons c cs ih =>
      rw [List.flatMap_cons, bytesOf_append, List.append_assoc, bytesOf_cons]
      rcases escapedChar_cases c with ⟨hbytes, hverbatim⟩ | ⟨bs, hbytes, hescape⟩
      · rw [hbytes, readBytes_verbatim hverbatim, ih, List.reverse_append, List.reverse_reverse,
          List.append_assoc]
      -- Behind the backslash the escape says how many bytes it takes.
      · rw [hbytes, List.cons_append, readBytes, if_neg (by decide), if_neg (by decide), if_pos rfl,
          hescape.read]
        simp only [List.drop_left, ih, List.reverse_append, List.reverse_reverse, List.append_assoc]

/-- Passing over a string leaves what follows it. -/
theorem skipString_escaped (cs : List Char) (rest : List UInt8) :
    skipString (bytesOf (cs.flatMap escapedChar) ++ 34 :: rest) = .ok rest := by
  induction cs with
  | nil => rw [List.flatMap_nil, Text.bytesOf_nil, List.nil_append, skipString, if_pos rfl]
  | cons c cs ih =>
      rw [List.flatMap_cons, bytesOf_append, List.append_assoc]
      rcases escapedChar_cases c with ⟨hbytes, hverbatim⟩ | ⟨bs, hbytes, hescape⟩
      · rw [hbytes, skipString_verbatim hverbatim, ih]
      · rw [hbytes, List.cons_append, skipString, if_neg (by decide), if_neg (by decide),
          if_pos rfl,
          hescape.skip]
        simp only [List.drop_left, ih]

/-- The bytes are those of a text, so they are text again. -/
theorem readString_escaped (s : String) (rest : List UInt8) :
    readString (bytesOf (s.toList.flatMap escapedChar) ++ 34 :: rest) = .ok s := by
  rw [readString, readBytes_escaped, List.reverse_nil, List.nil_append]
  simp only [bind, Except.bind, Text.fromUTF8?_bytesOf]
  rfl

/-! ### Numbers

A number goes on as long as digits come, and may have a fraction and an exponent behind them; what
follows a written number has to be none of these. The value is summed up from the left, with a check
at each digit that it still fits 64 bits. A number that fits does so after each of its digits, which
is all that has to be known of the check. -/

/-- A text that does not go on with a number. -/
def Ends (bs : List UInt8) : Prop :=
  ∀ b r, bs = b :: r → isDigit b = false ∧ b ≠ 46 ∧ b ≠ 69 ∧ b ≠ 101

/-- The end of the text. -/
theorem ends_nil : Ends [] := fun _ _ h => nomatch h

/-- A byte that is no part of a number. -/
theorem ends_cons {b : UInt8} (h : isDigit b = false ∧ b ≠ 46 ∧ b ≠ 69 ∧ b ≠ 101)
    (r : List UInt8) : Ends (b :: r) := by
  rintro _ _ ⟨⟩
  exact h

/-- The bytes that a natural number is written with. -/
structure Digits (n : Nat) (bs : List UInt8) : Prop where
  all : ∀ b ∈ bs, isDigit b = true
  /-- Only zero is written with a leading zero. -/
  front : (n = 0 ∧ bs = [48]) ∨ ∃ b r, bs = b :: r ∧ b ≠ 48
  sum : n < Nat.pow 2 64 → bs.foldl Magnitude.addWhole {} = { digits := n }

/-- A digit of ten is one byte, and only zero is written as `0`. -/
theorem exists_decimalByte : ∀ d < 10, ∃ b, String.utf8EncodeChar (Nat.digitChar d) = [b] ∧
    isDigit b = true ∧ digitValue b = d ∧ (b = 48 → d = 0) := by
  intro d hd
  refine ⟨UInt8.ofNat (Nat.digitChar d).toNat, ?_⟩
  revert d
  decide

/-- One more digit, as long as the number fits. -/
theorem Magnitude.addWhole_of_lt {n : Nat} {b : UInt8} (h : 10 * n + digitValue b < Nat.pow 2 64) :
    Magnitude.addWhole { digits := n } b = { digits := 10 * n + digitValue b } := by
  have hn : ¬ Nat.pow 2 64 ≤ 10 * n + digitValue b := Nat.not_le_of_lt h
  simp [addWhole, hn]

/-- A natural number is written with its digits. -/
theorem digits_toDigits (n : Nat) : Digits n (bytesOf (Nat.toDigits 10 n)) := by
  -- The sum is taken from the left, so the induction takes the last digit away.
  induction n using Nat.base_induction 10 (by decide) with
  | single d hd =>
      obtain ⟨b, hb, hdigit, hvalue, hzero⟩ := exists_decimalByte d hd
      rw [Nat.toDigits_of_lt_base hd, bytesOf_cons, Text.bytesOf_nil, hb]
      refine ⟨by simpa using hdigit, ?_, fun hlt => ?_⟩
      · by_cases h48 : b = 48
        · exact .inl ⟨hzero h48, by rw [h48]; rfl⟩
        · exact .inr ⟨b, [], rfl, h48⟩
      · have hsum : 10 * 0 + digitValue b = d := by omega
        show Magnitude.addWhole { digits := 0 } b = _
        rw [Magnitude.addWhole_of_lt (by omega), hsum]
  | digit m d hd hm ih =>
      obtain ⟨b, hb, hdigit, hvalue, -⟩ := exists_decimalByte d hd
      rw [← Nat.toDigits_append_toDigits (by decide) hm hd, Nat.toDigits_of_lt_base hd,
        bytesOf_append, bytesOf_cons, Text.bytesOf_nil, hb]
      refine ⟨fun x hx => ?_, ?_, fun hlt => ?_⟩
      · rcases List.mem_append.1 hx with hx | hx
        · exact ih.all x hx
        · rw [List.mem_singleton.1 hx]
          exact hdigit
      -- The first digit is that of the number without the last one, which is not zero.
      · rcases ih.front with ⟨rfl, -⟩ | ⟨c, r, hc, hne⟩
        · cases hm
        · exact .inr ⟨c, r ++ [b], by rw [hc]; rfl, hne⟩
      · rw [List.foldl_append, ih.sum (by omega)]
        show Magnitude.addWhole { digits := m } b = _
        rw [Magnitude.addWhole_of_lt (by omega), hvalue]

/-- Behind the digits there is neither a fraction nor an exponent. -/
theorem scanWholeTail_of_ends {rest : List UInt8} (h : Ends rest) (n length : Nat) :
    scanWholeTail false { digits := n } length rest = ⟨.ok (some n), none, length⟩ := by
  unfold scanWholeTail
  split
  · exact absurd rfl (h _ _ rfl).2.1
  · exact absurd rfl (h _ _ rfl).2.2.1
  · exact absurd rfl (h _ _ rfl).2.2.2
  · rfl

/-- The digits end where the number does. -/
theorem takeWhile_digits {bs rest : List UInt8} (h : ∀ b ∈ bs, isDigit b = true)
    (he : Ends rest) : (bs ++ rest).takeWhile isDigit = bs := by
  rw [List.takeWhile_append_of_pos h]
  cases rest with
  | nil => rw [List.takeWhile_nil, List.append_nil]
  | cons b r => rw [List.takeWhile_cons_of_neg (by simp [(he b r rfl).1]), List.append_nil]

/-- Scanning a written number gives the number, and takes its digits. -/
theorem scanNumber_digits {n : Nat} {bs rest : List UInt8} (hn : n < Nat.pow 2 64) (h : Digits n bs)
    (he : Ends rest) : scanNumber (bs ++ rest) = ⟨.ok (some n), none, bs.length⟩ := by
  -- Zero is scanned apart, since no digit may follow a leading zero.
  rcases h.front with ⟨rfl, rfl⟩ | ⟨b, r, rfl, hb⟩
  · have hhead : rest.head?.any isDigit = false := by
      cases rest with
      | nil => rfl
      | cons c r => exact (he c r rfl).1
    show scanUnsigned false 0 (48 :: rest) = _
    rw [scanUnsigned, hhead]
    exact scanWholeTail_of_ends he 0 1
  · have hdigit := h.all b List.mem_cons_self
    -- A natural number has no sign.
    have hsign : b ≠ 45 := by
      rintro rfl
      cases hdigit
    have hunsigned : scanNumber (b :: r ++ rest) = scanUnsigned false 0 (b :: r ++ rest) := by
      unfold scanNumber
      split
      · rename_i hcons
        exact absurd (List.cons.inj hcons).1 hsign
      · rfl
    rw [hunsigned]
    unfold scanUnsigned
    split
    · rename_i hnil
      cases hnil
    · rename_i hcons
      exact absurd (List.cons.inj hcons).1 hb
    · rename_i hcons
      obtain ⟨rfl, -⟩ := List.cons.inj hcons
      rw [if_pos hdigit, takeWhile_digits h.all he]
      simp only [List.drop_left, h.sum hn, Nat.zero_add]
      exact scanWholeTail_of_ends he n _

/-! ### Values

A token is found at a byte that is no space, and the rest of the text is cut from where it ends.
Marks have one byte; strings, words and numbers say how many they take. The text of an array or an
object is put together from pieces with commas between them, and is read with the comma in front of
every item but the first (`more`); so the three lemmas on values, items and members are proved
together, by recursion over the value. -/

/-- At a byte that is no space there is one token, and then those behind it. -/
theorem tokens_cons {b : UInt8} (h : isSpace b = false) (r : List UInt8) :
    tokens (b :: r) = (tokenAt b r).1 :: tokens (r.drop (tokenAt b r).2) := by
  rw [tokens, h]
  rfl

/-- A bracket, a comma or a colon is one token. -/
theorem tokens_mark {b : UInt8} {t : Token} (h : ∀ r, tokenAt b r = (t, 0))
    (hspace : isSpace b = false) (r : List UInt8) : tokens (b :: r) = t :: tokens r := by
  rw [tokens_cons hspace, h]
  rfl

@[simp] theorem tokens_openArray (r : List UInt8) : tokens (91 :: r) = .openArray :: tokens r :=
  tokens_mark (fun _ => rfl) rfl r

@[simp] theorem tokens_closeArray (r : List UInt8) : tokens (93 :: r) = .closeArray :: tokens r :=
  tokens_mark (fun _ => rfl) rfl r

@[simp] theorem tokens_openObject (r : List UInt8) : tokens (123 :: r) = .openObject :: tokens r :=
  tokens_mark (fun _ => rfl) rfl r

@[simp] theorem tokens_closeObject (r : List UInt8) :
    tokens (125 :: r) = .closeObject :: tokens r :=
  tokens_mark (fun _ => rfl) rfl r

@[simp] theorem tokens_comma (r : List UInt8) : tokens (44 :: r) = .comma :: tokens r :=
  tokens_mark (fun _ => rfl) rfl r

@[simp] theorem tokens_colon (r : List UInt8) : tokens (58 :: r) = .colon :: tokens r :=
  tokens_mark (fun _ => rfl) rfl r

/-- A text is one token. -/
theorem tokens_string (s : String) (rest : List UInt8) :
    tokens (bytesOf (string s) ++ rest) = .string (.ok s) none :: tokens rest := by
  have hbytes : bytesOf (string s) ++ rest =
      34 :: (bytesOf (s.toList.flatMap escapedChar) ++ 34 :: rest) := by
    rw [string, bytesOf_append, List.append_assoc, bytesOf_cons]
    rfl
  have hat : tokenAt 34 (bytesOf (s.toList.flatMap escapedChar) ++ 34 :: rest) =
      (.string (.ok s) none, (bytesOf (s.toList.flatMap escapedChar)).length + 1) := by
    simp only [tokenAt, skipString_escaped, readString_escaped, List.length_append,
      List.length_cons]
    congr 1
    omega
  rw [hbytes, tokens_cons rfl, hat, List.drop_length_add_append]
  rfl

/-- One of the three words is one token. -/
theorem tokens_word {w : List Char} {t : Token} (b : UInt8) (bs : List UInt8)
    (hw : bytesOf w = b :: bs) (hspace : isSpace b = false)
    (hat : ∀ r, tokenAt b r = word t bs r) (rest : List UInt8) :
    tokens (bytesOf w ++ rest) = t :: tokens rest := by
  have hfault : wordFault? bs (bs ++ rest) = none := by
    clear hw hat
    induction bs with
    | nil => rfl
    | cons c bs ih => rw [List.cons_append, wordFault?, if_pos rfl, ih]
  rw [hw, List.cons_append, tokens_cons hspace, hat, word, hfault]
  simp only [List.drop_left]

/-- A natural number is one token. -/
theorem tokens_number {n : Nat} (hn : n < Nat.pow 2 64) {rest : List UInt8} (he : Ends rest) :
    tokens (bytesOf (Nat.toDigits 10 n) ++ rest) =
      .number (.ok (some n)) none :: tokens rest := by
  have hdigits := digits_toDigits n
  generalize hbs : bytesOf (Nat.toDigits 10 n) = bs at hdigits
  obtain ⟨b, r, rfl⟩ : ∃ b r, bs = b :: r := by
    rcases hdigits.front with ⟨-, rfl⟩ | ⟨b, r, rfl, -⟩
    · exact ⟨48, [], rfl⟩
    · exact ⟨b, r, rfl⟩
  have hdigit := hdigits.all b List.mem_cons_self
  have hscan : scanNumber (b :: (r ++ rest)) = ⟨.ok (some n), none, r.length + 1⟩ :=
    scanNumber_digits hn hdigits he
  -- A digit is no space, so the token begins here.
  have hspace : isSpace b = false := by
    rw [isDigit, Bool.and_eq_true, decide_eq_true_eq, decide_eq_true_eq] at hdigit
    simp only [isSpace, Bool.or_eq_false_iff, beq_eq_false_iff_ne]
    refine ⟨⟨⟨?_, ?_⟩, ?_⟩, ?_⟩ <;>
      (rintro rfl; exact absurd hdigit (by decide))
  -- Neither is it one of the marks, or the first letter of a word.
  have hat : tokenAt b (r ++ rest) = (.number (.ok (some n)) none, r.length) := by
    unfold tokenAt
    split
    all_goals first
      | cases hdigit
      | rw [hdigit, hscan]; rfl
  rw [List.cons_append, tokens_cons hspace, hat, List.drop_left]

namespace Value

mutual

/-- The tokens of a value. -/
def tokens : Value → List Token
  | .null => [.null]
  | .bool b => [.bool b]
  | .int n => [.number (.ok (some n.toNat)) none]
  | .str s => [.string (.ok s) none]
  | .arr vs => .openArray :: itemTokens true vs ++ [.closeArray]
  | .obj ms => .openObject :: memberTokens true ms ++ [.closeObject]

/-- The tokens of items; `first` tells that no item came before. -/
def itemTokens : Bool → List Value → List Token
  | _, [] => []
  | true, v :: vs => v.tokens ++ itemTokens false vs
  | false, v :: vs => .comma :: v.tokens ++ itemTokens false vs

/-- The tokens of members; `first` tells that no member came before. -/
def memberTokens : Bool → List (String × Value) → List Token
  | _, [] => []
  | true, (k, v) :: ms =>
    .string (.ok k) none :: .colon :: v.tokens ++ memberTokens false ms
  | false, (k, v) :: ms =>
    .comma :: .string (.ok k) none :: .colon :: v.tokens ++ memberTokens false ms

end

mutual

/-- Every number in the value is natural and fits 64 bits. -/
def Plain : Value → Prop
  | .int n => 0 ≤ n ∧ n < (Nat.pow 2 64 : Nat)
  | .arr vs => PlainItems vs
  | .obj ms => PlainMembers ms
  | _ => True

/-- Every number in the items is natural and fits 64 bits. -/
def PlainItems : List Value → Prop
  | [] => True
  | v :: vs => v.Plain ∧ PlainItems vs

/-- Every number in the members is natural and fits 64 bits. -/
def PlainMembers : List (String × Value) → Prop
  | [] => True
  | (_, v) :: ms => v.Plain ∧ PlainMembers ms

end

/-- Items that are written by plain writers are plain. -/
theorem plainItems_map {α : Type} {write : α → Value} {as : List α}
    (h : ∀ a ∈ as, (write a).Plain) : PlainItems (as.map write) := by
  induction as with
  | nil => exact trivial
  | cons a as ih =>
      exact ⟨h a List.mem_cons_self, ih fun b hb => h b (List.mem_cons_of_mem _ hb)⟩

/-- Pieces behind the first, each with the comma in front of it. -/
def more (pieces : List (List Char)) : List Char := pieces.flatMap (',' :: ·)

/-- With the comma counted to the piece behind it. -/
theorem separated_cons (p : List Char) (ps : List (List Char)) :
    separated [','] (p :: ps) = p ++ more ps := by
  induction ps generalizing p with
  | nil => simp [separated, more]
  | cons q ps ih =>
      have hq := ih q
      rw [separated] at hq ⊢
      rw [List.intercalate_cons_cons, hq, List.append_assoc]
      rfl

/-- A comma ends a number as well as a bracket does. -/
theorem ends_more (ps : List (List Char)) {rest : List UInt8} (he : Ends rest) :
    Ends (bytesOf (more ps) ++ rest) := by
  cases ps with
  | nil => exact he
  | cons p ps => exact ends_cons (by decide) _

mutual

/-- The text of a value is cut into the tokens of the value. -/
theorem tokens_compactChars : ∀ (v : Value), v.Plain → ∀ {rest : List UInt8}, Ends rest →
    Json.tokens (bytesOf v.compactChars ++ rest) = v.tokens ++ Json.tokens rest
  | .null, _, rest, _ =>
      tokens_word 110 [117, 108, 108] (by decide) rfl (fun _ => rfl) rest
  | .bool true, _, rest, _ =>
      tokens_word 116 [114, 117, 101] (by decide) rfl (fun _ => rfl) rest
  | .bool false, _, rest, _ =>
      tokens_word 102 [97, 108, 115, 101] (by decide) rfl (fun _ => rfl) rest
  | .int n, hv, rest, he => by
      obtain ⟨m, rfl⟩ := Int.eq_ofNat_of_zero_le hv.1
      have hdigits : (int m).compactChars = Nat.toDigits 10 m := by
        rw [compactChars, Int.toString_eq_repr]
        exact Nat.toList_repr
      rw [hdigits]
      exact tokens_number (Int.ofNat_lt.1 hv.2) he
  | .str s, _, rest, _ => tokens_string s rest
  | .arr [], _, rest, _ => by
      show Json.tokens (91 :: 93 :: rest) = _
      rw [tokens_openArray, tokens_closeArray]
      rfl
  | .arr (v :: vs), hv, rest, _ => by
      have hclose : Ends (93 :: rest) := ends_cons (by decide) rest
      have hbytes : bytesOf (arr (v :: vs)).compactChars ++ rest =
          91 :: (bytesOf v.compactChars ++ (bytesOf (more (compactItems vs)) ++ 93 :: rest)) := by
        rw [compactChars, compactItems, separated_cons, bytesOf_append, bytesOf_cons,
          bytesOf_append]
        simp only [List.append_assoc]
        rfl
      rw [hbytes, tokens_openArray, tokens_compactChars v hv.1 (ends_more _ hclose),
        tokens_more vs hv.2 hclose, tokens_closeArray]
      simp only [tokens, itemTokens, List.cons_append, List.append_assoc, List.nil_append]
  | .obj [], _, rest, _ => by
      show Json.tokens (123 :: 125 :: rest) = _
      rw [tokens_openObject, tokens_closeObject]
      rfl
  | .obj ((k, v) :: ms), hv, rest, _ => by
      have hclose : Ends (125 :: rest) := ends_cons (by decide) rest
      have hbytes : bytesOf (obj ((k, v) :: ms)).compactChars ++ rest =
          123 :: (bytesOf (string k) ++ 58 :: (bytesOf v.compactChars ++
            (bytesOf (more (compactMembers ms)) ++ 125 :: rest))) := by
        rw [compactChars, compactMembers, separated_cons, bytesOf_append, bytesOf_cons,
          bytesOf_append, bytesOf_append, bytesOf_cons]
        simp only [List.append_assoc]
        rfl
      rw [hbytes, tokens_openObject, tokens_string, tokens_colon,
        tokens_compactChars v hv.1 (ends_more _ hclose), tokens_moreMembers ms hv.2 hclose,
        tokens_closeObject]
      simp only [tokens, memberTokens, List.cons_append, List.append_assoc, List.nil_append]

/-- Items behind the first, each with its comma, are cut into their tokens. -/
theorem tokens_more : ∀ (vs : List Value), PlainItems vs → ∀ {rest : List UInt8}, Ends rest →
    Json.tokens (bytesOf (more (compactItems vs)) ++ rest) =
      itemTokens false vs ++ Json.tokens rest
  | [], _, _, _ => rfl
  | v :: vs, hv, rest, he => by
      have hbytes : bytesOf (more (compactItems (v :: vs))) ++ rest =
          44 :: (bytesOf v.compactChars ++ (bytesOf (more (compactItems vs)) ++ rest)) := by
        rw [compactItems, more, List.flatMap_cons, bytesOf_append, bytesOf_cons]
        simp only [List.append_assoc]
        rfl
      rw [hbytes, tokens_comma, tokens_compactChars v hv.1 (ends_more _ he), tokens_more vs hv.2 he]
      simp only [itemTokens, List.cons_append, List.append_assoc]

/-- Members behind the first, each with its comma, are cut into their tokens. -/
theorem tokens_moreMembers : ∀ (ms : List (String × Value)), PlainMembers ms →
    ∀ {rest : List UInt8}, Ends rest →
    Json.tokens (bytesOf (more (compactMembers ms)) ++ rest) =
      memberTokens false ms ++ Json.tokens rest
  | [], _, _, _ => rfl
  | (k, v) :: ms, hv, rest, he => by
      have hbytes : bytesOf (more (compactMembers ((k, v) :: ms))) ++ rest =
          44 :: (bytesOf (string k) ++ 58 :: (bytesOf v.compactChars ++
            (bytesOf (more (compactMembers ms)) ++ rest))) := by
        rw [compactMembers, more, List.flatMap_cons, bytesOf_append, bytesOf_cons, bytesOf_append,
          bytesOf_cons]
        simp only [List.append_assoc]
        rfl
      rw [hbytes, tokens_comma, tokens_string, tokens_colon,
        tokens_compactChars v hv.1 (ends_more _ he), tokens_moreMembers ms hv.2 he]
      simp only [memberTokens, List.cons_append, List.append_assoc]

end

/-- The bytes of a value are cut into its tokens, and nothing is left. -/
theorem tokens_compact {v : Value} (h : v.Plain) :
    Json.tokens v.compact.toUTF8.toList = v.tokens := by
  have htokens := tokens_compactChars v h ends_nil
  rw [List.append_nil] at htokens
  rw [compact, Text.toList_toUTF8, htokens, Json.tokens, List.append_nil]

end Value

end Outline.Json
