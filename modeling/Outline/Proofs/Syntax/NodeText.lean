import Mathlib.Data.List.Infix
import Outline.Proofs.Text.Encoding
import Outline.Syntax.Node

/-!
# Outline.Proofs.Syntax.NodeText

**What stands in the text of a node.** Each character of it is a space between words or stands in
the source and is not blank (`SyntaxNode.of_mem_text?`). So the text has no line end, but it has
every control character that is not blank.

The text of a node is made by cutting: words are cut out of the source and some of their ends are
cut off. So characters are followed backwards, from what is left to what it was cut from, one
function after another; only the space between words is new.
-/

namespace Outline

namespace Text

variable {p : Char → Bool} {c : Char} {cs : List Char}

/-! ### Characters that are left

What a list of characters is cut down to has no others. Only words and the space between them take
more than a lemma about suffixes. -/

theorem mem_of_mem_dropWhile (h : c ∈ cs.dropWhile p) : c ∈ cs :=
  (List.dropWhile_suffix p).mem h

theorem mem_of_mem_dropRightWhile (h : c ∈ dropRightWhile p cs) : c ∈ cs :=
  List.mem_reverse.1 (mem_of_mem_dropWhile (List.mem_reverse.1 h))

theorem mem_of_mem_strip (h : c ∈ strip p cs) : c ∈ cs :=
  mem_of_mem_dropWhile (mem_of_mem_dropRightWhile h)

/-- The characters of words are not blank. -/
theorem of_mem_words {w : List Char} (hw : w ∈ words cs) (hc : c ∈ w) :
    c ∈ cs ∧ isBlank c = false := by
  induction cs generalizing w with
  | nil => cases hw
  | cons d r ih =>
      rw [words] at hw
      -- what is in a word of the rest is found by induction
      have hbehind : ∀ {v}, v ∈ words r → c ∈ v → c ∈ d :: r ∧ isBlank c = false := fun hv hcv =>
        (ih hv hcv).imp_left (List.mem_cons_of_mem d)
      split at hw
      · exact hbehind hw hc
      · rename_i hd
        have hfirst : c = d → c ∈ d :: r ∧ isBlank c = false := by
          rintro rfl
          exact ⟨List.mem_cons_self, Bool.eq_false_iff.2 hd⟩
        split at hw
        -- the first character begins a word of its own, or is put in front of the first one behind
        -- it
        · rename_i v vs _ hv
          rcases List.mem_cons.1 hw with rfl | hw
          · rcases List.mem_cons.1 hc with hcd | hc
            · exact hfirst hcd
            · exact hbehind (hv ▸ List.mem_cons_self) hc
          · exact hbehind (hv ▸ List.mem_cons_of_mem v hw) hc
        · rcases List.mem_cons.1 hw with rfl | hw
          · exact hfirst (List.mem_singleton.1 hc)
          · exact hbehind hw hc

theorem of_mem_unwords {ws : List (List Char)} (h : c ∈ unwords ws) :
    c = ' ' ∨ ∃ w ∈ ws, c ∈ w := by
  rw [unwords] at h
  induction ws with
  | nil => cases h
  | cons w ws ih =>
      cases ws with
      | nil =>
          rw [List.intercalate_singleton] at h
          exact .inr ⟨w, List.mem_cons_self, h⟩
      | cons v vs =>
          rw [List.intercalate_cons_cons, List.append_assoc] at h
          rcases List.mem_append.1 h with h | h
          · exact .inr ⟨w, List.mem_cons_self, h⟩
          · rcases List.mem_append.1 h with h | h
            · exact .inl (List.mem_singleton.1 h)
            · exact (ih h).imp_right fun ⟨u, hu, hc⟩ => ⟨u, List.mem_cons_of_mem w hu, hc⟩

/-! ### Bytes that are read

The source is bytes; a character of it is found there by its encoding. -/

/-- Every character of a text has its bytes among those of the text. -/
theorem utf8EncodeChar_infix (h : c ∈ cs) : String.utf8EncodeChar c <:+: bytesOf cs := by
  obtain ⟨before, after, rfl⟩ := List.append_of_mem h
  rw [bytesOf_append, bytesOf_cons, ← List.append_assoc]
  exact List.infix_append _ _ _

/-- The bytes that are read as a text are those of the text. -/
theorem eq_bytesOf_of_fromUTF8? {bs : List UInt8} {s : String}
    (h : String.fromUTF8? ⟨bs.toArray⟩ = some s) : bs = bytesOf s.toList := by
  rw [String.fromUTF8?] at h
  split at h
  · rename_i hvalid
    have hbytes : ⟨bs.toArray⟩ = s.toList.utf8Encode := by
      rw [String.utf8Encode_toList, ← Option.some.inj h]
      rfl
    have hdata : bs.toArray = s.toList.utf8Encode.data := congrArg ByteArray.data hbytes
    rw [List.utf8Encode, List.data_toByteArray] at hdata
    exact List.toArray_inj hdata
  · cases h

end Text

namespace SyntaxNode

theorem of_mem_tidy {c : Char} {cs : List Char} (h : c ∈ tidy cs) :
    c = ' ' ∨ c ∈ cs ∧ Text.isBlank c = false :=
  (Text.of_mem_unwords (Text.mem_of_mem_dropRightWhile (Text.mem_of_mem_strip h))).imp_right
    fun ⟨_, hw, hc⟩ => Text.of_mem_words hw hc

/-- A character in the text of a node is a space, or it stands in the source and is not blank. -/
theorem of_mem_text? {n : SyntaxNode} {source : Bytes} {s : String} (h : n.text? source = some s)
    {c : Char} (hc : c ∈ s.toList) :
    c = ' ' ∨ String.utf8EncodeChar c <:+: source ∧ Text.isBlank c = false := by
  dsimp only [text?] at h
  split at h
  · cases h
  · rename_i raw hraw
    split at h
    · cases h
    · rename_i htidy
      rw [← Option.some.inj h, String.toList_ofList] at hc
      -- the bytes of the node are a piece of the source, and those of the character a piece of them
      refine (of_mem_tidy hc).imp_right (And.imp_left fun hc => ?_)
      have hbytes := Text.utf8EncodeChar_infix hc
      rw [← Text.eq_bytesOf_of_fromUTF8? hraw] at hbytes
      exact hbytes.trans ((List.take_prefix _ _).isInfix.trans (List.drop_suffix _ _).isInfix)

end SyntaxNode

end Outline
