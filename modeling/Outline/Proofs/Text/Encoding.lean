import Outline.Fingerprint

/-!
# Outline.Proofs.Text.Encoding

**Texts survive being written.** The bytes of a text are its characters, each encoded for itself
(`bytesOf`), and reading them as UTF-8 gives the text back; hexadecimal digits stand for the number
they were written for. Both are used by the readers of JSON texts and of fingerprints.
-/

namespace Outline.Text

/-! ### Bytes of characters -/

/-- The UTF-8 bytes of characters. -/
def bytesOf (cs : List Char) : List UInt8 := cs.flatMap String.utf8EncodeChar

@[simp] theorem bytesOf_nil : bytesOf [] = [] := rfl

@[simp] theorem bytesOf_append (cs ds : List Char) :
    bytesOf (cs ++ ds) = bytesOf cs ++ bytesOf ds :=
  List.flatMap_append

theorem bytesOf_cons (c : Char) (cs : List Char) :
    bytesOf (c :: cs) = String.utf8EncodeChar c ++ bytesOf cs :=
  List.flatMap_cons

theorem toList_loop (bs : ByteArray) (i : Nat) (acc : List UInt8) :
    ByteArray.toList.loop bs i acc = acc.reverse ++ bs.data.toList.drop i := by
  fun_induction ByteArray.toList.loop bs i acc with
  | case1 i acc hi ih =>
      have hi' : i < bs.data.toList.length := hi
      have hget : bs.get! i = bs.data.toList[i] := by
        show bs.data[i]! = _
        rw [getElem!_pos bs.data i hi, Array.getElem_toList]
      rw [ih, List.drop_eq_getElem_cons hi', hget, List.reverse_cons, List.append_assoc]
      rfl
  | case2 i acc hi =>
      have hi' : bs.data.toList.length ≤ i := Nat.le_of_not_lt hi
      rw [List.drop_eq_nil_of_le hi', List.append_nil]

/-- The bytes of a text are the bytes of its characters. -/
theorem toList_toUTF8 (cs : List Char) : (String.ofList cs).toUTF8.toList = bytesOf cs := by
  rw [ByteArray.toList, toList_loop, List.reverse_nil, List.nil_append, List.drop_zero]
  show ((String.ofList cs).toByteArray).data.toList = _
  rw [String.toByteArray_ofList, List.utf8Encode, List.data_toByteArray]
  rfl

theorem fromUTF8?_bytesOf (s : String) :
    String.fromUTF8? ⟨(bytesOf s.toList).toArray⟩ = some s := by
  have hbytes : (⟨(bytesOf s.toList).toArray⟩ : ByteArray) = s.toByteArray := by
    rw [← String.utf8Encode_toList, List.utf8Encode]
    exact ByteArray.ext List.data_toByteArray.symm
  rw [hbytes, String.fromUTF8?, dif_pos s.isValidUTF8]
  rfl

/-- Texts with the same bytes are the same. -/
theorem toUTF8_injective : Function.Injective fun s : String => s.toUTF8.toList := by
  intro s t h
  have hbytes : bytesOf s.toList = bytesOf t.toList := by
    rw [← toList_toUTF8, ← toList_toUTF8, String.ofList_toList, String.ofList_toList]
    exact h
  have hs := fromUTF8?_bytesOf s
  rw [hbytes, fromUTF8?_bytesOf] at hs
  exact (Option.some.inj hs).symm

/-- A character below 128 is its own byte; all bytes of any other are 128 or more. -/
theorem toNat_of_mem_utf8EncodeChar {c : Char} {b : UInt8} (h : b ∈ String.utf8EncodeChar c) :
    b.toNat = c.toNat ∨ 128 ≤ b.toNat := by
  have hc : c.val.toNat = c.toNat := rfl
  rw [String.utf8EncodeChar] at h
  simp only [hc] at h
  split at h
  · rename_i hle
    rw [List.mem_singleton.1 h, UInt8.toNat_ofNat']
    omega
  · simp only [apply_ite (b ∈ ·), List.mem_cons, List.not_mem_nil, or_false] at h
    refine .inr ?_
    split at h
    · rcases h with rfl | rfl <;> simp only [UInt8.toNat_ofNat'] <;> omega
    · split at h
      · rcases h with rfl | rfl | rfl <;> simp only [UInt8.toNat_ofNat'] <;> omega
      · rcases h with rfl | rfl | rfl | rfl <;> simp only [UInt8.toNat_ofNat'] <;> omega

/-! ### Hexadecimal digits -/

theorem hexValue?_digitChar : ∀ {d : Nat}, d < 16 → hexValue? (Nat.digitChar d) = some d := by
  decide

/-- What bytes are written with are digits. -/
theorem isSome_hexValue?_of_mem {bs : List UInt8} {c : Char} (h : c ∈ hexOfBytes bs) :
    (hexValue? c).isSome := by
  obtain ⟨b, -, hc⟩ := List.mem_flatMap.1 h
  have hb := b.toNat_lt
  simp only [hexOfByte, List.mem_cons, List.not_mem_nil, or_false] at hc
  rcases hc with rfl | rfl
  · rw [hexValue?_digitChar (by omega)]
    rfl
  · rw [hexValue?_digitChar (by omega)]
    rfl

/-- Bytes are read from the digits that were written for them. -/
theorem bytesOfHex?_hexOfBytes (bs : List UInt8) : bytesOfHex? (hexOfBytes bs) = some bs := by
  induction bs with
  | nil => rfl
  | cons b bs ih =>
      have hb := b.toNat_lt
      have hbyte : UInt8.ofNat (16 * (b.toNat / 16) + b.toNat % 16) = b := by
        rw [Nat.div_add_mod, UInt8.ofNat_toNat]
      show bytesOfHex? (Nat.digitChar (b.toNat / 16) :: Nat.digitChar (b.toNat % 16) ::
        hexOfBytes bs) = _
      rw [bytesOfHex?, hexValue?_digitChar (by omega), hexValue?_digitChar (by omega), ih]
      simp only [Option.bind_eq_bind, Option.bind_some, hbyte]
      rfl

end Outline.Text

namespace Outline.Fingerprint

/-- A fingerprint is read from the digits that were written for it. -/
theorem ofHex?_toHex (f : Fingerprint) : ofHex? f.toHex = some f := by
  rw [ofHex?, toHex, String.toList_ofList, Text.bytesOfHex?_hexOfBytes]
  exact dif_pos f.length_eq

theorem toHex_injective : Function.Injective toHex := by
  intro f f' h
  have hf := ofHex?_toHex f
  rw [h, ofHex?_toHex] at hf
  exact (Option.some.inj hf).symm

end Outline.Fingerprint
