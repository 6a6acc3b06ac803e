/-!
# Hexadecimal digits

Numbers and bytes as hexadecimal digits. Digits are written in lower case and read in either.
`bytesOfHex?` reads exactly what `hexOfBytes` writes, up to the case of the letters.
-/

namespace Outline.Text

/-- The value of a hexadecimal digit. -/
def hexValue? (c : Char) : Option Nat :=
  if '0' ≤ c && c ≤ '9' then some (c.toNat - '0'.toNat)
  else if 'a' ≤ c && c ≤ 'f' then some (c.toNat - 'a'.toNat + 10)
  else if 'A' ≤ c && c ≤ 'F' then some (c.toNat - 'A'.toNat + 10)
  else none

/-- The digits of `n` in base 16, without leading zeros. -/
def hexOf (n : Nat) : List Char :=
  Nat.toDigits 16 n

/-- The two digits of a byte. -/
def hexOfByte (b : UInt8) : List Char :=
  [Nat.digitChar (b.toNat / 16), Nat.digitChar (b.toNat % 16)]

/-- Two digits for each byte. -/
def hexOfBytes (bs : List UInt8) : List Char :=
  bs.flatMap hexOfByte

/-- The bytes that pairs of digits stand for; an odd digit or another character is refused. -/
def bytesOfHex? : List Char → Option (List UInt8)
  | [] => some []
  | hi :: lo :: r => do
    let h ← hexValue? hi
    let l ← hexValue? lo
    let bs ← bytesOfHex? r
    return UInt8.ofNat (16 * h + l) :: bs
  | [_] => none

end Outline.Text
