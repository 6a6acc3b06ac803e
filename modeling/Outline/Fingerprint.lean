import Outline.Fingerprint.Blake3
import Outline.Text.Hex

/-!
# Fingerprints

The fingerprint of a content is its BLAKE3 hash. Two contents count as equal when their
fingerprints are equal. A fingerprint is written as 64 hexadecimal digits, and read from such
digits in either case.
-/

namespace Outline

/-- The 32 bytes by which contents are told apart. -/
structure Fingerprint where
  bytes : List UInt8
  length_eq : bytes.length = 32
deriving DecidableEq

namespace Fingerprint

/-- The fingerprint of a content. -/
def ofContent (content : List UInt8) : Fingerprint :=
  ⟨Blake3.hash content, Blake3.length_hash content⟩

/-- The 64 digits of a fingerprint. -/
def toHex (f : Fingerprint) : String :=
  String.ofList (Text.hexOfBytes f.bytes)

/-- The fingerprint that 64 digits stand for. -/
def ofHex? (s : String) : Option Fingerprint :=
  match Text.bytesOfHex? s.toList with
  | none => none
  | some bs => if h : bs.length = 32 then some ⟨bs, h⟩ else none

/-- The first twelve digits, which are enough to recognise a fingerprint. -/
def short (f : Fingerprint) : String :=
  String.ofList ((Text.hexOfBytes f.bytes).take 12)

end Fingerprint

end Outline
