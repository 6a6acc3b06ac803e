import Outline.Json.Number
import Outline.Text.Hex

/-!
# Tokens of JSON texts

A text of bytes is cut into tokens without a look at what is expected where. A string or number
may be fine to pass over and yet not be readable, so such a token carries both answers, and the
reader of the tokens takes the one it needs. The list of tokens ends where the text does, or
with `broken` at the first byte that starts no token.
-/

namespace Outline.Json

/-- The pieces of a JSON text. -/
inductive Token where
  | openObject
  | closeObject
  | openArray
  | closeArray
  | comma
  | colon
  | null
  | bool (b : Bool)
  /-- `read` is the number if it is natural and fits 64 bits; `skip` is the fault, if any, that
  counts when the number is passed over. -/
  | number (read : Except Fault (Option Nat)) (skip : Option Fault)
  /-- `read` is the text; `skip` is the fault, if any, that counts when it is passed over. -/
  | string (read : Except Fault String) (skip : Option Fault)
  /-- No token stands here. -/
  | broken (fault : Fault)

/-- Four hexadecimal digits. -/
def hex4 : List UInt8 → Except Fault Nat
  | a :: b :: c :: d :: _ =>
    match [a, b, c, d].mapM fun x => Text.hexValue? (Char.ofNat x.toNat) with
    | some ds => .ok (ds.foldl (fun n d => 16 * n + d) 0)
    | none => .error .malformed
  | _ => .error .truncated

/-- The bytes of the character with the given code point. -/
def encodedPoint (n : Nat) : List UInt8 :=
  String.utf8EncodeChar (Char.ofNat n)

/-- The bytes that an escape behind `\u` stands for, and its length. A leading surrogate has to
be followed by the escape of a trailing one, and a trailing one may not stand alone. -/
def readPoint (bs : List UInt8) : Except Fault (List UInt8 × Nat) := do
  let n ← hex4 bs
  if 0xDC00 ≤ n && n ≤ 0xDFFF then throw .malformed
  if n < 0xD800 || 0xDBFF < n then return (encodedPoint n, 4)
  match bs.drop 4 with
  | [] => throw .truncated
  | 92 :: [] => throw .truncated
  | 92 :: 117 :: r =>
    let m ← hex4 r
    if m < 0xDC00 || 0xDFFF < m then throw .malformed
    return (encodedPoint (0x10000 + (n - 0xD800) * 0x400 + (m - 0xDC00)), 10)
  | _ => throw .malformed

/-- The byte that a one-letter escape stands for. -/
def simpleEscape? (b : UInt8) : Option UInt8 :=
  match b with
  | 34 => some 34
  | 92 => some 92
  | 47 => some 47
  | 98 => some 8
  | 102 => some 12
  | 110 => some 10
  | 114 => some 13
  | 116 => some 9
  | _ => none

/-- The bytes that an escape behind its backslash stands for, and its length. -/
def readEscape : List UInt8 → Except Fault (List UInt8 × Nat)
  | [] => .error .truncated
  | 117 :: r => (readPoint r).map fun (bytes, n) => (bytes, n + 1)
  | b :: _ => match simpleEscape? b with
    | some e => .ok ([e], 1)
    | none => .error .malformed

/-- The length of an escape behind its backslash; which character it stands for is not asked. -/
def skipEscape : List UInt8 → Except Fault Nat
  | [] => .error .truncated
  | 117 :: r => (hex4 r).map fun _ => 5
  | b :: _ => if (simpleEscape? b).isSome then .ok 1 else .error .malformed

/-- The bytes of a string behind its opening quote, added in reverse to `acc`. -/
def readBytes (acc : List UInt8) : List UInt8 → Except Fault (List UInt8)
  | [] => .error .truncated
  | b :: r =>
    if b = 34 then .ok acc.reverse
    else if b < 32 then .error .malformed
    else if b = 92 then
      match readEscape r with
      | .error f => .error f
      | .ok (bytes, n) => readBytes (bytes.reverse ++ acc) (r.drop n)
    else readBytes (b :: acc) r
termination_by bs => bs.length
decreasing_by
  · rw [List.length_drop, List.length_cons]
    omega
  · simp

/-- The text of a string behind its opening quote. -/
def readString (bs : List UInt8) : Except Fault String := do
  let bytes ← readBytes [] bs
  match String.fromUTF8? ⟨bytes.toArray⟩ with
  | some s => return s
  | none => throw .malformed

/-- What follows a string, given what follows its opening quote. -/
def skipString : List UInt8 → Except Fault (List UInt8)
  | [] => .error .truncated
  | b :: r =>
    if b = 34 then .ok r
    else if b < 32 then .error .malformed
    else if b = 92 then
      match skipEscape r with
      | .error f => .error f
      | .ok n => skipString (r.drop n)
    else skipString r
termination_by bs => bs.length
decreasing_by
  · rw [List.length_drop, List.length_cons]
    omega
  · simp

/-- The fault of a word that should continue with `expected`. -/
def wordFault? : List UInt8 → List UInt8 → Option Fault
  | [], _ => none
  | _ :: _, [] => some .truncated
  | e :: es, b :: r => if e = b then wordFault? es r else some .malformed

/-- The token of a word that should continue with `expected`, and the length of the rest. -/
def word (token : Token) (expected bs : List UInt8) : Token × Nat :=
  match wordFault? expected bs with
  | none => (token, expected.length)
  | some f => (.broken f, bs.length)

/-- The token that begins with the byte `b`, and how much of the text behind `b` belongs to it.
A token behind which nothing can be read takes the whole text. -/
def tokenAt (b : UInt8) (r : List UInt8) : Token × Nat :=
  match b with
  | 123 => (.openObject, 0)
  | 125 => (.closeObject, 0)
  | 91 => (.openArray, 0)
  | 93 => (.closeArray, 0)
  | 44 => (.comma, 0)
  | 58 => (.colon, 0)
  | 110 => word .null [117, 108, 108] r
  | 116 => word (.bool true) [114, 117, 101] r
  | 102 => word (.bool false) [97, 108, 115, 101] r
  | 34 =>
    match skipString r with
    | .ok rest => (.string (readString r) none, r.length - rest.length)
    | .error f => (.string (readString r) (some f), r.length)
  | _ =>
    if isDigit b || b = 45 then
      let n := scanNumber (b :: r)
      (.number n.read n.skip, if n.skip.isSome then r.length else n.length - 1)
    else (.broken .malformed, r.length)

/-- The bytes that may stand between tokens. -/
def isSpace (b : UInt8) : Bool :=
  b == 32 || b == 10 || b == 9 || b == 13

/-- The tokens of a text. -/
def tokens : List UInt8 → List Token
  | [] => []
  | b :: r =>
    if isSpace b then tokens r
    else
      let (t, n) := tokenAt b r
      t :: tokens (r.drop n)
termination_by bs => bs.length
decreasing_by
  · simp
  · rw [List.length_drop, List.length_cons]
    omega

end Outline.Json
