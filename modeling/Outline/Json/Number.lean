/-!
# Numbers in JSON texts

A number is read for its value or only passed over. Reading it for its value is stricter: the
number must not lie beyond the largest finite double, and a text that ends inside the number
is told apart from one that is malformed. This module scans a number once and gives both answers.

The magnitude is taken from the digits that fit 64 bits, multiplied by a power of ten as a
double would be; `exceedsDouble` decides in exact arithmetic whether that product is finite.
-/

namespace Outline.Json

/-- What is wrong with a JSON text where it is first met. -/
inductive Fault where
  /-- The text is not JSON. -/
  | malformed
  /-- The text is JSON, but not of the expected shape. -/
  | mismatched
  /-- The text ends too early. -/
  | truncated
deriving DecidableEq, Repr

/-- Whether a byte is a decimal digit. -/
def isDigit (b : UInt8) : Bool :=
  48 ≤ b && b ≤ 57

/-- The value of a decimal digit. -/
def digitValue (b : UInt8) : Nat :=
  b.toNat - 48

/-- `n` rounded to 53 significant bits; a tie goes to the even neighbour. -/
def roundToDouble (n : Nat) : Nat :=
  if n < Nat.pow 2 53 then n
  else
    let unit := Nat.pow 2 (Nat.log2 n - 52)
    let q := n / unit
    let r := n % unit
    if 2 * r < unit || (2 * r == unit && q % 2 == 0) then q * unit else (q + 1) * unit

/-- Whether `digits · 10 ^ exponent`, computed in doubles, is beyond the largest finite one. -/
def exceedsDouble (digits : Nat) (exponent : Int) : Bool :=
  if digits = 0 || exponent < 0 then false
  else if 308 < exponent then true
  else
    Nat.pow 2 1024 - Nat.pow 2 970 ≤
      roundToDouble digits * roundToDouble (Nat.pow 10 exponent.toNat)

/-- The leading digits of a number as long as they fit 64 bits, and the power of ten that the
digits left out are worth. -/
structure Magnitude where
  digits : Nat := 0
  exponent : Int := 0
  full : Bool := false

/-- One more digit of the integer part. -/
def Magnitude.addWhole (m : Magnitude) (b : UInt8) : Magnitude :=
  let n := 10 * m.digits + digitValue b
  if m.full || Nat.pow 2 64 ≤ n then { m with exponent := m.exponent + 1, full := true }
  else { m with digits := n }

/-- One more digit of the fraction. -/
def Magnitude.addFraction (m : Magnitude) (b : UInt8) : Magnitude :=
  let n := 10 * m.digits + digitValue b
  if m.full || Nat.pow 2 64 ≤ n then { m with full := true }
  else { m with digits := n, exponent := m.exponent - 1 }

/-- A scanned number: its answer when read, its fault when passed over, and its length. The
answer is the number itself if it is a natural number that fits 64 bits. -/
structure Number where
  read : Except Fault (Option Nat)
  skip : Option Fault
  length : Nat

/-- A number that is malformed however it is used. -/
def Number.malformed : Number := ⟨.error .malformed, some .malformed, 0⟩

/-- A number that lacks a digit: at the end of the text this is a cut when it is read. -/
def Number.lacking (rest : List UInt8) : Number :=
  ⟨.error (if rest.isEmpty then .truncated else .malformed), some .malformed, 0⟩

/-- The exponent behind its letter; `length` bytes came before. -/
def scanExponent (m : Magnitude) (length : Nat) (bs : List UInt8) : Number :=
  let (negative, signLength) := match bs with
    | 43 :: _ => (false, 1)
    | 45 :: _ => (true, 1)
    | _ => (false, 0)
  let rest := bs.drop signLength
  let digits := rest.takeWhile isDigit
  if digits.isEmpty then .lacking rest
  else
    let e : Int := digits.foldl (fun n b => 10 * n + digitValue b) 0
    let beyond :=
      if Nat.pow 2 31 ≤ e then m.digits ≠ 0 && !negative
      else exceedsDouble m.digits (m.exponent + if negative then -e else e)
    ⟨if beyond then .error .malformed else .ok none, none,
      length + signLength + digits.length⟩

/-- What may follow the digits of a fraction. -/
def scanTail (m : Magnitude) (length : Nat) (bs : List UInt8) : Number :=
  match bs with
  | 69 :: r | 101 :: r => scanExponent m (length + 1) r
  | _ =>
    ⟨if exceedsDouble m.digits m.exponent then .error .malformed else .ok none, none, length⟩

/-- What may follow the digits of the integer part. -/
def scanWholeTail (negative : Bool) (m : Magnitude) (length : Nat) (bs : List UInt8) : Number :=
  match bs with
  | 46 :: r =>
    let digits := r.takeWhile isDigit
    if digits.isEmpty then .lacking r
    else
      scanTail (digits.foldl Magnitude.addFraction { m with full := false })
        (length + 1 + digits.length) (r.drop digits.length)
  | 69 :: r | 101 :: r => scanExponent m (length + 1) r
  | _ =>
    if m.full then scanTail m length bs
    else ⟨.ok (if negative then none else some m.digits), none, length⟩

/-- The number that stands at the front of a text; a sign of `length` bytes came before. -/
def scanUnsigned (negative : Bool) (length : Nat) (bs : List UInt8) : Number :=
  match bs with
  | [] => .lacking []
  | 48 :: r =>
    if r.head?.any isDigit then .malformed else scanWholeTail negative {} (length + 1) r
  | b :: _ =>
    if isDigit b then
      let digits := bs.takeWhile isDigit
      scanWholeTail negative (digits.foldl Magnitude.addWhole {}) (length + digits.length)
        (bs.drop digits.length)
    else .malformed

/-- The number at the front of a text that begins with a digit or a minus sign. -/
def scanNumber (bs : List UInt8) : Number :=
  match bs with
  | 45 :: r => scanUnsigned true 1 r
  | _ => scanUnsigned false 0 bs

end Outline.Json
