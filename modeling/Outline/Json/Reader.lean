import Outline.Json.Token

/-!
# Reading JSON texts of a known shape

A reader consumes tokens in their order and stops at the first fault: a wrong shape counts as
soon as it is seen, whatever follows. This module provides:

* `Reader` — a state of remaining tokens over `Fault`;
* `text`, `nat32`, `optional` — readers of single values;
* `members` and `items` — the loops over objects and arrays, and
* `passOver` — the end of a value that nobody asked for.
-/

namespace Outline.Json

/-- A computation that consumes tokens. -/
abbrev Reader := StateT (List Token) (Except Fault)

namespace Reader

/-- The fault of a token that is not the expected value. A token that cannot be read at all has
its own fault, and what starts no value is malformed. -/
def mismatch : Token → Fault
  | .null | .bool _ | .openArray | .openObject => .mismatched
  | .number (.error f) _ => f
  | .number (.ok _) _ => .mismatched
  | .string (.error f) _ => f
  | .string (.ok _) _ => .mismatched
  | .closeObject | .closeArray | .comma | .colon => .malformed
  | .broken f => f

/-- Take the next token. -/
def next : Reader Token := fun
  | [] => .error .truncated
  | t :: r => .ok (t, r)

/-- Look at the next token. -/
def peek : Reader Token := fun
  | [] => .error .truncated
  | t :: r => .ok (t, t :: r)

/-- A string. -/
def text : Reader String := do
  match ← next with
  | .string (.ok s) _ => return s
  | t => throw (mismatch t)

/-- A natural number that fits 32 bits. -/
def nat32 : Reader Nat := do
  match ← next with
  | .number (.ok (some n)) _ => if n < Nat.pow 2 32 then return n else throw .mismatched
  | t => throw (mismatch t)

/-- A value, or `null` for none. -/
def optional {α : Type} (value : Reader α) : Reader (Option α) := do
  match ← peek with
  | .null => do
    discard next
    return none
  | _ => return some (← value)

/-- The word `null`. -/
def null : Reader Unit := do
  match ← next with
  | .null => return ()
  | t => throw (mismatch t)

/-- A colon. -/
def colon : Reader Unit := do
  match ← next with
  | .colon => return ()
  | _ => throw .malformed

/-- The end of an object. -/
def closeObject : Reader Unit := do
  match ← next with
  | .closeObject => return ()
  | _ => throw .malformed

/-- The end of an array. -/
def closeArray : Reader Unit := do
  match ← next with
  | .closeArray => return ()
  | _ => throw .malformed

/-- Whether an array goes on; `first` tells that no item came before. A comma is consumed. -/
def nextItem (first : Bool) : Reader Bool := do
  match ← peek with
  | .closeArray => return false
  | .comma =>
    if first then return true
    discard next
    match ← peek with
    | .closeArray => throw .malformed
    | _ => return true
  | _ => if first then return true else throw .malformed

/-- The next key of an object, with its colon; `first` tells that no member came before. -/
def nextKey (first : Bool) : Reader (Option String) := do
  match ← peek with
  | .closeObject => return none
  | .comma => if first then throw .malformed else discard next
  | _ => if !first then throw .malformed
  match ← next with
  | .string (.ok key) _ =>
    colon
    return some key
  | .string (.error f) _ => throw f
  | _ => throw .malformed

/-- The items of an array behind its opening bracket, at most `fuel` of them. -/
def itemsFrom {α : Type} (item : Reader α) : Nat → Bool → Reader (List α)
  | 0, _ => throw .truncated
  | fuel + 1, first => do
    if ← nextItem first then
      let a ← item
      return a :: (← itemsFrom item fuel false)
    else
      closeArray
      return []

/-- An array. There are no more items than tokens. -/
def items {α : Type} (item : Reader α) : Reader (List α) := do
  match ← next with
  | .openArray => itemsFrom item ((← get).length + 1) true
  | t => throw (mismatch t)

/-- The members of an object behind its opening brace, at most `fuel` of them, each given to
`step` with what was gathered before. -/
def membersFrom {σ : Type} (step : σ → String → Reader σ) : Nat → Bool → σ → Reader σ
  | 0, _, _ => throw .truncated
  | fuel + 1, first, s => do
    match ← nextKey first with
    | some key => membersFrom step fuel false (← step s key)
    | none =>
      closeObject
      return s

/-- The members of an object behind its opening brace. There are no more members than
tokens. -/
def members {σ : Type} (step : σ → String → Reader σ) (s : σ) : Reader σ := do
  membersFrom step ((← get).length + 1) true s

/-- A required item of an array that stands for a record. -/
def field {α : Type} (first : Bool) (value : Reader α) : Reader α := do
  if ← nextItem first then value else throw .mismatched

/-- An item of an array that stands for a record, or a default if the array ends before it. -/
def fieldOr {α : Type} (default : α) (value : Reader α) : Reader α := do
  if ← nextItem false then value else return default

/-- What may stand next in a value that is passed over. -/
inductive Awaiting where
  | value
  | valueOrClose
  | key
  | keyOrClose
  | colon
  | separator

/-- Pass over the rest of a value inside the open brackets `stack`, innermost first, `true` for
an array. -/
def passOverFrom : List Bool → Awaiting → List Token → Except Fault (List Token)
  | _, _, [] => .error .truncated
  | stack, state, t :: r =>
    let done := fun (stack : List Bool) =>
      match stack with
      | [] => .ok r
      | _ => passOverFrom stack .separator r
    match state, stack, t with
    | .valueOrClose, _ :: outer, .closeArray => done outer
    | .keyOrClose, _ :: outer, .closeObject => done outer
    | .separator, true :: outer, .closeArray => done outer
    | .separator, false :: outer, .closeObject => done outer
    | .separator, true :: _, .comma => passOverFrom stack .value r
    | .separator, false :: _, .comma => passOverFrom stack .key r
    | .colon, _, .colon => passOverFrom stack .value r
    | .key, _, .string _ none | .keyOrClose, _, .string _ none => passOverFrom stack .colon r
    | .key, _, .string _ (some f) | .keyOrClose, _, .string _ (some f) => .error f
    | .value, _, .null | .valueOrClose, _, .null => done stack
    | .value, _, .bool _ | .valueOrClose, _, .bool _ => done stack
    | .value, _, .number _ none | .valueOrClose, _, .number _ none => done stack
    | .value, _, .number _ (some f) | .valueOrClose, _, .number _ (some f) => .error f
    | .value, _, .string _ none | .valueOrClose, _, .string _ none => done stack
    | .value, _, .string _ (some f) | .valueOrClose, _, .string _ (some f) => .error f
    | .value, _, .openArray | .valueOrClose, _, .openArray =>
      passOverFrom (true :: stack) .valueOrClose r
    | .value, _, .openObject | .valueOrClose, _, .openObject =>
      passOverFrom (false :: stack) .keyOrClose r
    | .value, _, .broken f | .valueOrClose, _, .broken f => .error f
    | _, _, _ => .error .malformed

/-- Pass over a value. -/
def passOver : Reader Unit := fun ts =>
  (passOverFrom [] .value ts).map fun r => ((), r)

/-- Read a whole text; nothing but space may follow. -/
def run {α : Type} (value : Reader α) (bs : List UInt8) : Except Fault α :=
  match value (tokens bs) with
  | .error f => .error f
  | .ok (a, []) => .ok a
  | .ok (_, _ :: _) => .error .malformed

end Reader

end Outline.Json
