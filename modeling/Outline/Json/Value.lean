import Outline.Text.Hex

/-!
# JSON values and their texts

The values that the library writes as JSON, and the two ways to write them: `compact` on one
line without spaces, `pretty` with a line for every item and two spaces for every level. The
members of an object keep the order in which they are given.
-/

namespace Outline.Json

/-- A JSON value without fractions. -/
inductive Value where
  | null
  | bool (b : Bool)
  | int (n : Int)
  | str (s : String)
  | arr (items : List Value)
  | obj (members : List (String × Value))
deriving Inhabited

/-- How one character stands inside a JSON string: quotes, backslashes and control characters
below `U+0020` are escaped, all else stands for itself. -/
def escapedChar (c : Char) : List Char :=
  if c = '"' then ['\\', '"']
  else if c = '\\' then ['\\', '\\']
  else if c = '\x08' then ['\\', 'b']
  else if c = '\x0c' then ['\\', 'f']
  else if c = '\n' then ['\\', 'n']
  else if c = '\r' then ['\\', 'r']
  else if c = '\t' then ['\\', 't']
  else if c.toNat < 0x20 then ['\\', 'u', '0', '0'] ++ Text.hexOfByte (UInt8.ofNat c.toNat)
  else [c]

/-- A text as a JSON string. -/
def string (s : String) : List Char :=
  '"' :: s.toList.flatMap escapedChar ++ ['"']

/-- Pieces with a separator between them. -/
def separated (sep : List Char) (pieces : List (List Char)) : List Char :=
  sep.intercalate pieces

namespace Value

/-- A natural number as a value. -/
def nat (n : Nat) : Value := .int n

/-- A text or nothing. -/
def str? : Option String → Value
  | some s => .str s
  | none => .null

/-- A number or nothing. -/
def nat? : Option Nat → Value
  | some n => nat n
  | none => .null

mutual

/-- The characters of a value on one line. -/
def compactChars : Value → List Char
  | .null => "null".toList
  | .bool true => "true".toList
  | .bool false => "false".toList
  | .int n => (toString n).toList
  | .str s => string s
  | .arr items => '[' :: separated [','] (compactItems items) ++ [']']
  | .obj members => '\x7b' :: separated [','] (compactMembers members) ++ ['\x7d']

/-- The items of an array, each on one line. -/
def compactItems : List Value → List (List Char)
  | [] => []
  | v :: r => v.compactChars :: compactItems r

/-- The members of an object, each on one line. -/
def compactMembers : List (String × Value) → List (List Char)
  | [] => []
  | (k, v) :: r => (string k ++ ':' :: v.compactChars) :: compactMembers r

end

/-- The value on one line. -/
def compact (v : Value) : String :=
  String.ofList v.compactChars

/-- The start of a line at the given level. -/
def newline (level : Nat) : List Char :=
  '\n' :: List.replicate (2 * level) ' '

mutual

/-- The characters of a value whose first line continues a line at the given level. -/
def prettyChars (level : Nat) : Value → List Char
  | .null => "null".toList
  | .bool true => "true".toList
  | .bool false => "false".toList
  | .int n => (toString n).toList
  | .str s => string s
  | .arr [] => ['[', ']']
  | .arr (v :: r) =>
    '[' :: separated [','] (prettyItems (level + 1) (v :: r)) ++ newline level ++ [']']
  | .obj [] => ['\x7b', '\x7d']
  | .obj (m :: r) =>
    '\x7b' :: separated [','] (prettyMembers (level + 1) (m :: r)) ++ newline level ++ ['\x7d']

/-- The items of an array, each on a line of its own. -/
def prettyItems (level : Nat) : List Value → List (List Char)
  | [] => []
  | v :: r => (newline level ++ v.prettyChars level) :: prettyItems level r

/-- The members of an object, each on a line of its own. -/
def prettyMembers (level : Nat) : List (String × Value) → List (List Char)
  | [] => []
  | (k, v) :: r =>
    (newline level ++ string k ++ ':' :: ' ' :: v.prettyChars level) :: prettyMembers level r

end

/-- The value with a line for every item and member. -/
def pretty (v : Value) : String :=
  String.ofList (v.prettyChars 0)

end Value

end Outline.Json
