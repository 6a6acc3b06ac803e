/-!
# A place in a YAML text

YAML gives meaning to columns, so a reader keeps track of where it is. A `Cursor` is the rest of
the text with the position it begins at. This module provides:

* the character classes of YAML: `isBreak`, `isBlank`, `isWord` and `isAllowed`;
* `Cursor.skip`, `Cursor.skipBreak` and `Cursor.span` — moving on by a character, by a line break
  and by a run of characters; and
* the lemmas that say how much each of them leaves.
-/

namespace Outline.Yaml

/-- Line breaks: carriage return, line feed, next line, line separator, paragraph separator. -/
def isBreak (c : Char) : Bool :=
  c == '\n' || c == '\r' || c.toNat == 0x85 || c.toNat == 0x2028 || c.toNat == 0x2029

/-- Spaces and tabs. -/
def isBlank (c : Char) : Bool :=
  c == ' ' || c == '\t'

/-- The characters of names of anchors, directives and tag handles. -/
def isWord (c : Char) : Bool :=
  c.isAlphanum || c == '_' || c == '-'

/-- The characters that may stand in a text. -/
def isAllowed (c : Char) : Bool :=
  let n := c.toNat
  n == 9 || n == 10 || n == 13 || (0x20 ≤ n && n ≤ 0x7E) || n == 0x85 ||
    (0xA0 ≤ n && n ≤ 0xFFFD && n != 0xFEFF) || 0x10000 ≤ n

/-- The rest of a text, and the position at which it begins. -/
structure Cursor where
  rest : List Char
  column : Nat := 0
  line : Nat := 0
  index : Nat := 0

namespace Cursor

/-- The next character. -/
def peek? (c : Cursor) : Option Char := c.rest.head?

/-- Whether the next character is `x`. -/
def sees (c : Cursor) (x : Char) : Bool := c.rest.head? == some x

/-- Move on by one character. -/
def skip (c : Cursor) : Cursor :=
  { c with rest := c.rest.tail, column := c.column + 1, index := c.index + 1 }

/-- Move on by one line break; a carriage return and a line feed are one break. -/
def skipBreak (c : Cursor) : Cursor :=
  let n := if ['\r', '\n'].isPrefixOf c.rest then 2 else 1
  { rest := c.rest.drop n, column := 0, line := c.line + 1, index := c.index + n }

/-- The run of characters in `p` at the cursor, and the place behind it. -/
def span (c : Cursor) (p : Char → Bool) : List Char × Cursor :=
  let run := c.rest.takeWhile p
  (run, { c with
    rest := c.rest.dropWhile p, column := c.column + run.length, index := c.index + run.length })

/-- The place behind the run of characters in `p`. -/
def skipWhile (c : Cursor) (p : Char → Bool) : Cursor := (c.span p).2

/-- Moving on by one character leaves one character less. -/
theorem length_rest_skip (c : Cursor) : c.skip.rest.length = c.rest.length - 1 := by
  simp [skip]

/-- Moving on by a line break leaves less, if anything is left. -/
theorem length_rest_skipBreak_le (c : Cursor) :
    c.skipBreak.rest.length ≤ c.rest.length - 1 := by
  simp only [skipBreak, List.length_drop]
  split <;> omega

/-- Moving on by a run of characters does not leave more. -/
theorem length_rest_skipWhile_le (c : Cursor) (p : Char → Bool) :
    (c.skipWhile p).rest.length ≤ c.rest.length :=
  (List.dropWhile_sublist p).length_le

/-- Whether a text ends here, or goes on with a blank or a line break. -/
def endsWord : List Char → Bool
  | [] => true
  | x :: _ => isBlank x || isBreak x

/-- Whether three equal marks at the start of a line begin or end a document here. -/
def atDocumentMark (c : Cursor) (mark : Char) : Bool :=
  c.column == 0 && [mark, mark, mark].isPrefixOf c.rest && endsWord (c.rest.drop 3)

/-- Whether a document begins or ends here. -/
def atDocumentEdge (c : Cursor) : Bool :=
  c.atDocumentMark '-' || c.atDocumentMark '.'

end Cursor

/-- The text that a line break reads as: a line feed, except for the two Unicode separators,
which read as themselves. -/
def breakText (x : Char) : List Char :=
  if x.toNat == 0x2028 || x.toNat == 0x2029 then [x] else ['\n']

end Outline.Yaml
