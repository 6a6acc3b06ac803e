import Outline.Syntax.Node

/-!
# Lines of tokens

A text in a language with significant line breaks is a list of lines, and a line is a list of
tokens: words, strings and signs. A line break counts only outside of brackets and strings and
without a backslash before it; blanks and comments, which begin with `#`, separate tokens and are
none. This module provides:

* `Token` with the place where it stands; and
* `Token.lines`, the lines of a text, which takes any bytes for one.
-/

namespace Outline

/-- A token. Its word is the text of a word or a sign; a string has none. -/
structure Token where
  word : String
  start : Nat
  stop : Nat
  row : Nat
  column : Nat
  deriving DecidableEq, Repr

/-- A place in a text. -/
structure Place where
  offset : Nat := 0
  row : Nat := 0
  column : Nat := 0
  deriving DecidableEq, Repr

/-- The place behind a byte. -/
def Place.past (p : Place) (c : UInt8) : Place :=
  if c = '\n'.toUInt8 then ⟨p.offset + 1, p.row + 1, 0⟩ else ⟨p.offset + 1, p.row, p.column + 1⟩

namespace Token

/-- The form of a piece of a text. -/
inductive Form
  | blank
  | lineBreak
  | word
  | string
  | opening
  | closing
  | sign
  deriving DecidableEq, Repr

/-- Whether a byte may stand in a word; a byte of a character beyond ASCII may. -/
def inWord (c : UInt8) : Bool :=
  c = '_'.toUInt8 || c ≥ 128 || (Char.ofNat c.toNat).isAlphanum

/-- The number of bytes up to and with the quotes that end a string. A string within one line ends
at the end of the line in any case. -/
def stringLength (quotes : Bytes) : Bytes → Nat
  | [] => 0
  | c :: r =>
    if quotes.isPrefixOf (c :: r) then quotes.length
    else if c = '\n'.toUInt8 && quotes.length = 1 then 0
    else if c = '\x5c'.toUInt8 then
      match r with
      | [] => 1
      | _ :: r => 2 + stringLength quotes r
    else 1 + stringLength quotes r

/-- What begins with a byte: its form, and the number of bytes that follow in the same piece. -/
def piece (c : UInt8) (r : Bytes) : Form × Nat :=
  if c = '\n'.toUInt8 then (.lineBreak, 0)
  else if c = '#'.toUInt8 then (.blank, (r.takeWhile (· ≠ '\n'.toUInt8)).length)
  else if c = '\x5c'.toUInt8 && r.head? == some '\n'.toUInt8 then (.blank, 1)
  else if c ≤ ' '.toUInt8 then (.blank, 0)
  else if c = '\x22'.toUInt8 || c = '\x27'.toUInt8 then
    if [c, c].isPrefixOf r then (.string, 2 + stringLength [c, c, c] (r.drop 2))
    else (.string, stringLength [c] r)
  else if inWord c then (.word, (r.takeWhile inWord).length)
  else if "([\x7b".toUTF8.toList.contains c then (.opening, 0)
  else if ")]\x7d".toUTF8.toList.contains c then (.closing, 0)
  else (.sign, 0)

/-- A token of some bytes. -/
def ofBytes (form : Form) (p : Place) (bytes : Bytes) : Token where
  word := if form = .string then "" else (String.fromUTF8? ⟨bytes.toArray⟩).getD ""
  start := p.offset
  stop := p.offset + bytes.length
  row := p.row
  column := p.column

/-- The lines of a text from a place on, inside some number of brackets. -/
def linesFrom (p : Place) (brackets : Nat) : Bytes → List (List Token)
  | [] => [[]]
  | c :: r =>
    let (form, n) := piece c r
    let bytes := c :: r.take n
    let brackets := match form with
      | .opening => brackets + 1
      | .closing => brackets - 1
      | _ => brackets
    let rest := linesFrom (bytes.foldl Place.past p) brackets (r.drop n)
    match form with
    | .blank => rest
    | .lineBreak => if brackets = 0 then [] :: rest else rest
    | _ => (ofBytes form p bytes :: rest.headD []) :: rest.tail
termination_by s => s.length
decreasing_by
  simp only [List.length_drop, List.length_cons]
  omega

/-- The mark that may stand in front of a text in UTF-8. -/
def byteOrderMark : Bytes := [0xEF, 0xBB, 0xBF]

/-- The lines of a text; some may be empty. -/
def lines (source : Bytes) : List (List Token) :=
  if byteOrderMark.isPrefixOf source then linesFrom { offset := 3 } 0 (source.drop 3)
  else linesFrom {} 0 source

/-- Cut tokens at a sign outside of brackets. -/
def separate (sign : String) (brackets : Nat) : List Token → List (List Token)
  | [] => [[]]
  | t :: ts =>
    if brackets = 0 && t.word = sign then [] :: separate sign 0 ts
    else
      let inner := if ["(", "[", "\x7b"].contains t.word then brackets + 1
        else if [")", "]", "\x7d"].contains t.word then brackets - 1
        else brackets
      let rest := separate sign inner ts
      (t :: rest.headD []) :: rest.tail

end Token

end Outline
