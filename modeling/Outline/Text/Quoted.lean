import Outline.Text.Hidden
import Outline.Text.Hex

/-!
# Quoted texts

`quoted` writes a text between double quotes so that every character of it can be seen: quotes
and backslashes are escaped, line ends, tabs and the null character have short names, and a
character that `isHidden` is spelled as its code point in hexadecimal between braces.
`quotedPath` does the same for a path, and escapes single quotes as well.
-/

namespace Outline.Text

/-- How one character stands inside a quoted text. -/
def quotedChar (c : Char) : List Char :=
  if c = '\x00' then ['\\', '0']
  else if c = '\t' then ['\\', 't']
  else if c = '\r' then ['\\', 'r']
  else if c = '\n' then ['\\', 'n']
  else if c = '\\' then ['\\', '\\']
  else if c = '"' then ['\\', '"']
  else if isHidden c then ['\\', 'u', '\x7b'] ++ hexOf c.toNat ++ ['\x7d']
  else [c]

/-- The text between double quotes, with every character visible. -/
def quoted (s : String) : String :=
  String.ofList ('"' :: s.toList.flatMap quotedChar ++ ['"'])

/-- A path between double quotes, with every character visible and single quotes escaped. -/
def quotedPath (s : String) : String :=
  let char := fun c => if c = '\x27' then ['\\', c] else quotedChar c
  String.ofList ('"' :: s.toList.flatMap char ++ ['"'])

end Outline.Text
