/-!
# Blank and control characters

The two character classes that decide what a payload may hold and where a text falls into
words. This module provides:

* `isBlank` — the characters with the Unicode property `White_Space`;
* `isControl` — the characters of the general category `Cc`;
* `words` — the maximal runs of characters that are not blank, and
* `unwords` — words joined by single spaces.

A text that went through `words` and `unwords` no longer shows how it was laid out.
-/

namespace Outline.Text

/-- The characters with the Unicode property `White_Space`. -/
def isBlank (c : Char) : Bool :=
  let n := c.toNat
  (9 ≤ n && n ≤ 13) || n == 0x20 || n == 0x85 || n == 0xA0 || n == 0x1680 ||
    (0x2000 ≤ n && n ≤ 0x200A) || n == 0x2028 || n == 0x2029 || n == 0x202F ||
    n == 0x205F || n == 0x3000

/-- The control characters: the two blocks below `U+0020` and from `U+007F` to `U+009F`. -/
def isControl (c : Char) : Bool :=
  let n := c.toNat
  n < 0x20 || (0x7F ≤ n && n < 0xA0)

/-- The maximal runs of characters that are not blank, in order. A character joins the first
word of the rest if that word begins right behind it. -/
def words : List Char → List (List Char)
  | [] => []
  | c :: r =>
    if isBlank c then words r
    else
      match r.head?.map isBlank, words r with
      | some false, w :: ws => (c :: w) :: ws
      | _, ws => [c] :: ws

/-- Words joined by single spaces. -/
def unwords (ws : List (List Char)) : List Char :=
  [' '].intercalate ws

/-- `cs` without its longest suffix of characters in `p`. -/
def dropRightWhile (p : Char → Bool) (cs : List Char) : List Char :=
  (cs.reverse.dropWhile p).reverse

/-- `cs` without the characters in `p` at either end. -/
def strip (p : Char → Bool) (cs : List Char) : List Char :=
  dropRightWhile p (cs.dropWhile p)

end Outline.Text
