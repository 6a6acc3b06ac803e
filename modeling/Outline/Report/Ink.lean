import Outline.Kind

/-!
# Ink

Reports for people may be coloured: a text then stands between an escape sequence that begins a
style and one that ends it. This module provides:

* `Style`, and `Ink.paint`, which writes a text in a style or plainly;
* `padRight` and `padLeft` — texts brought to a width; and
* `Ink.kind`, a kind of declaration in its colour and brought to a width.
-/

namespace Outline

/-- How a text is shown. -/
inductive Style
  | plain
  | bold
  | dimmed
  | red
  | green
  | yellow
  | blue
  | cyan
  | boldCyan
  deriving DecidableEq, Repr

/-- The codes that begin a style, if it has any. -/
def Style.codes : Style → String
  | .plain => ""
  | .bold => "1"
  | .dimmed => "2"
  | .red => "31"
  | .green => "32"
  | .yellow => "33"
  | .blue => "34"
  | .cyan => "36"
  | .boldCyan => "1;36"

/-- A text with spaces behind it up to a width. -/
def padRight (width : Nat) (s : String) : String := s.pushn ' ' (width - s.length)

/-- A text with spaces before it up to a width. -/
def padLeft (width : Nat) (s : String) : String := "".pushn ' ' (width - s.length) ++ s

/-- Whether reports are coloured. -/
structure Ink where
  coloured : Bool

namespace Ink

/-- The text in a style. -/
def paint (ink : Ink) (style : Style) (s : String) : String :=
  if ink.coloured && style ≠ .plain then "\x1b[" ++ style.codes ++ "m" ++ s ++ "\x1b[0m" else s

/-- The style of a kind. -/
def styleOf (k : Kind) : Style :=
  if k.isTypeLike then .green
  else if k.isCallable then .yellow
  else match k with
    | .file => .cyan
    | .moduleDecl => .cyan
    | .importDecl => .dimmed
    | _ => .plain

/-- A kind in its style, brought to a width. -/
def kind (ink : Ink) (width : Nat) (k : Kind) : String :=
  ink.paint (styleOf k) (padRight width k.name)

/-- The lines at the top of a report. -/
def header (ink : Ink) : List String :=
  ["", "  " ++ ink.paint .boldCyan "stubtree" ++ " v0.1.0", ""]

end Ink

/-- Lines as a text. -/
def unlines (lines : List String) : String := String.join (lines.map (· ++ "\n"))

end Outline
