import Outline.Text.Hex
import Outline.Yaml.Cursor

/-!
# Scalars of YAML

The five ways to write a text: plain, between single or double quotes, and as a literal or
folded block. This module provides:

* `Gap` — blanks and line breaks between two stretches of a scalar, and the text they fold to;
* `readPlain` and `readQuoted`, which fold gaps; and
* `readBlock`, which takes lines by their indentation.

Each reader gives the text and the place behind it, or nothing if the text is not YAML.
-/

namespace Outline.Yaml

/-! ### Gaps -/

/-- Blanks and line breaks between two stretches of a scalar. Blanks count only as long as no
line break was seen. Texts are in reverse. -/
structure Gap where
  blanks : List Char := []
  /-- Whether a line break was seen. -/
  broken : Bool := false
  /-- What the first line break reads as; an escaped line break reads as nothing. -/
  first : List Char := []
  /-- What the other line breaks read as. -/
  more : List Char := []

namespace Gap

/-- Whether nothing was seen. -/
def isEmpty (g : Gap) : Bool := g.blanks.isEmpty && !g.broken

/-- What a gap folds to, in reverse: a single line feed becomes a space, several line breaks lose
the first of them, and without line breaks the blanks are kept. -/
def folded (g : Gap) : List Char :=
  if !g.broken then g.blanks
  else if g.first == ['\n'] then (if g.more.isEmpty then [' '] else g.more)
  else g.more ++ g.first

/-- Extend a gap by a blank. -/
def addBlank (g : Gap) (x : Char) : Gap :=
  if g.broken then g else { g with blanks := x :: g.blanks }

/-- Extend a gap by a line break. -/
def addBreak (g : Gap) (x : Char) : Gap :=
  if g.broken then { g with more := breakText x ++ g.more }
  else { g with broken := true, first := breakText x, blanks := [] }

end Gap

/-- Read the rest of a gap. A tab behind a line break is refused left of the column `indent`. -/
def readGap (indent : Nat) (g : Gap) (c : Cursor) : Option (Gap × Cursor) :=
  match hr : c.rest with
  | [] => some (g, c)
  | x :: _ =>
    have : 0 < c.rest.length := by simp [hr]
    have := c.length_rest_skip
    have := c.length_rest_skipBreak_le
    if isBlank x then
      if g.broken && c.column < indent && x == '\t' then none
      else readGap indent (g.addBlank x) c.skip
    else if isBreak x then readGap indent (g.addBreak x) c.skipBreak
    else some (g, c)
termination_by c.rest.length

/-- A gap does not leave more text. -/
theorem length_readGap_le {indent : Nat} {g g' : Gap} {c c' : Cursor}
    (h : readGap indent g c = some (g', c')) : c'.rest.length ≤ c.rest.length := by
  fun_induction readGap indent g c with
  | case1 => simp_all
  | case2 => simp at h
  | case3 =>
    rename_i ih
    have := ih h
    omega
  | case4 =>
    rename_i ih
    have := ih h
    omega
  | case5 => simp_all

/-! ### Plain scalars -/

/-- Whether a plain scalar cannot hold a character before `r`. -/
def endsPlain (inFlow : Bool) (x : Char) (r : List Char) : Bool :=
  (x == ':' && Cursor.endsWord r) || (inFlow && [',', '[', ']', '\x7b', '\x7d'].contains x)

/-- Whether a colon stands where a collection in brackets cannot hold one. -/
def isStrayColon (inFlow : Bool) (x : Char) (r : List Char) : Bool :=
  inFlow && x == ':' &&
    (match r with
      | y :: _ => [',', '?', '[', ']', '\x7b', '\x7d'].contains y
      | [] => false)

/-- A plain scalar behind the text `done` (in reverse) and the gap `g`: its text, whether the
place behind it is on a later line, and that place. -/
def readPlainFrom (inFlow : Bool) (indent : Nat) (done : List Char) (g : Gap) (c : Cursor) :
    Option (String × Bool × Cursor) :=
  let finished := some (String.ofList done.reverse, g.broken, c)
  match hr : c.rest with
  | [] => finished
  | x :: r =>
    have : 0 < c.rest.length := by simp [hr]
    have := c.length_rest_skip
    have := c.length_rest_skipBreak_le
    if c.atDocumentEdge || (x == '#' && !g.isEmpty) then finished
    else if isBlank x || isBreak x then
      let start := if isBlank x then (g.addBlank x, c.skip) else (g.addBreak x, c.skipBreak)
      match hg : readGap indent start.1 start.2 with
      | none => none
      | some (g', c') =>
        have := length_readGap_le hg
        have : start.2.rest.length < c.rest.length := by
          simp only [start]; split <;> simp only <;> omega
        if !inFlow && c'.column < indent then some (String.ofList done.reverse, g'.broken, c')
        else readPlainFrom inFlow indent done g' c'
    else if isStrayColon inFlow x r then none
    else if endsPlain inFlow x r then finished
    else readPlainFrom inFlow indent (x :: (g.folded ++ done)) {} c.skip
termination_by c.rest.length

/-- A plain scalar. Outside brackets it ends at a line that begins left of the column `indent`. -/
def readPlain (inFlow : Bool) (indent : Nat) (c : Cursor) : Option (String × Bool × Cursor) :=
  readPlainFrom inFlow indent [] {} c

/-! ### Quoted scalars -/

/-- The characters that an escape of one letter stands for. -/
def shortEscape? : Char → Option Char
  | '0' => some '\x00'
  | 'a' => some '\x07'
  | 'b' => some '\x08'
  | 't' => some '\t'
  | '\t' => some '\t'
  | 'n' => some '\n'
  | 'v' => some '\x0b'
  | 'f' => some '\x0c'
  | 'r' => some '\r'
  | 'e' => some '\x1b'
  | ' ' => some ' '
  | '"' => some '"'
  | '/' => some '/'
  | '\\' => some '\\'
  | 'N' => some '\u0085'
  | '_' => some '\u00a0'
  | 'L' => some '\u2028'
  | 'P' => some '\u2029'
  | _ => none

/-- The number of digits behind the letter of an escape. -/
def escapeDigits? : Char → Option Nat
  | 'x' => some 2
  | 'u' => some 4
  | 'U' => some 8
  | _ => none

/-- The character with a given number, if there is one. -/
def charOf? (n : Nat) : Option Char :=
  if n.isValidChar then some (Char.ofNat n) else none

/-- The number that `n` hexadecimal digits stand for. -/
def hexNumber? (n : Nat) (cs : List Char) : Option Nat :=
  let digits := cs.take n
  if digits.length < n then none
  else digits.foldlM (fun v d => (Text.hexValue? d).map (16 * v + ·)) 0

/-- What an escape stands for and the number of characters that write it, from behind the
backslash. -/
def escape? : List Char → Option (Char × Nat)
  | [] => none
  | x :: r =>
    match shortEscape? x with
    | some y => some (y, 1)
    | none => do
      let n ← escapeDigits? x
      let y ← (← hexNumber? n r) |> charOf?
      return (y, n + 1)

/-- A quoted scalar behind the text `done` (in reverse), up to and including its closing quote. -/
def readQuotedFrom (single : Bool) (done : List Char) (c : Cursor) : Option (String × Cursor) :=
  if c.atDocumentEdge then none
  else match hr : c.rest with
  | [] => none
  | x :: r =>
    have hpos : c.rest.length = r.length + 1 := by simp [hr]
    have := c.length_rest_skip
    have := c.length_rest_skipBreak_le
    have := c.skip.length_rest_skip
    have := c.skip.length_rest_skipBreak_le
    if isBlank x || isBreak x || (!single && x == '\\' && (r.head?.map isBreak).getD false) then
      let start : Gap × Cursor :=
        if isBlank x then (({} : Gap).addBlank x, c.skip)
        else if isBreak x then (({} : Gap).addBreak x, c.skipBreak)
        else ({ broken := true }, c.skip.skipBreak)
      match hg : readGap 0 start.1 start.2 with
      | none => none
      | some (g, c') =>
        have := length_readGap_le hg
        have : start.2.rest.length < c.rest.length := by
          simp only [start]; split
          · simp only; omega
          · split <;> simp only <;> omega
        readQuotedFrom single (g.folded ++ done) c'
    else if single && x == '\x27' then
      if r.head? == some '\x27' then readQuotedFrom single (x :: done) c.skip.skip
      else some (String.ofList done.reverse, c.skip)
    else if !single && x == '"' then some (String.ofList done.reverse, c.skip)
    else if !single && x == '\\' then
      match escape? r with
      | none => none
      | some (y, n) =>
        have : (r.drop n).length ≤ r.length := by simp
        readQuotedFrom single (y :: done)
          { c with rest := r.drop n, column := c.column + 1 + n, index := c.index + 1 + n }
    else readQuotedFrom single (x :: done) c.skip
termination_by c.rest.length

/-- A quoted scalar, from its opening quote on. -/
def readQuoted (single : Bool) (c : Cursor) : Option (String × Cursor) :=
  readQuotedFrom single [] c.skip

/-! ### Block scalars -/

/-- How the line breaks at the end of a block are kept. -/
inductive Chomping
  /-- No line break. -/
  | strip
  /-- One line break. -/
  | clip
  /-- All line breaks. -/
  | keep
  deriving DecidableEq

/-- The empty lines in front of a line of a block, and the indentation in front of it: the text
of the line breaks (in reverse), the deepest column seen, and the place of the line. An `indent`
of zero is not known yet. -/
def readBlockGap (indent deepest : Nat) (breaks : List Char) (c : Cursor) :
    Option (List Char × Nat × Cursor) :=
  let spaces := (c.rest.takeWhile (· == ' ')).length
  let n := if indent = 0 then spaces else min spaces (indent - c.column)
  let c' : Cursor :=
    { c with rest := c.rest.drop n, column := c.column + n, index := c.index + n }
  let deepest := max deepest c'.column
  match hr : c'.rest with
  | [] => some (breaks, deepest, c')
  | x :: _ =>
    have : c'.skipBreak.rest.length < c.rest.length := by
      have hle : c'.rest.length ≤ c.rest.length := by simp [c']
      have hlt : 0 < c'.rest.length := by simp [hr]
      have := c'.length_rest_skipBreak_le
      omega
    if (indent = 0 || c'.column < indent) && x == '\t' then none
    else if isBreak x then readBlockGap indent deepest (breakText x ++ breaks) c'.skipBreak
    else some (breaks, deepest, c')
termination_by c.rest.length

/-- The empty lines in front of a line do not leave more text. -/
theorem length_readBlockGap_le {indent deepest d : Nat} {breaks bs : List Char} {c c' : Cursor}
    (h : readBlockGap indent deepest breaks c = some (bs, d, c')) :
    c'.rest.length ≤ c.rest.length := by
  fun_induction readBlockGap indent deepest breaks c with
  | case1 _ _ c _ n c' =>
    obtain ⟨-, -, rfl⟩ : _ ∧ _ ∧ c' = _ := by simpa using h
    simp [c']
  | case2 => simp at h
  | case3 _ _ _ _ _ _ _ _ _ _ hlt _ _ ih => exact Nat.le_trans (ih h) (Nat.le_of_lt hlt)
  | case4 _ _ c _ n c' =>
    obtain ⟨-, -, rfl⟩ : _ ∧ _ ∧ c' = _ := by simpa using h
    simp [c']

/-- The lines of a block at the column `indent`, behind the text `done`. The line break in front
of the next line is `pending`, the empty lines behind it are `empty`; `wasBlank` says whether the
last line began with a blank. Texts are in reverse. The answer has the same three texts. -/
def readBlockLines (literal : Bool) (indent : Nat) (done pending empty : List Char)
    (wasBlank : Bool) (c : Cursor) : Option (List Char × List Char × List Char × Cursor) :=
  if c.column ≠ indent then some (done, pending, empty, c)
  else match hr : c.rest with
  | [] => some (done, pending, empty, c)
  | x :: _ =>
    let join :=
      if !literal && pending == ['\n'] && !wasBlank && !isBlank x then
        if empty.isEmpty then [' '] else empty
      else empty ++ pending
    let line := c.skip.span (!isBreak ·)
    let pending := (line.2.peek?.map breakText).getD []
    let next := if line.2.rest.isEmpty then line.2 else line.2.skipBreak
    match hg : readBlockGap indent 0 [] next with
    | none => none
    | some (empty, _, c') =>
      have := length_readBlockGap_le hg
      have : 0 < c.rest.length := by simp [hr]
      have := c.length_rest_skip
      have : line.2.rest.length ≤ c.skip.rest.length :=
        c.skip.length_rest_skipWhile_le (!isBreak ·)
      have : next.rest.length ≤ line.2.rest.length := by
        have := line.2.length_rest_skipBreak_le
        simp only [next]; split <;> omega
      readBlockLines literal indent (line.1.reverse ++ x :: (join ++ done)) pending empty
        (isBlank x) c'
termination_by c.rest.length

/-- The chomping indicator of a block. -/
def chomping? : Char → Option Chomping
  | '+' => some .keep
  | '-' => some .strip
  | _ => none

/-- The digit that states the indentation of a block; it is not zero. -/
def indentDigit? (c : Cursor) : Option (Nat × Cursor) :=
  match c.peek? with
  | some x =>
    if x == '0' then none
    else if x.isDigit then some (x.toNat - '0'.toNat, c.skip)
    else some (0, c)
  | none => some (0, c)

/-- The two indicators behind the mark of a block, in either order: how its end is chomped, its
indentation (zero if it is not stated) and the place behind them. -/
def readBlockHeader (c : Cursor) : Option (Chomping × Nat × Cursor) :=
  match c.peek?.bind chomping? with
  | some k => (indentDigit? c.skip).map fun (n, c) => (k, n, c)
  | none => (indentDigit? c).map fun (n, c) =>
    match if n = 0 then none else c.peek?.bind chomping? with
    | some k => (k, n, c.skip)
    | none => (.clip, n, c)

/-- The place on the next line, if nothing but blanks and a comment is left on this one. -/
def nextLine? (c : Cursor) : Option Cursor :=
  let c := c.skipWhile isBlank
  let c := if c.sees '#' then c.skipWhile (!isBreak ·) else c
  match c.peek? with
  | none => some c
  | some x => if isBreak x then some c.skipBreak else none

/-- A block scalar, from its mark on, in a collection at the column `parent`. -/
def readBlock (literal : Bool) (parent : Option Nat) (c : Cursor) : Option (String × Cursor) := do
  let (chomping, stated, c) ← readBlockHeader c.skip
  let c ← nextLine? c
  let (empty, deepest, c) ←
    readBlockGap (if stated = 0 then 0 else parent.getD 0 + stated) 0 [] c
  let least := max 1 ((parent.map (· + 1)).getD 0)
  let indent := if stated = 0 then max deepest least else parent.getD 0 + stated
  let (done, pending, empty, c) ← readBlockLines literal indent [] [] empty false c
  let text := match chomping with
    | .strip => done
    | .clip => pending ++ done
    | .keep => empty ++ pending ++ done
  return (String.ofList text.reverse, c)

end Outline.Yaml
