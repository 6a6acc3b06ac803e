import Outline.Yaml.Scalar

/-!
# Tokens of YAML

The indicators, scalars and properties of a YAML text, with tokens for the beginning and the end
of each collection that is written by indentation. This module provides:

* `Token` — the tokens;
* `Layout` — what decides where collections begin and end: the columns of the open collections,
  and for each pair of brackets the place where a key may have begun; and
* `Token.ofText?` — the tokens of a text.

That a scalar is a key shows only at the colon behind it. So the place of a possible key is kept,
and the tokens that begin a key and its mapping are inserted there afterwards.
-/

namespace Outline.Yaml

/-- How a scalar is written. -/
inductive Style
  | plain
  | singleQuoted
  | doubleQuoted
  | literal
  | folded
  deriving DecidableEq, Repr

/-- A token. -/
inductive Token
  | versionDirective (major minor : Nat)
  | tagDirective (handle expansion : String)
  | documentStart
  | documentEnd
  | blockSequenceStart
  | blockMappingStart
  /-- The end of a collection that is written by indentation. -/
  | blockEnd
  | flowSequenceStart
  | flowSequenceEnd
  | flowMappingStart
  | flowMappingEnd
  | blockEntry
  | flowEntry
  | key
  | value
  | alias (name : String)
  | anchor (name : String)
  | tag (handle suffix : String)
  | scalar (text : String) (style : Style)
  deriving DecidableEq, Repr

/-! ### Layout -/

/-- A place where a key may have begun: the number of tokens before it, its position, and whether
it has to be a key. -/
structure KeyPlace where
  tokens : Nat
  line : Nat
  column : Nat
  index : Nat
  required : Bool

/-- The tokens so far and what decides about the next. -/
structure Layout where
  tokens : Array Token := #[]
  /-- The columns of the open collections written by indentation, the innermost first. -/
  columns : List Nat := []
  /-- The possible key inside the innermost brackets. -/
  keyPlace : Option KeyPlace := none
  /-- The possible keys around each open pair of brackets, the innermost first. -/
  outerKeys : List (Option KeyPlace) := []
  /-- Whether a key may begin here. -/
  keyAllowed : Bool := true

namespace Layout

/-- Whether the place is inside brackets. -/
def inFlow (l : Layout) : Bool := !l.outerKeys.isEmpty

/-- Add a token. -/
def emit (l : Layout) (t : Token) : Layout := { l with tokens := l.tokens.push t }

/-- The least column at which a scalar may go on. -/
def leastColumn (l : Layout) : Nat :=
  match l.columns with
  | [] => 0
  | i :: _ => i + 1

/-- End the collections that began to the right of a column. -/
def endTo (l : Layout) (column : Nat) : Layout :=
  let ended := l.columns.takeWhile (column < ·)
  { l with
    columns := l.columns.drop ended.length
    tokens := l.tokens ++ Array.replicate ended.length .blockEnd }

/-- End the collections to the right of a column; inside brackets indentation means nothing. -/
def unroll (l : Layout) (column : Nat) : Layout :=
  if l.inFlow then l else l.endTo column

/-- End all collections written by indentation. -/
def unrollAll (l : Layout) : Layout :=
  if l.inFlow then l
  else { l with
    columns := []
    tokens := l.tokens ++ Array.replicate l.columns.length .blockEnd }

/-- Begin a collection at a column, unless one is open there or further to the right. Its token
goes in front of the token at a position. -/
def roll (l : Layout) (column position : Nat) (t : Token) : Layout :=
  if l.inFlow || column < l.leastColumn then l
  else { l with
    columns := column :: l.columns
    tokens := l.tokens.insertIdxIfInBounds position t }

/-- Whether a place is too far behind for a key that began there. -/
def tooFar (k : KeyPlace) (c : Cursor) : Bool :=
  k.line < c.line || k.index + 1024 < c.index

/-- Give up a possible key that is too far behind; one that has to be a key is refused. -/
def dropFar? (c : Cursor) : Option KeyPlace → Option (Option KeyPlace)
  | none => some none
  | some k => if tooFar k c then (if k.required then none else some none) else some (some k)

/-- Give up the possible keys that are too far behind. -/
def dropFarKeys? (l : Layout) (c : Cursor) : Option Layout := do
  return { l with
    keyPlace := ← dropFar? c l.keyPlace
    outerKeys := ← l.outerKeys.mapM (dropFar? c) }

/-- Give up the possible key inside the innermost brackets. -/
def dropKey? (l : Layout) : Option Layout :=
  if (l.keyPlace.map (·.required)).getD false then none else some { l with keyPlace := none }

/-- Note that a key may begin here. It has to be one if it stands in the column of a mapping. -/
def markKey? (l : Layout) (c : Cursor) : Option Layout :=
  if l.keyAllowed then do
    let l ← l.dropKey?
    let required := !l.inFlow && l.columns.head? == some c.column
    return { l with keyPlace := some ⟨l.tokens.size, c.line, c.column, c.index, required⟩ }
  else some l

/-- Go inside brackets. -/
def enter (l : Layout) : Layout :=
  { l with keyPlace := none, outerKeys := l.keyPlace :: l.outerKeys }

/-- Go outside brackets. -/
def leave (l : Layout) : Layout :=
  match l.outerKeys with
  | [] => l
  | k :: ks => { l with keyPlace := k, outerKeys := ks }

/-- State whether a key may begin next. -/
def allowKey (l : Layout) (allowed : Bool) : Layout := { l with keyAllowed := allowed }

end Layout

/-! ### Tokens of several characters -/

/-- The name of an anchor or alias, from behind its indicator. -/
def readAnchor? (c : Cursor) : Option (String × Cursor) :=
  let (name, c) := c.span isWord
  let ends := Cursor.endsWord c.rest ||
    (c.peek?.map (['?', ':', ',', ']', '\x7d', '%', '@', '\x60'].contains ·)).getD false
  if name.isEmpty || !ends then none else some (String.ofList name, c)

/-- The characters of a tag besides those of names; brackets and commas only if `verbatim`. -/
def isTagMark (verbatim : Bool) (x : Char) : Bool :=
  [';', '/', '?', ':', '@', '&', '=', '+', '$', '.', '!', '~', '*', '\x27', '(', ')'].contains x ||
    (verbatim && [',', '[', ']'].contains x)

/-- The bytes that escapes of the form `%41` stand for, as many as follow each other. -/
def percentBytes : List Char → Option (List UInt8 × List Char)
  | '%' :: hi :: lo :: r => do
    let h ← Text.hexValue? hi
    let l ← Text.hexValue? lo
    let (bs, r) ← percentBytes r
    return (UInt8.ofNat (16 * h + l) :: bs, r)
  | '%' :: _ => none
  | r => some ([], r)

/-- The text of a tag: characters of tags, and bytes of characters written as escapes. -/
def readTagText? (verbatim : Bool) (c : Cursor) : Option (String × Cursor) := do
  let raw := c.rest.takeWhile fun x => isWord x || isTagMark verbatim x || x == '%'
  let text ← unescape raw raw.length
  return (text, { c with
    rest := c.rest.drop raw.length
    column := c.column + raw.length
    index := c.index + raw.length })
where
  /-- The text with all escapes replaced; the number bounds the pieces. -/
  unescape (cs : List Char) : Nat → Option String
    | 0 => if cs.isEmpty then some "" else none
    | n + 1 => do
      let plain := cs.takeWhile (· ≠ '%')
      match cs.dropWhile (· ≠ '%') with
      | [] => return String.ofList plain
      | escaped => do
        let (bs, r) ← percentBytes escaped
        let middle ← String.fromUTF8? ⟨bs.toArray⟩
        return String.ofList plain ++ middle ++ (← unescape r n)

/-- A tag, from its indicator on: a handle and a suffix. A tag in angle brackets has no handle;
the lone indicator is a suffix without a handle. -/
def readTag? (inFlow : Bool) (c : Cursor) : Option (Token × Cursor) := do
  let (t, c) ←
    if c.skip.sees '<' then do
      let (suffix, c) ← readTagText? true c.skip.skip
      if suffix.isEmpty || !c.sees '>' then none
      else some (Token.tag "" suffix, c.skip)
    else do
      let (word, after) := c.skip.span isWord
      if after.sees '!' then do
        let (suffix, c) ← readTagText? false after.skip
        if suffix.isEmpty then none
        else some (Token.tag ("!" ++ String.ofList word ++ "!") suffix, c)
      else do
        let (suffix, c) ← readTagText? false c.skip
        some (if suffix.isEmpty then Token.tag "" "!" else Token.tag "!" suffix, c)
  if Cursor.endsWord c.rest || (inFlow && c.sees ',') then some (t, c) else none

/-- A number of at most nine digits. -/
def readNumber? (c : Cursor) : Option (Nat × Cursor) :=
  let (digits, c) := c.span Char.isDigit
  if digits.isEmpty || digits.length > 9 then none
  else some (digits.foldl (fun n d => 10 * n + (d.toNat - '0'.toNat)) 0, c)

/-- A directive, from its indicator to the end of its line. -/
def readDirective? (c : Cursor) : Option (Token × Cursor) := do
  let (name, c) := c.skip.span isWord
  if !Cursor.endsWord c.rest then none
  let c := c.skipWhile isBlank
  let (t, c) ← match String.ofList name with
    | "YAML" => do
      let (major, c) ← readNumber? c
      if !c.sees '.' then none
      let (minor, c) ← readNumber? c.skip
      some (Token.versionDirective major minor, c)
    | "TAG" => do
      if !c.sees '!' then none
      let (word, c) := c.skip.span isWord
      let (handle, c) ←
        if c.sees '!' then some ("!" ++ String.ofList word ++ "!", c.skip)
        else if word.isEmpty then some ("!", c)
        else none
      if !(c.peek?.map isBlank).getD false then none
      let (expansion, c) ← readTagText? true (c.skipWhile isBlank)
      if expansion.isEmpty || !Cursor.endsWord c.rest then none
      some (Token.tagDirective handle expansion, c)
    | _ => none
  return (t, ← nextLine? c)

/-! ### The next token -/

/-- Move on over blanks, and over a comment behind them. A tab may not take part in the
indentation. -/
def skipGap (l : Layout) (c : Cursor) : Cursor :=
  let c := c.skipWhile fun x => x == ' ' || ((l.inFlow || !l.keyAllowed) && x == '\t')
  if c.sees '#' then c.skipWhile (!isBreak ·) else c

theorem length_rest_skipGap_le (l : Layout) (c : Cursor) :
    (skipGap l c).rest.length ≤ c.rest.length := by
  simp only [skipGap]
  split
  · exact Nat.le_trans (Cursor.length_rest_skipWhile_le _ _) (Cursor.length_rest_skipWhile_le _ _)
  · exact Cursor.length_rest_skipWhile_le _ _

/-- A line break that is passed over makes what is left shorter. -/
theorem length_rest_skipBreak_skipGap_lt {l : Layout} {c : Cursor} {x : Char} {r : List Char}
    (h : (skipGap l c).rest = x :: r) :
    (skipGap l c).skipBreak.rest.length < c.rest.length := by
  have h₁ := length_rest_skipGap_le l c
  have h₂ := (skipGap l c).length_rest_skipBreak_le
  have h₃ : (skipGap l c).rest.length = r.length + 1 := by rw [h, List.length_cons]
  omega

/-- Move on to the next token, over blanks, comments and line breaks. A new line allows a key,
outside brackets. -/
def toNextToken (l : Layout) (c : Cursor) : Layout × Cursor :=
  match _h : (skipGap l c).rest with
  | [] => (l, skipGap l c)
  | x :: _ =>
    if isBreak x then
      toNextToken (if l.inFlow then l else l.allowKey true) (skipGap l c).skipBreak
    else (l, skipGap l c)
termination_by c.rest.length
decreasing_by exact length_rest_skipBreak_skipGap_lt _h

/-- Brackets that open. -/
def openBracket? (l : Layout) (c : Cursor) (t : Token) : Option (Layout × Cursor) := do
  let l ← l.markKey? c
  return ((l.enter.allowKey true).emit t, c.skip)

/-- Brackets that close. -/
def closeBracket? (l : Layout) (c : Cursor) (t : Token) : Option (Layout × Cursor) := do
  let l ← l.dropKey?
  return ((l.leave.allowKey false).emit t, c.skip)

/-- A line that belongs to the document as a whole. -/
def documentLevel? (l : Layout) (read : Option (Token × Cursor)) : Option (Layout × Cursor) := do
  let l ← l.unrollAll.dropKey?
  let (t, c) ← read
  return ((l.allowKey false).emit t, c)

/-- An entry of a sequence. -/
def entry? (l : Layout) (c : Cursor) : Option (Layout × Cursor) := do
  if !l.inFlow && !l.keyAllowed then none
  let l := l.roll c.column l.tokens.size .blockSequenceStart
  let l ← l.dropKey?
  return ((l.allowKey true).emit .blockEntry, c.skip)

/-- A key with its own indicator. -/
def key? (l : Layout) (c : Cursor) : Option (Layout × Cursor) := do
  if !l.inFlow && !l.keyAllowed then none
  let l := l.roll c.column l.tokens.size .blockMappingStart
  let l ← l.dropKey?
  return ((l.allowKey (!l.inFlow)).emit .key, c.skip)

/-- A value. If a possible key is in front of it, its tokens are inserted now. -/
def value? (l : Layout) (c : Cursor) : Option (Layout × Cursor) :=
  match l.keyPlace with
  | some k =>
    let l := { l with
      tokens := l.tokens.insertIdxIfInBounds k.tokens .key, keyPlace := none }
    let l := l.roll k.column k.tokens .blockMappingStart
    some ((l.allowKey false).emit .value, c.skip)
  | none => do
    if !l.inFlow && !l.keyAllowed then none
    let l := l.roll c.column l.tokens.size .blockMappingStart
    return ((l.allowKey (!l.inFlow)).emit .value, c.skip)

/-- A scalar, alias or property that may begin a key. -/
def keyed? (l : Layout) (c : Cursor) (read : Option (Token × Cursor)) :
    Option (Layout × Cursor) := do
  let l ← l.markKey? c
  let (t, c) ← read
  return ((l.allowKey false).emit t, c)

/-- A plain scalar. If it goes over to a later line, a key may begin behind it. -/
def plain? (l : Layout) (c : Cursor) : Option (Layout × Cursor) := do
  let l ← l.markKey? c
  let (text, broken, c) ← readPlain l.inFlow l.leastColumn c
  return ((l.allowKey broken).emit (.scalar text .plain), c)

/-- A block scalar. -/
def block? (l : Layout) (c : Cursor) (literal : Bool) : Option (Layout × Cursor) := do
  let l ← l.dropKey?
  let (text, c) ← readBlock literal l.columns.head? c
  return ((l.allowKey true).emit (.scalar text (if literal then .literal else .folded)), c)

/-- Whether a plain scalar may begin with `x` before `r`. A tab that was not passed over stands
where a key may begin, and there it is refused. -/
def startsPlain (inFlow : Bool) (x : Char) (r : List Char) : Bool :=
  !(isBlank x || ['-', '?', ':', ',', '[', ']', '\x7b', '\x7d', '#', '&', '*', '!', '|', '>',
      '\x27', '"', '%', '@', '\x60'].contains x) ||
    (x == '-' && !(r.head?.map isBlank).getD false) ||
    (!inFlow && (x == '?' || x == ':') && !Cursor.endsWord r)

/-- The token that begins with `x` before `r`. -/
def nextToken? (l : Layout) (c : Cursor) (x : Char) (r : List Char) : Option (Layout × Cursor) :=
  let alone := Cursor.endsWord r
  if c.column = 0 && x = '%' then documentLevel? l (readDirective? c)
  else if c.atDocumentMark '-' then
    documentLevel? l (some (.documentStart, c.skip.skip.skip))
  else if c.atDocumentMark '.' then
    documentLevel? l (some (.documentEnd, c.skip.skip.skip))
  else if x = '[' then openBracket? l c .flowSequenceStart
  else if x = '\x7b' then openBracket? l c .flowMappingStart
  else if x = ']' then closeBracket? l c .flowSequenceEnd
  else if x = '\x7d' then closeBracket? l c .flowMappingEnd
  else if x = ',' then l.dropKey?.map fun l => ((l.allowKey true).emit .flowEntry, c.skip)
  else if x = '-' && alone then entry? l c
  else if x = '?' && (l.inFlow || alone) then key? l c
  else if x = ':' && (l.inFlow || alone) then value? l c
  else if x = '*' then keyed? l c ((readAnchor? c.skip).map fun (n, c) => (.alias n, c))
  else if x = '&' then keyed? l c ((readAnchor? c.skip).map fun (n, c) => (.anchor n, c))
  else if x = '!' then keyed? l c (readTag? l.inFlow c)
  else if x = '|' && !l.inFlow then block? l c true
  else if x = '>' && !l.inFlow then block? l c false
  else if x = '\x27' then
    keyed? l c ((readQuoted true c).map fun (s, c) => (.scalar s .singleQuoted, c))
  else if x = '"' then
    keyed? l c ((readQuoted false c).map fun (s, c) => (.scalar s .doubleQuoted, c))
  else if startsPlain l.inFlow x r then plain? l c
  else none

/-- The tokens from a place on. Every token takes at least one character, so a step that leaves as
much as before is refused. -/
def tokensFrom? (l : Layout) (c : Cursor) : Option (Array Token) := do
  let (l, c') := toNextToken l c
  let l := (← l.dropFarKeys? c').unroll c'.column
  match c'.rest with
  | [] => return (← l.unrollAll.dropKey?).tokens
  | x :: r =>
    let (l, next) ← nextToken? l c' x r
    if next.rest.length < c.rest.length then tokensFrom? l next else none
termination_by c.rest.length

/-- The tokens of a text. A byte order mark in front of it does not count. -/
def Token.ofText? (text : String) : Option (List Token) :=
  let cs := match text.toList with
    | '\ufeff' :: r => r
    | cs => cs
  if cs.all isAllowed then (tokensFrom? {} ⟨cs, 0, 0, 0⟩).map (·.toList) else none

end Outline.Yaml
