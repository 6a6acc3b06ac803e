/-!
# Globs as sequences of pieces

A glob is a sequence of pieces, and a piece says which stretches of a path it stands for. The
meaning is given on bytes and by what remains: `Piece.rests p w` lists the suffixes of `w` that
are left once `p` has taken a stretch from its front. This module provides:

* `Piece` — the pieces, with alternatives that hold sequences of pieces again;
* `Piece.rests` and `restsAll` — what remains after a piece and after a sequence; and
* `Glob` with `Glob.accepts` — a glob accepts a path if it can take all of it.

A separator is an ordinary byte for `?`, `*` and classes, so `*` also runs across directories.
-/

namespace Outline

/-- A piece of a glob. -/
inductive Glob.Piece
  /-- The character itself. -/
  | literal (c : Char)
  /-- `?`: any one byte. -/
  | anyOne
  /-- `*`: any stretch. -/
  | anyRun
  /-- A leading directory wildcard: nothing, or a stretch that ends in a separator. -/
  | leadingDirs
  /-- A trailing directory wildcard: a separator and all that follows it. -/
  | trailingDirs
  /-- A directory wildcard between two separators, or a single separator. -/
  | innerDirs
  /-- A class: one byte that lies in one of the ranges, or in none of them if negated. -/
  | oneOf (negated : Bool) (ranges : List (Char × Char))
  /-- Alternatives: what one of the branches stands for. -/
  | alternatives (branches : List (List Glob.Piece))
  deriving Inhabited

namespace Glob

/-- The byte that separates the components of a path. -/
def separator : UInt8 := 47

/-- All suffixes of a word, the word itself and the empty one included. -/
def suffixes : List UInt8 → List (List UInt8)
  | [] => [[]]
  | b :: r => (b :: r) :: suffixes r

/-- The suffixes that begin right behind a separator. -/
def afterSeparators : List UInt8 → List (List UInt8)
  | [] => []
  | b :: r => if b = separator then r :: afterSeparators r else afterSeparators r

/-- The ranges of bytes that a range of characters stands for: the bytes that spell its ends, with
a range from the last byte of the one to the first byte of the other. A range of one character is
the bytes that spell it. -/
def byteRanges (lo hi : Char) : List (UInt8 × UInt8) :=
  let single := fun (b : UInt8) => (b, b)
  let first := String.utf8EncodeChar lo
  let last := String.utf8EncodeChar hi
  if lo = hi then first.map single
  else
    first.dropLast.map single ++ (first.getLast?.bind fun b => last.head?.map (b, ·)).toList ++
      last.tail.map single

/-- Whether a class takes a byte. -/
def inClass (negated : Bool) (ranges : List (Char × Char)) (b : UInt8) : Bool :=
  negated != (ranges.flatMap fun (lo, hi) => byteRanges lo hi).any fun (lo, hi) => lo ≤ b && b ≤ hi

/-- A word without a given front, if it has that front. -/
def dropFront? (front w : List UInt8) : List (List UInt8) :=
  if front.isPrefixOf w then [w.drop front.length] else []

mutual

/-- Whether a piece is made of empty branches only; such a branch is no alternative to others. -/
def Piece.isVoid : Piece → Bool
  | .alternatives branches => allBranchesVoid branches
  | _ => false

/-- Whether a sequence holds no piece that stands for anything. -/
def allVoid : List Piece → Bool
  | [] => true
  | p :: ps => p.isVoid && allVoid ps

/-- Whether all branches are void. -/
def allBranchesVoid : List (List Piece) → Bool
  | [] => true
  | b :: bs => allVoid b && allBranchesVoid bs

end

mutual

/-- What is left of a word once the piece has taken a stretch from its front, for each stretch
that it can take. -/
def Piece.rests : Piece → List UInt8 → List (List UInt8)
  | .literal c, w => dropFront? (String.utf8EncodeChar c) w
  | .anyOne, w => w.tail?.toList
  | .anyRun, w => suffixes w
  | .leadingDirs, w => w :: afterSeparators w
  | .trailingDirs, w =>
    match w with
    | b :: r => if b = separator then suffixes r else []
    | [] => []
  | .innerDirs, w =>
    match w with
    | b :: r => if b = separator then r :: afterSeparators r else []
    | [] => []
  | .oneOf negated ranges, w =>
    match w with
    | b :: r => if inClass negated ranges b then [r] else []
    | [] => []
  | .alternatives branches, w =>
    if allBranchesVoid branches then [w] else restsOfBranches branches w

/-- What is left of one of several words once a sequence has taken a stretch from its front.
Repetitions are dropped on the way, so their number stays below the number of suffixes. -/
def restsAll : List Piece → List (List UInt8) → List (List UInt8)
  | [], ws => ws
  | p :: ps, ws => restsAll ps (ws.flatMap p.rests).eraseDups

/-- What is left of a word once one of the branches has taken a stretch from its front. -/
def restsOfBranches : List (List Piece) → List UInt8 → List (List UInt8)
  | [], _ => []
  | b :: bs, w =>
    (if allVoid b then [] else restsAll b [w]) ++ restsOfBranches bs w

end

/-- Whether a piece is a character other than those in `except`. -/
def Piece.isLiteral (except : List Char) : Piece → Bool
  | .literal c => !except.contains c
  | _ => false

/-- Whether a piece is a leading directory wildcard. -/
def Piece.isLeadingDirs : Piece → Bool
  | .leadingDirs => true
  | _ => false

/-- Whether a piece is a run. -/
def Piece.isAnyRun : Piece → Bool
  | .anyRun => true
  | _ => false

/-- Whether a sequence ends in a dot and literals that are neither dots nor separators. -/
def endsInExtension (ps : List Piece) : Bool :=
  match ps.reverse.dropWhile (Piece.isLiteral ['.', '/']) with
  | .literal c :: _ => c == '.'
  | _ => false

/-- Whether a sequence without its leading wildcards is a plain text. -/
def isPlainSuffix (ps : List Piece) : Bool :=
  let rest := if (ps.head?.map Piece.isLeadingDirs).getD false then ps.tail else ps
  let rest := if (rest.head?.map Piece.isAnyRun).getD false then rest.tail else rest
  rest.all (Piece.isLiteral [])

/-- Whether a sequence fixes the name of a path: any directories, then a plain name. -/
def isPlainName : List Piece → Bool
  | .leadingDirs :: rest => rest.all (Piece.isLiteral ['/'])
  | _ => false

/-- Whether a sequence fixes the extension of a path and nothing else. -/
def isPlainExtension (ps : List Piece) : Bool :=
  let rest := if (ps.head?.map Piece.isLeadingDirs).getD false then ps.tail else ps
  match rest with
  | .anyRun :: .literal '.' :: ext => ext.all (Piece.isLiteral ['.', '/'])
  | _ => false

/-- Whether a glob is decided by the name at the end of a path: it fixes the extension, and is not
a mere text to compare the path or its end with. -/
def looksAtName (ps : List Piece) : Bool :=
  endsInExtension ps && !ps.all (Piece.isLiteral []) &&
    (isPlainName ps || isPlainExtension ps || !isPlainSuffix ps)

/-- Whether a path ends in the component `..`, which is no name. -/
def endsInParent (w : List UInt8) : Bool :=
  w.reverse.takeWhile (· ≠ separator) == [46, 46]

end Glob

/-- A glob: the text it was written as, and its pieces. -/
structure Glob where
  text : String
  pieces : List Glob.Piece

/-- Whether a glob accepts a path. A lone directory wildcard accepts all paths; a glob that looks
at the name of a path accepts none that has no name; any other glob has to take the whole path. -/
def Glob.accepts (g : Glob) (path : String) : Bool :=
  let w := path.toUTF8.toList
  match g.pieces with
  | [.leadingDirs] => true
  | ps => !(looksAtName ps && endsInParent w) && (restsAll ps [w]).contains []

end Outline
