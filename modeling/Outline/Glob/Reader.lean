import Outline.Glob.Piece

/-!
# Reading globs

The written form of a glob: `?`, `*`, classes in square brackets, alternatives in braces, and a
backslash in front of a character that stands for itself. This module provides:

* `Glob.Fault` — what can be wrong with a written glob, and its `message`;
* `Glob.classRanges` — the ranges of a class; and
* `Glob.ofText` — a glob from its written form, or its first fault.

Two stars are a directory wildcard only between separators or at an end of a branch; anywhere
else they are two runs. A reader in progress is a `Draft`: the branch that is being read and the
groups around it.
-/

namespace Outline.Glob

/-- What can be wrong with a written glob. -/
inductive Fault
  /-- A class has no closing bracket. -/
  | unclosedClass
  /-- A range runs downwards. -/
  | invalidRange (lo hi : Char)
  /-- A brace closes no group. -/
  | unopenedGroup
  /-- A group has no closing brace. -/
  | unclosedGroup
  /-- A backslash stands at the end. -/
  | danglingEscape
  deriving Repr, DecidableEq

/-- What is wrong, in words. -/
def Fault.message : Fault → String
  | .unclosedClass => "unclosed character class; missing ']'"
  | .invalidRange lo hi =>
    "invalid range; '" ++ String.singleton lo ++ "' > '" ++ String.singleton hi ++ "'"
  | .unopenedGroup =>
    "unopened alternate group; missing '\x7b' (maybe escape '\x7d' with '[\x7d]'?)"
  | .unclosedGroup =>
    "unclosed alternate group; missing '\x7d' (maybe escape '\x7b' with '[\x7b]'?)"
  | .danglingEscape => "dangling '\\'"

/-- Continue the ranges of a class, the latest first. If `spanning`, a dash was read that may
join the latest range to the next character. -/
def classRanges : List (Char × Char) → Bool → List Char → Except Fault (List (Char × Char))
  | ranges, spanning, [] =>
    .ok (if spanning then ('-', '-') :: ranges else ranges).reverse
  | ranges, false, c :: r =>
    if c = '-' then classRanges ranges true r else classRanges ((c, c) :: ranges) false r
  | (lo, _) :: ranges, true, c :: r =>
    if c < lo then .error (.invalidRange lo c) else classRanges ((lo, c) :: ranges) false r
  | [], true, c :: r => classRanges [(c, c)] false r

/-- A class, from what follows its opening bracket: the piece and what follows the closing
bracket. The first character of a class stands for itself, also a bracket or a dash. -/
def readClass (cs : List Char) : Except Fault (Piece × List Char) :=
  let negated := cs.head? == some '!' || cs.head? == some '^'
  match if negated then cs.tail else cs with
  | [] => .error .unclosedClass
  | first :: r => do
    let ranges ← classRanges [(first, first)] false (r.takeWhile (· ≠ ']'))
    match r.dropWhile (· ≠ ']') with
    | [] => .error .unclosedClass
    | _ :: rest => return (.oneOf negated ranges, rest)

/-- What follows a class is shorter than what follows its opening bracket. -/
theorem length_lt_of_readClass {cs rest : List Char} {p : Piece}
    (h : readClass cs = .ok (p, rest)) : rest.length < cs.length := by
  unfold readClass at h
  simp only at h
  split at h
  · simp at h
  · rename_i first r hr
    have hle : (first :: r).length ≤ cs.length := by
      rw [← hr]; split <;> simp
    simp only [bind, Except.bind] at h
    split at h
    · simp at h
    · split at h
      · simp at h
      · rename_i x rest' hd
        have hlen : (r.dropWhile (· ≠ ']')).length ≤ r.length :=
          (List.dropWhile_sublist _).length_le
        rw [hd] at hlen
        simp only [pure, Except.pure, Except.ok.injEq, Prod.mk.injEq] at h
        obtain ⟨-, rfl⟩ := h
        simp only [List.length_cons] at hle hlen
        omega

/-- A group of alternatives that is being read: the branch around it and the branches that are
complete, all in reverse. -/
structure Group where
  around : List Piece
  complete : List (List Piece)

/-- A glob that is being read: the current branch in reverse, and the groups around it, the
innermost first. -/
structure Draft where
  branch : List Piece := []
  groups : List Group := []

namespace Draft

/-- Add pieces to the current branch. -/
def push (d : Draft) (p : Piece) : Draft := { d with branch := p :: d.branch }

/-- Begin a group of alternatives. -/
def openGroup (d : Draft) : Draft := ⟨[], ⟨d.branch, []⟩ :: d.groups⟩

/-- End the innermost group; there may be none. -/
def closeGroup? (d : Draft) : Option Draft :=
  match d.groups with
  | [] => none
  | g :: gs =>
    let branches := (d.branch.reverse :: g.complete).reverse
    some ⟨.alternatives branches :: g.around, gs⟩

/-- A comma begins the next branch of a group; outside groups it stands for itself. -/
def comma (d : Draft) : Draft :=
  match d.groups with
  | [] => d.push (.literal ',')
  | g :: gs => ⟨[], { g with complete := d.branch.reverse :: g.complete } :: gs⟩

/-- Put a directory wildcard in place of the piece before it. One wildcard that leads or trails
absorbs the next. -/
def replaceLast (d : Draft) (p : Piece) : Draft :=
  match d.branch with
  | .leadingDirs :: _ => d
  | .trailingDirs :: _ => d
  | _ :: r => { d with branch := p :: r }
  | [] => d.push p

/-- Two runs, which two stars are where they cannot be a directory wildcard. -/
def twoRuns (d : Draft) : Draft := (d.push .anyRun).push .anyRun

end Draft

/-- Whether two stars may be a directory wildcard behind `prev`. -/
def mayFollow (d : Draft) (prev : Option Char) : Bool :=
  prev == some '/' || (!d.groups.isEmpty && (prev == some ',' || prev == some '\x7b'))

/-- Two stars, from what follows them: the draft, the last character read and what follows it. -/
def readStars (d : Draft) (prev : Option Char) (cs : List Char) : Draft × Char × List Char :=
  let plain := (d.twoRuns, '*', cs)
  if d.branch.isEmpty then
    match cs with
    | [] => (d.push .leadingDirs, '*', [])
    | '/' :: r => (d.push .leadingDirs, '/', r)
    | _ => plain
  else if mayFollow d prev then
    match cs with
    | [] => (d.replaceLast .trailingDirs, '*', [])
    | '/' :: r => (d.replaceLast .innerDirs, '/', r)
    | c :: _ =>
      if !d.groups.isEmpty && (c = ',' || c = '\x7d') then
        (d.replaceLast .trailingDirs, '*', cs)
      else plain
  else plain

/-- Two stars take nothing away from what follows them but a separator. -/
theorem length_readStars_le (d : Draft) (prev : Option Char) (cs : List Char) :
    (readStars d prev cs).2.2.length ≤ cs.length := by
  unfold readStars
  simp only
  split
  · split <;> simp
  · split
    · split
      · simp
      · simp
      · split <;> simp
    · simp

/-- Continue a draft behind the character `prev`. -/
def readFrom (d : Draft) (prev : Option Char) (cs : List Char) : Except Fault (List Piece) :=
  match cs with
  | [] => if d.groups.isEmpty then .ok d.branch.reverse else .error .unclosedGroup
  | '?' :: r => readFrom (d.push .anyOne) (some '?') r
  | '*' :: '*' :: r =>
    have := length_readStars_le d prev r
    readFrom (readStars d prev r).1 (some (readStars d prev r).2.1) (readStars d prev r).2.2
  | '*' :: r => readFrom (d.push .anyRun) (some '*') r
  | '[' :: r =>
    match h : readClass r with
    | .error e => .error e
    | .ok (p, rest) =>
      have := length_lt_of_readClass h
      readFrom (d.push p) (some ']') rest
  | '\x7b' :: r => readFrom d.openGroup (some '\x7b') r
  | '\x7d' :: r =>
    match d.closeGroup? with
    | none => .error .unopenedGroup
    | some d => readFrom d (some '\x7d') r
  | ',' :: r => readFrom d.comma (some ',') r
  | ['\\'] => .error .danglingEscape
  | '\\' :: c :: r => readFrom (d.push (.literal c)) (some c) r
  | c :: r => readFrom (d.push (.literal c)) (some c) r
termination_by cs.length
decreasing_by all_goals (simp only [List.length_cons] at *; omega)

/-- The glob that a text spells. -/
def ofText (text : String) : Except Fault Glob :=
  (readFrom {} none text.toList).map (Glob.mk text)

end Outline.Glob
