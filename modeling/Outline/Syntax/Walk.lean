import Outline.Syntax.Cursor
import Outline.Syntax.Rule

/-!
# Walking a syntax tree

The declarations of a file are gathered in one walk of a cursor over its syntax tree, without
recursion: a stack of frames, one for each level below the root, tells what the nodes there are
nested in. A bare token is passed over with all below it. A construct that declares something
opens a frame of its own for what is below it; one that does not hands its frame on. This module
provides:

* `Frame` and `Walker`, the state of the walk;
* `Walker.step` and `Language.walk`, the walk, and
* `Language.listing` — the walk together with the declaration of the file.
-/

namespace Outline

/-- What the nodes at one level are nested in. -/
structure Frame where
  /-- The depth of declarations made here. -/
  depth : Nat
  /-- The kind of the nearest declaration around. -/
  kind : Kind
  /-- The place of that declaration among those met; none for the file itself. -/
  owner : Option Nat
deriving DecidableEq

namespace Frame

/-- The frame of a whole file. -/
def file : Frame := ⟨1, .file, none⟩

/-- The scope that a frame makes. The name is looked up among the declarations met so far. -/
def scope (f : Frame) (met : Array Entry) : Scope :=
  let name := match f.owner.bind (met[·]?) with
    | some e => e.payload.name
    | none => ""
  ⟨f.depth, f.kind, name⟩

end Frame

/-- The state of a walk. -/
structure Walker where
  /-- Where the walk stands; none if it is over. -/
  place : Option Cursor
  /-- The frames of the levels, innermost first. -/
  frames : List Frame
  /-- The declarations met so far. -/
  met : Array Entry

namespace Walker

/-- Go on behind a node and all that is below it. Behind a last sibling the walk climbs, and drops
a frame for each level; the last frame is kept. -/
def onward (c : Cursor) (w : Walker) : Walker :=
  match c.nextSibling? with
  | some d => { w with place := some d }
  | none =>
    if w.frames.length = 1 then { w with place := none }
    else match h : c.parent? with
      | none => { w with place := none }
      | some p =>
        have := Cursor.length_above_parent h
        onward p { w with frames := w.frames.tail }
termination_by c.above.length

/-- What the node at a place adds to the declarations met, and the frame for what is below it. -/
def visit (l : Language) (source : Bytes) (c : Cursor) (f : Frame) (met : Array Entry) :
    Array Entry × Frame :=
  match l.entry? ⟨c.node, c.parentKind, source⟩ (f.scope met) with
  | some e => (met.push e, ⟨f.depth + 1, e.kind, some met.size⟩)
  | none => (met, f)

/-- One step: visit a node, then go to its first child, or else onward. A bare token is not
visited, and nothing below it. -/
def step (l : Language) (source : Bytes) (w : Walker) : Walker :=
  match w.place, w.frames with
  | some c, f :: fs =>
    if c.node.named then
      let v := visit l source c f w.met
      match c.firstChild? with
      | some d => ⟨some d, v.2 :: f :: fs, v.1⟩
      | none => onward c { w with met := v.1 }
    else onward c w
  | _, _ => { w with place := none }

/-- A bound on the steps that are left. -/
def remaining (w : Walker) : Nat :=
  match w.place with
  | some c => c.remaining
  | none => 0

/-- Going onward leaves the node behind. -/
theorem remaining_onward (c : Cursor) (w : Walker) :
    (onward c w).remaining ≤ c.remainingBehind := by
  fun_induction onward c w with
  | case1 c w d hd => exact Nat.le_of_eq (Cursor.remaining_nextSibling hd)
  | case2 => exact Nat.zero_le _
  | case3 => exact Nat.zero_le _
  | case4 c w _ _ p hp _ ih => exact Nat.le_trans ih (Cursor.remaining_parent hp)

/-- Every step brings the end of the walk nearer. -/
theorem remaining_step (l : Language) (source : Bytes) {w : Walker} {c : Cursor}
    (h : w.place = some c) : (w.step l source).remaining < w.remaining := by
  have hw : w.remaining = c.remaining := by rw [remaining, h]
  have honward : ∀ w : Walker, (onward c w).remaining < c.remaining := fun w =>
    Nat.lt_of_le_of_lt (remaining_onward c w) c.remainingBehind_lt
  rw [hw]
  unfold step
  rw [h]
  split
  · rename_i d f fs hd hf
    cases hd
    split
    · dsimp only
      split
      · rename_i d hd
        exact Cursor.remaining_firstChild hd
      · exact honward _
    · exact honward _
  · exact Nat.lt_of_le_of_lt (Nat.zero_le _) c.remainingBehind_lt

end Walker

namespace Language

/-- The declarations met when the walk is over. -/
def walk (l : Language) (source : Bytes) (w : Walker) : Array Entry :=
  match h : w.place with
  | none => w.met
  | some _ =>
    have := Walker.remaining_step l source h
    walk l source (w.step l source)
termination_by w.remaining

/-- The declaration of a file. -/
def fileEntry (l : Language) (fileName : String) (hasError : Bool) : Entry :=
  let p := (Payload.mk fileName .empty).withAttribute "language" l.name
  ⟨.file, if hasError then p.withAttribute "parse_errors" "true" else p, 0⟩

/-- The walk over a file at its start: the file is met, and its root is left. -/
def atStart (l : Language) (fileName : String) (t : SyntaxTree) : Walker :=
  ⟨Cursor.firstChild? ⟨t.root, [], []⟩, [.file], #[l.fileEntry fileName t.hasError]⟩

/-- The declarations of a file: the file itself, then those inside in the order of the text. -/
def listing (l : Language) (fileName : String) (source : Bytes) (t : SyntaxTree) : List Entry :=
  (l.walk source (l.atStart fileName t)).toList

end Language

end Outline
