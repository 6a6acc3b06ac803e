import Outline.Text.Blank

/-!
# Syntax trees

The tree that a grammar makes of a source text. A node covers a span of the text; it may fill a
named field of its parent, and it is either named (a construct of the language) or a bare token.
This module provides:

* `SyntaxNode`, with its children by field, by position and by kind;
* `SyntaxNode.ofPreorder` — a tree from a listing of its nodes with depths; and
* `SyntaxNode.text?` — the text of a node on one line, without what merely delimits it.
-/

namespace Outline

/-- A node of a syntax tree. -/
inductive SyntaxNode where
  | mk (field : Option String) (kind : String) (named : Bool) (start stop row : Nat)
    (children : List SyntaxNode)
deriving Inhabited

/-- What a grammar makes of a source text. -/
structure SyntaxTree where
  root : SyntaxNode
  /-- Whether some part of the text does not follow the grammar. -/
  hasError : Bool
deriving Inhabited

/-- A source text, or any other content of a file. -/
abbrev Bytes := List UInt8

namespace SyntaxNode

/-- The field of its parent that a node fills. -/
def field : SyntaxNode → Option String
  | mk f _ _ _ _ _ _ => f

/-- The construct or token that a node is. -/
def kind : SyntaxNode → String
  | mk _ k _ _ _ _ _ => k

/-- Whether a node is a construct, not a bare token. -/
def named : SyntaxNode → Bool
  | mk _ _ n _ _ _ _ => n

/-- The offset of the first byte. -/
def start : SyntaxNode → Nat
  | mk _ _ _ s _ _ _ => s

/-- The offset behind the last byte. -/
def stop : SyntaxNode → Nat
  | mk _ _ _ _ e _ _ => e

/-- The line of the first byte, counted from 0. -/
def row : SyntaxNode → Nat
  | mk _ _ _ _ _ r _ => r

/-- The nodes directly below. -/
def children : SyntaxNode → List SyntaxNode
  | mk _ _ _ _ _ _ cs => cs

/-- The children that are constructs. -/
def namedChildren (n : SyntaxNode) : List SyntaxNode :=
  n.children.filter (·.named)

/-- The first child that fills a field. -/
def child? (n : SyntaxNode) (field : String) : Option SyntaxNode :=
  n.children.find? (·.field == some field)

/-- The first child that is a construct. -/
def firstNamed? (n : SyntaxNode) : Option SyntaxNode :=
  n.children.find? (·.named)

/-- The first child that is the given construct. -/
def childOfKind? (n : SyntaxNode) (kind : String) : Option SyntaxNode :=
  n.namedChildren.find? (·.kind == kind)

/-- The node with other children. -/
def withChildren (n : SyntaxNode) (cs : List SyntaxNode) : SyntaxNode :=
  match n with
  | mk f k b s e r _ => mk f k b s e r cs

/-- Read a listing from its end: a node takes as children the trees read so far that begin at
depths below its own. The trees that are left stand at the depths they are listed with. -/
def collect : List (Nat × SyntaxNode) → List (Nat × SyntaxNode)
  | [] => []
  | (depth, n) :: rest =>
    let trees := collect rest
    let below := trees.takeWhile (depth < ·.1)
    (depth, n.withChildren (below.map (·.2))) :: trees.drop below.length

/-- The tree of a listing in pre-order, each node with its depth. -/
def ofPreorder (ns : List (Nat × SyntaxNode)) : Option SyntaxNode :=
  (collect ns).head?.map (·.2)

mutual

/-- A bound on the steps that a walk through a node takes. -/
def weight : SyntaxNode → Nat
  | mk _ _ _ _ _ _ cs => 2 + weights cs

/-- A bound on the steps that a walk through some siblings takes. -/
def weights : List SyntaxNode → Nat
  | [] => 0
  | n :: r => n.weight + weights r

end

/-- A node takes more steps than all its children. -/
theorem weights_children_lt (n : SyntaxNode) : 1 + weights n.children < n.weight := by
  cases n
  simp only [children, weight]
  omega

/-- Whether a character may delimit a name without being part of it. -/
def isQuote (c : Char) : Bool :=
  c == '\x22' || c == '\x27' || c == '\x60'

/-- A text on one line: words joined by single spaces, without semicolons at the end and quotes
around it. -/
def tidy (cs : List Char) : List Char :=
  Text.strip isQuote (Text.dropRightWhile (· == ';') (Text.unwords (Text.words cs)))

/-- The text of a node on one line; none if it is not UTF-8 or if nothing is left of it. -/
def text? (n : SyntaxNode) (source : Bytes) : Option String :=
  let raw := (source.drop n.start).take (n.stop - n.start)
  match String.fromUTF8? ⟨raw.toArray⟩ with
  | none => none
  | some s => match tidy s.toList with
    | [] => none
    | cs => some (String.ofList cs)

end SyntaxNode

end Outline
