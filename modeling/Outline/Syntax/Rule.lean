import Outline.Syntax.Node
import Outline.Tree.Entry

/-!
# Rules: which constructs declare what

A language is described by rules, one for each construct that declares something: the kind of
the declaration and where its name stands. A language may also amend what a rule gives, from
what else the construct shows. This module provides:

* `NameSource`, `Rule` and `Language`;
* `Scope` — what a construct is nested in, and
* `Language.entry?` — the declaration, if any, that a construct makes in a scope.
-/

namespace Outline

/-- Where the name of a declaration stands. -/
inductive NameSource where
  /-- in a field of the construct -/
  | field (name : String)
  /-- in a field of a field -/
  | fieldPath (names : List String)
  /-- in the first construct below -/
  | firstNamed

/-- The construct that gives the name. -/
def NameSource.resolve? (n : SyntaxNode) : NameSource → Option SyntaxNode
  | field name => n.child? name
  | fieldPath names => names.foldlM (fun n name => n.child? name) n
  | firstNamed => n.firstNamed?

/-- What a construct declares. -/
structure Rule where
  kind : Kind
  /-- The kind inside a type, if it is another one there. -/
  nestedKind : Option Kind := none
  name : NameSource := .field "name"

/-- A construct where it stands. -/
structure Site where
  node : SyntaxNode
  /-- The construct that it is directly below. -/
  parentKind : String
  source : Bytes

/-- The text of a part of the construct. -/
def Site.text? (s : Site) (part : Option SyntaxNode) : Option String :=
  part.bind (·.text? s.source)

/-- A declaration before its depth is known. -/
structure Draft where
  kind : Kind
  payload : Payload

namespace Draft

/-- The draft with an attribute. -/
def set (d : Draft) (key value : String) : Draft :=
  { d with payload := d.payload.withAttribute key value }

/-- The draft with an attribute, if there is a value for it. -/
def set? (d : Draft) (key : String) : Option String → Draft
  | some value => d.set key value
  | none => d

/-- The draft under another name, if there is one. -/
def rename? (d : Draft) : Option String → Draft
  | some name => { d with payload := { d.payload with name := name } }
  | none => d

end Draft

/-- A language: the declarations of its constructs. -/
structure Language where
  name : String
  rules : List (String × Rule)
  /-- Amends what a rule gives. -/
  amend : Site → Draft → Draft

/-- What a construct is nested in. -/
structure Scope where
  /-- The depth of declarations made here. -/
  depth : Nat
  /-- The kind of the nearest declaration around. -/
  kind : Kind
  /-- The name of the nearest declaration around. -/
  name : String

namespace Scope

/-- The scope of a whole file. -/
def file : Scope := ⟨1, .file, ""⟩

/-- The scope of a declaration. -/
def inside (s : Scope) (e : Entry) : Scope := ⟨s.depth + 1, e.kind, e.payload.name⟩

end Scope

namespace Language

/-- The rule for a construct. -/
def rule? (l : Language) (kind : String) : Option Rule :=
  (l.rules.find? (·.1 == kind)).map (·.2)

/-- What a rule gives for a construct of the given name: the kind depends on whether the scope
is a type, the line is noted, and a method notes the type it belongs to. -/
def draft (r : Rule) (name : String) (row : Nat) (scope : Scope) : Draft :=
  let kind := match r.nestedKind with
    | some nested => if scope.kind.isTypeLike then nested else r.kind
    | none => r.kind
  let d : Draft := ⟨kind, (Payload.mk name .empty).withAttribute "line" (toString (row + 1))⟩
  if kind == .method && scope.kind.isTypeLike && !scope.name.isEmpty then
    d.set "receiver" scope.name
  else d

/-- The declaration that a construct makes, if a rule is for it and its name can be read. -/
def entry? (l : Language) (site : Site) (scope : Scope) : Option Entry := do
  let r ← l.rule? site.node.kind
  let name ← (← r.name.resolve? site.node).text? site.source
  let d := l.amend site (draft r name site.node.row scope)
  return ⟨d.kind, d.payload, scope.depth⟩

end Language

end Outline
