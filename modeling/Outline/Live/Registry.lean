import Outline.Live.Element

/-!
# Factories and their registry

A factory turns a declaration into an element, or fails with a reason. A registry has at most
one factory for each kind. `Registry.register` replaces what was there; `Registry.withStandard`
only fills the kinds that have none, so the order of the two does not matter.

A factory sees the tree and the node together with its id (`NodeRef`), so two nodes that say the
same may still become different elements.
-/

namespace Outline

/-- A node of a tree with its place there. -/
structure NodeRef extends Node where
  id : NodeId

instance : Coe NodeRef Node := ⟨NodeRef.toNode⟩

/-- Turns a node of a tree into an element, or tells why it cannot. -/
abbrev Factory := Tree → NodeRef → Except String Element

/-- Why a live node could not be had. -/
inductive LiveError where
  /-- No factory is registered for the kind. -/
  | unknownKind (kind : Kind)
  /-- The factory failed. -/
  | failed (kind : Kind) (id : NodeId) (cause : String)
  /-- The tree has no such node. -/
  | noNode (id : NodeId)
deriving DecidableEq, Repr

/-- The wording of an error. -/
def LiveError.message : LiveError → String
  | unknownKind kind =>
      "no live-node factory registered for stub kind `" ++ kind.name ++ "`"
  | failed kind id _ => "failed to materialize " ++ kind.name ++ " stub " ++ id.text
  | noNode id => "stub " ++ id.text ++ " does not exist in this tree"

/-- The name of a node, which has to be there. -/
def Node.requiredName (n : Node) : Except String String :=
  if n.payload.name.isEmpty then .error (n.kind.name ++ " stub has no name")
  else .ok n.payload.name

/-- The factory for every kind: it takes the parts of an element from the attributes. Only a file
may go without a name. A type's supertype is what it extends, else the trait it implements. -/
def standardFactory : Factory := fun _ n =>
  let given := n.payload.attribute?
  match n.kind with
  | .file => .ok (.file n.payload.name (given "language"))
  | .moduleDecl => do return .moduleScope (← n.requiredName)
  | .classType | .interfaceType | .structType | .enumType | .traitType | .implBlock
  | .typeAlias => do
    return .typeDecl (← n.requiredName) (given "visibility")
      ((given "extends").or (given "trait"))
  | .function | .method => do
    return .callable (← n.requiredName) (given "receiver") (given "visibility")
  | .field | .constant => do
    return .binding (← n.requiredName) (n.kind == .constant) (given "visibility")
  | .importDecl => do return .importPath (← n.requiredName) (given "alias")

/-- At most one factory for each kind. -/
structure Registry where
  factory? : Kind → Option Factory

namespace Registry

/-- The registry without factories. -/
def empty : Registry := ⟨fun _ => none⟩

/-- The registry with a factory for a kind, in place of any other. -/
def register (r : Registry) (k : Kind) (f : Factory) : Registry :=
  ⟨fun l => if l = k then some f else r.factory? l⟩

/-- The registry with the standard factory for the kinds that have none. -/
def withStandard (r : Registry) : Registry :=
  ⟨fun k => (r.factory? k).or (some standardFactory)⟩

/-- The registry of the standard factory alone. -/
def standard : Registry := empty.withStandard

/-- Whether a kind has a factory. -/
def contains (r : Registry) (k : Kind) : Bool := (r.factory? k).isSome

/-- The kinds that have a factory. -/
def kinds (r : Registry) : KindSet := .ofList (Kind.all.filter r.contains)

/-- The registry itself if every required kind has a factory; otherwise the first kind, in the
order of all kinds, that has none. -/
def covering (r : Registry) (required : KindSet) : Except LiveError Registry :=
  match required.toList.find? (!r.contains ·) with
  | some missing => .error (.unknownKind missing)
  | none => .ok r

/-- The live node of a declaration, made afresh. -/
def materialize (r : Registry) (t : Tree) (i : NodeId) : Except LiveError LiveNode :=
  match t.node? i with
  | none => .error (.noNode i)
  | some n => match r.factory? n.kind with
    | none => .error (.unknownKind n.kind)
    | some f => match f t ⟨n, i⟩ with
      | .error cause => .error (.failed n.kind i cause)
      | .ok element => .ok ⟨i, n.parent, n.kind, element⟩

end Registry

end Outline
