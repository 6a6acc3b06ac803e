import Outline.Fingerprint
import Outline.Json.Reader
import Outline.Json.Value
import Outline.Tree.Basic

/-!
# The persisted form of a tree

A tree is persisted together with the fingerprint of the content it was built from. The form
has two layers:

* a `Document` lists the nodes in pre-order, each naming its parent by its position in that
  list; `Document.ofTree` and `Document.toTree` go between documents and trees, and
* `Document.render` and `Document.read` go between documents and bytes of JSON.

`encode` and `decode` are the two layers together. A document of another format version is told
apart from one that is damaged, since only the first is expected to occur.
-/

namespace Outline

/-- The version of the persisted form. -/
def formatVersion : Nat := 1

/-- One node of a document. -/
structure DocumentNode where
  kind : Kind
  /-- The position of the parent in the document. -/
  parent : Option Nat
  payload : Payload
deriving DecidableEq

/-- A persisted tree, not yet checked. -/
structure Document where
  format : Nat
  /-- The digits of the fingerprint. -/
  fingerprint : String
  nodes : List DocumentNode
deriving DecidableEq

/-- What makes a document of this version no tree. -/
inductive Damage where
  /-- The fingerprint does not have 64 hexadecimal digits. -/
  | badFingerprint (digits : String)
  /-- A node names a parent that does not stand before it. -/
  | lateParent (position parent : Nat)
  /-- A node cannot be attached. -/
  | badNode (position : Nat) (cause : BuildError)
  /-- The nodes make no tree. -/
  | noTree (cause : BuildError)
deriving DecidableEq, Repr

/-- The wording of a damage. -/
def Damage.message : Damage → String
  | badFingerprint digits => "bad fingerprint " ++ Text.quoted digits
  | lateParent position parent =>
      "node " ++ toString position ++ " names parent " ++ toString parent ++
        " which does not precede it"
  | badNode position cause => "node " ++ toString position ++ ": " ++ cause.message
  | noTree cause => cause.message

/-- Why bytes could not be read as a tree. -/
inductive DecodeError where
  /-- The bytes are no document. -/
  | format (fault : Json.Fault)
  /-- The document has another version. -/
  | version (found : Nat)
  /-- The document is damaged. -/
  | corrupt (damage : Damage)
deriving DecidableEq, Repr

/-- The wording of an error; of a text that is no document only the kind of its fault is
told. -/
def DecodeError.message : DecodeError → String
  | format .malformed => "persisted tree is not valid JSON: the text is malformed"
  | format .mismatched => "persisted tree is not valid JSON: the text has another shape"
  | format .truncated => "persisted tree is not valid JSON: the text is cut"
  | version found =>
      "persisted tree uses format " ++ toString found ++ ", expected " ++ toString formatVersion
  | corrupt damage => "persisted tree is corrupt: " ++ damage.message

namespace Document

/-! ### Documents and trees -/

/-- The position of each node in the pre-order of its tree. -/
def positions (t : Tree) : Array Nat :=
  t.preorder.zipIdx.foldl (fun ps (i, pos) => ps.setIfInBounds i pos)
    (Array.replicate t.size 0)

/-- The document of a tree that was built from a content with the given fingerprint. -/
def ofTree (t : Tree) (f : Fingerprint) : Document :=
  let ps := positions t
  { format := formatVersion
    fingerprint := f.toHex
    nodes := t.preorder.filterMap fun i =>
      (t.node? i).map fun n => ⟨n.kind, n.parent.map (ps.getD · 0), n.payload⟩ }

/-- Attach one more node of a document. -/
def attachNode (a : Arena) (n : DocumentNode) : Except Damage Arena :=
  match n.parent.filter (a.size ≤ ·) with
  | some p => .error (.lateParent a.size p)
  | none => match a.attach n.parent n.kind n.payload with
    | .ok a => .ok a
    | .error cause => .error (.badNode a.size cause)

/-- The fingerprint and the tree of a document. The version is looked at first, then the
fingerprint, then the nodes in their order. -/
def toTree (d : Document) : Except DecodeError (Fingerprint × Tree) :=
  if d.format ≠ formatVersion then .error (.version d.format)
  else match Fingerprint.ofHex? d.fingerprint with
    | none => .error (.corrupt (.badFingerprint d.fingerprint))
    | some f => match d.nodes.foldlM attachNode .empty with
      | .error damage => .error (.corrupt damage)
      | .ok a => match a.toTree with
        | .error cause => .error (.corrupt (.noTree cause))
        | .ok t => .ok (f, t)

end Document

/-! ### Documents and bytes -/

/-- A payload as JSON; an empty map of attributes is left out. -/
def Payload.members (p : Payload) : List (String × Json.Value) :=
  ("name", .str p.name) ::
    if p.attributes.isEmpty then []
    else [("attributes", .obj (p.attributes.entries.map fun (k, v) => (k, .str v)))]

namespace Document

open Json (Reader Value)

/-- A node as JSON; the root has no member for its parent. -/
def nodeValue (n : DocumentNode) : Value :=
  .obj (("kind", .str n.kind.name) ::
    (n.parent.toList.map fun p => ("parent", Value.nat p)) ++
    [("payload", .obj n.payload.members)])

/-- A document as JSON. -/
def toValue (d : Document) : Value :=
  .obj [("format", .nat d.format), ("fingerprint", .str d.fingerprint),
    ("nodes", .arr (d.nodes.map nodeValue))]

/-- The bytes of a document. -/
def render (d : Document) : List UInt8 :=
  d.toValue.compact.toUTF8.toList

/-- A kind, written as its name or as an object with the name as its only key. -/
def readKind : Reader Kind := do
  match ← Reader.next with
  | .string (.ok s) _ => named s
  | .string (.error f) _ => throw f
  | .openObject => do
    let kind ← named (← Reader.text)
    Reader.colon
    Reader.null
    Reader.closeObject
    return kind
  | _ => throw .malformed
where
  /-- The kind with the given name. -/
  named (s : String) : Reader Kind :=
    match Kind.ofName? s with
    | some k => return k
    | none => throw .mismatched

/-- Attributes; of a key that occurs again the last value counts. -/
def readAttributes : Reader Attributes := do
  match ← Reader.next with
  | .openObject => Reader.members (fun m key => return m.insert key (← Reader.text)) .empty
  | t => throw (Reader.mismatch t)

/-- A value that was not given before. -/
def once {α : Type} (before : Option α) (value : Reader α) : Reader (Option α) := do
  if before.isSome then throw .mismatched
  return some (← value)

/-- A value that has to be there. -/
def required {α : Type} : Option α → Reader α
  | some a => return a
  | none => throw .mismatched

/-- One more member of a payload. -/
def readPayloadMember (p : Option String × Option Attributes) (key : String) :
    Reader (Option String × Option Attributes) := do
  match key with
  | "name" => return (← once p.1 Reader.text, p.2)
  | "attributes" => return (p.1, ← once p.2 readAttributes)
  | _ =>
    Reader.passOver
    return p

/-- A payload, written as an object or as an array of its parts. -/
def readPayload : Reader Payload := do
  match ← Reader.next with
  | .openObject => do
    let (name, attributes) ← Reader.members readPayloadMember (none, none)
    return ⟨← required name, attributes.getD .empty⟩
  | .openArray => do
    let name ← Reader.field true Reader.text
    let attributes ← Reader.fieldOr .empty readAttributes
    Reader.closeArray
    return ⟨name, attributes⟩
  | t => throw (Reader.mismatch t)

/-- The parts of a node gathered so far. -/
structure NodeParts where
  kind : Option Kind := none
  parent : Option (Option Nat) := none
  payload : Option Payload := none

/-- One more member of a node. -/
def readNodeMember (n : NodeParts) (key : String) : Reader NodeParts := do
  match key with
  | "kind" => return { n with kind := ← once n.kind readKind }
  | "parent" => return { n with parent := ← once n.parent (Reader.optional Reader.nat32) }
  | "payload" => return { n with payload := ← once n.payload readPayload }
  | _ =>
    Reader.passOver
    return n

/-- A node, written as an object or as an array of its parts. -/
def readNode : Reader DocumentNode := do
  match ← Reader.next with
  | .openObject => do
    let n ← Reader.members readNodeMember {}
    return ⟨← required n.kind, n.parent.getD none, ← required n.payload⟩
  | .openArray => do
    let kind ← Reader.field true readKind
    let parent ← Reader.fieldOr none (Reader.optional Reader.nat32)
    let payload ← Reader.field false readPayload
    Reader.closeArray
    return ⟨kind, parent, payload⟩
  | t => throw (Reader.mismatch t)

/-- The parts of a document gathered so far. -/
structure Parts where
  format : Option Nat := none
  fingerprint : Option String := none
  nodes : Option (List DocumentNode) := none

/-- One more member of a document. -/
def readMember (d : Parts) (key : String) : Reader Parts := do
  match key with
  | "format" => return { d with format := ← once d.format Reader.nat32 }
  | "fingerprint" => return { d with fingerprint := ← once d.fingerprint Reader.text }
  | "nodes" => return { d with nodes := ← once d.nodes (Reader.items readNode) }
  | _ =>
    Reader.passOver
    return d

/-- A document, written as an object or as an array of its parts. -/
def readDocument : Reader Document := do
  match ← Reader.next with
  | .openObject => do
    let d ← Reader.members readMember {}
    return ⟨← required d.format, ← required d.fingerprint, ← required d.nodes⟩
  | .openArray => do
    let format ← Reader.field true Reader.nat32
    let fingerprint ← Reader.field false Reader.text
    let nodes ← Reader.field false (Reader.items readNode)
    Reader.closeArray
    return ⟨format, fingerprint, nodes⟩
  | t => throw (Reader.mismatch t)

/-- The document that the bytes are written for. -/
def read (bs : List UInt8) : Except Json.Fault Document :=
  Reader.run readDocument bs

end Document

namespace Tree

/-- The bytes of a tree and the fingerprint of its content. -/
def encode (t : Tree) (f : Fingerprint) : List UInt8 :=
  (Document.ofTree t f).render

/-- The fingerprint and the tree that the bytes are written for. -/
def decode (bs : List UInt8) : Except DecodeError (Fingerprint × Tree) :=
  match Document.read bs with
  | .error fault => .error (.format fault)
  | .ok d => d.toTree

end Tree

end Outline
