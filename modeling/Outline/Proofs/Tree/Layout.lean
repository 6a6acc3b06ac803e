import Outline.Proofs.Json.Layouts
import Outline.Tree.Document

/-!
# Outline.Proofs.Tree.Layout

**What is read of any JSON text as a document.** `Document.document?` tells by the form of a text
which document it is laid out for, if for any, part by part (`kind?`, `attributes?`, `payload?`,
`node?`); reading comes to just this (`Document.read_form`). Members may stand in any order and with
others between them; those that are known may be given once.

The functions that tell (`kind?`, `payload?`, …) have no tokens, no position and no faults: they say
for a whole form what the readers find out from left to right. Each has one lemma `meets_…` for its
reader, by cases on the form, in the order in which the parts are made of each other.
-/

namespace Outline

open Json (Form Meets Reader Value)
open Json.Form

namespace Document

/-! ### The layout

An object and an array of the same parts are two layouts of one thing, as derived readers have it.
In an object members are looked up by their keys, so the definitions do not say in which order they
stand; in an array they have their places. -/

/-- Under the name of a kind in an object stands `null`, and nothing more behind it. -/
def alone? (kind : Kind) : Form → Members → Option Kind
  | .null, [] => some kind
  | _, _ => none

/-- A kind, as its name or as the only key of an object. -/
def kind? : Form → Option Kind
  | .string (.ok s) => Kind.ofName? s
  | .obj ((.ok s, f) :: ms) => (Kind.ofName? s).bind fun kind => alone? kind f ms
  | _ => none

/-- One more attribute, which is a text. -/
def insert? (m : Attributes) (e : String × Form) : Option Attributes :=
  e.2.text?.map (m.insert e.1)

/-- Attributes; of a key that occurs again the last value counts. -/
def attributes? : Form → Option Attributes
  | .obj ms => gather? insert? .empty ms
  | _ => none

/-- A payload, as an object or as an array of its parts. -/
def payload? : Form → Option Payload
  | .obj ms => do
    let ms ← keyed? ms
    let name ← only? "name" text? ms
    let attributes ← only? "attributes" attributes? ms
    return ⟨← name, attributes.getD .empty⟩
  | .arr fs =>
    part? text? (fun name => partOr? .empty attributes? fun attributes =>
      close? ⟨name, attributes⟩) fs
  | _ => none

/-- The position of a parent, or none. -/
def parent? : Form → Option (Option Nat) := optional? nat32?

/-- A node, as an object or as an array of its parts. -/
def node? : Form → Option DocumentNode
  | .obj ms => do
    let ms ← keyed? ms
    let kind ← only? "kind" kind? ms
    let parent ← only? "parent" parent? ms
    let payload ← only? "payload" payload? ms
    return ⟨← kind, parent.getD none, ← payload⟩
  | .arr fs =>
    part? kind? (fun kind => partOr? none parent? fun parent => part? payload? fun payload =>
      close? ⟨kind, parent, payload⟩) fs
  | _ => none

/-- The nodes of a document. -/
def nodes? : Form → Option (List DocumentNode) := items? node?

/-- A document, as an object or as an array of its parts. -/
def document? : Form → Option Document
  | .obj ms => do
    let ms ← keyed? ms
    let format ← only? "format" nat32? ms
    let digits ← only? "fingerprint" text? ms
    let nodes ← only? "nodes" nodes? ms
    return ⟨← format, ← digits, ← nodes⟩
  | .arr fs =>
    part? nat32? (fun format => part? text? fun digits => part? nodes? fun nodes =>
      close? ⟨format, digits, nodes⟩) fs
  | _ => none

/-! ### Reading comes to the layout

A reader of members keeps, for each key, what was given under it so far. `once` refuses a second
value and `fill` says so of the form. -/

section

variable {α : Type} {value : Reader α} {read : Form → Option α}

theorem meets_required (o : Option α) : Meets (required o) [] o := by
  cases o with
  | some a => exact .pure a
  | none => exact .throw _ _

/-- A member that may be given once is filled in as the form says. -/
theorem meets_once (h : ∀ f, Meets value f.tokens (read f)) (before : Option α) (key : String)
    (f : Form) : Meets (once before value) f.tokens (fill key read before (key, f)) := by
  rw [fill, if_pos rfl]
  cases before with
  | some a => exact .throw _ _
  | none => exact (h f).map some

end

/-- Behind the name of a kind in an object comes `null` and the end; any other form fails at its
first token. -/
theorem meets_alone (kind : Kind) (f : Form) (ms : Members) :
    Meets (do Reader.colon; Reader.null; Reader.closeObject; return kind)
      (.colon :: f.tokens ++ memberTokens false ms ++ [.closeObject]) (alone? kind f ms) := by
  cases f with
  | null => cases ms with
    | nil => exact fun _ => rfl
    | cons m ms => exact fun _ => ⟨_, rfl⟩
  | number read => cases read <;> exact fun _ => ⟨_, rfl⟩
  | string read => cases read <;> exact fun _ => ⟨_, rfl⟩
  | _ => exact fun _ => ⟨_, rfl⟩

theorem meets_kind (f : Form) : Meets readKind f.tokens (kind? f) := by
  -- the name is looked up alike whether it stands alone or as a key
  have hnamed : ∀ s, Meets (readKind.named s) [] (Kind.ofName? s) := by
    intro s
    rw [readKind.named]
    cases Kind.ofName? s with
    | some k => exact .pure k
    | none => exact .throw _ _
  cases f with
  | string read => cases read with
    | ok s => exact .next (hnamed s)
    | error e => exact .next (.throw _ _)
  -- the empty object has no key to look up, and a key may have a fault of its own
  | obj ms => cases ms with
    | nil => exact fun _ => ⟨_, rfl⟩
    | cons m ms =>
        obtain ⟨k, f⟩ := m
        cases k with
        | error e => exact fun _ => ⟨_, rfl⟩
        | ok s =>
            have hname : Meets Reader.text [.string (.ok s) none] (some s) := Json.Reads.text s
            exact .next (hname.bind fun s =>
              (hnamed s).bind fun kind => meets_alone kind f ms)
  | _ => exact .next (.throw _ _)

theorem meets_attributes (f : Form) : Meets readAttributes f.tokens (attributes? f) := by
  cases f with
  | obj ms =>
      have hmember : ∀ (m : Attributes) (k : String) (f : Form),
          Meets (do return m.insert k (← Reader.text)) f.tokens (insert? m (k, f)) :=
        fun m k f => (meets_text f).map (m.insert k)
      exact .next (meets_members hmember ms .empty)
  | _ => exact .next (.throw _ _)

theorem meets_parent (f : Form) : Meets (Reader.optional Reader.nat32) f.tokens (parent? f) :=
  meets_optional meets_nat32 f

/-! ### Payloads

The reader goes through the members once and fills in two parts on the way; the layout looks through
them once for each part. That this is the same is `payload?_obj`, and nodes and documents have the
same lemma for their three parts. -/

/-- One more member of a payload. -/
def payloadMember? : Option String × Option Attributes → String × Form →
    Option (Option String × Option Attributes) :=
  Json.both (fill "name" text?) (fill "attributes" attributes?)

theorem meets_payloadMember (p : Option String × Option Attributes) (k : String) (f : Form) :
    Meets (readPayloadMember p k) f.tokens (payloadMember? p (k, f)) := by
  unfold readPayloadMember payloadMember? Json.both
  split
  · rw [fill_of_ne (show "name" ≠ "attributes" by decide)]
    exact (meets_once meets_text p.1 "name" f).last fun name => .pure (name, p.2)
  · rw [fill_of_ne (show "attributes" ≠ "name" by decide)]
    exact (meets_once meets_attributes p.2 "attributes" f).map fun attributes => (p.1, attributes)
  -- a member of any other key is passed over, whatever its value
  · rename_i hname hattributes
    rw [fill_of_ne hname, fill_of_ne hattributes]
    exact Meets.last (r := some ()) f.reads_passOver fun _ => .pure p

/-- To look for the name and then for the attributes is to gather both in one pass. -/
theorem payload?_obj (ms : Members) :
    payload? (.obj ms) = (gather? payloadMember? (none, none) ms).bind fun p =>
      p.1.map fun name => ⟨name, p.2.getD .empty⟩ := by
  have hgather : ∀ ks : List (String × Form), ks.foldlM payloadMember? (none, none) =
      (only? "name" text? ks).bind fun name =>
        (only? "attributes" attributes? ks).map fun attributes => (name, attributes) := by
    -- two passes over the same members are one pass over pairs
    intro ks
    rw [← foldlM_fill, ← foldlM_fill]
    exact Json.foldlM_both ks none none
  rw [payload?, gather?]
  simp only [Option.bind_eq_bind, Option.pure_def, Option.bind_assoc, hgather, Option.map_eq_bind,
    Option.bind_some, Function.comp_def]

theorem meets_payload (f : Form) : Meets readPayload f.tokens (payload? f) := by
  cases f with
  | obj ms =>
      have hparts : ∀ p : Option String × Option Attributes,
          Meets (do return ⟨← required p.1, p.2.getD .empty⟩) []
            (p.1.map fun name => (⟨name, p.2.getD .empty⟩ : Payload)) :=
        fun p => (meets_required p.1).map _
      rw [payload?_obj]
      exact .next ((meets_members meets_payloadMember ms (none, none)).last hparts)
  | arr fs =>
      exact .next (meets_part meets_text (fun name =>
        meets_partOr meets_attributes fun attributes =>
          meets_close (Payload.mk name attributes)) fs)
  | _ => exact .next (.throw _ _)

/-! ### Nodes

As for payloads, with three parts. -/

/-- One more member of a node. -/
def nodeMember? (n : NodeParts) (m : String × Form) : Option NodeParts :=
  (fill "kind" kind? n.kind m).bind fun kind =>
    (fill "parent" parent? n.parent m).bind fun parent =>
      (fill "payload" payload? n.payload m).map fun payload => ⟨kind, parent, payload⟩

theorem meets_nodeMember (n : NodeParts) (k : String) (f : Form) :
    Meets (readNodeMember n k) f.tokens (nodeMember? n (k, f)) := by
  unfold readNodeMember nodeMember?
  split
  · rw [fill_of_ne (show "kind" ≠ "parent" by decide),
      fill_of_ne (show "kind" ≠ "payload" by decide)]
    exact (meets_once meets_kind n.kind "kind" f).last fun kind =>
      .pure (NodeParts.mk kind n.parent n.payload)
  · rw [fill_of_ne (show "parent" ≠ "kind" by decide),
      fill_of_ne (show "parent" ≠ "payload" by decide)]
    exact (meets_once meets_parent n.parent "parent" f).last fun parent =>
      .pure (NodeParts.mk n.kind parent n.payload)
  · rw [fill_of_ne (show "payload" ≠ "kind" by decide),
      fill_of_ne (show "payload" ≠ "parent" by decide)]
    exact (meets_once meets_payload n.payload "payload" f).map fun payload =>
      NodeParts.mk n.kind n.parent payload
  -- a member that is none of the three is passed over
  · rename_i hkind hparent hpayload
    rw [fill_of_ne hkind, fill_of_ne hparent, fill_of_ne hpayload]
    exact Meets.last (r := some ()) f.reads_passOver fun _ => .pure n

/-- To look for the three parts of a node one after another is to gather them in one pass. -/
theorem node?_obj (ms : Members) :
    node? (.obj ms) = (gather? nodeMember? {} ms).bind fun n =>
      n.kind.bind fun kind => n.payload.map fun payload => ⟨kind, n.parent.getD none, payload⟩ := by
  have hgather : ∀ ks : List (String × Form), ks.foldlM nodeMember? {} =
      (only? "kind" kind? ks).bind fun kind => (only? "parent" parent? ks).bind fun parent =>
        (only? "payload" payload? ks).map fun payload => ⟨kind, parent, payload⟩ := by
    intro ks
    rw [← foldlM_fill, ← foldlM_fill, ← foldlM_fill]
    exact Json.foldlM_triple (fun _ _ _ _ => rfl) ks none none none
  rw [node?, gather?]
  simp only [Option.bind_eq_bind, Option.pure_def, Option.bind_assoc, hgather, Option.map_eq_bind,
    Option.bind_some, Function.comp_def]

theorem meets_node (f : Form) : Meets readNode f.tokens (node? f) := by
  cases f with
  | obj ms =>
      -- a parent may be missing, a kind and a payload may not
      have hparts : ∀ n : NodeParts,
          Meets (do return ⟨← required n.kind, n.parent.getD none, ← required n.payload⟩) []
            (n.kind.bind fun kind => n.payload.map fun payload =>
              (⟨kind, n.parent.getD none, payload⟩ : DocumentNode)) :=
        fun n => (meets_required n.kind).bind fun kind => (meets_required n.payload).map _
      rw [node?_obj]
      exact .next ((meets_members meets_nodeMember ms {}).last hparts)
  | arr fs =>
      exact .next (meets_part meets_kind (fun kind =>
        meets_partOr meets_parent fun parent =>
          meets_part meets_payload fun payload =>
            meets_close (DocumentNode.mk kind parent payload)) fs)
  | _ => exact .next (.throw _ _)

/-! ### Documents

As for nodes. What is proved of the reader from here on is proved of `document?`: these are the last
lemmas that look at tokens. -/

theorem meets_nodes (f : Form) : Meets (Reader.items readNode) f.tokens (nodes? f) :=
  meets_items meets_node f

/-- One more member of a document. -/
def member? (d : Parts) (m : String × Form) : Option Parts :=
  (fill "format" nat32? d.format m).bind fun format =>
    (fill "fingerprint" text? d.fingerprint m).bind fun digits =>
      (fill "nodes" nodes? d.nodes m).map fun nodes => ⟨format, digits, nodes⟩

theorem meets_member (d : Parts) (k : String) (f : Form) :
    Meets (readMember d k) f.tokens (member? d (k, f)) := by
  unfold readMember member?
  split
  · rw [fill_of_ne (show "format" ≠ "fingerprint" by decide),
      fill_of_ne (show "format" ≠ "nodes" by decide)]
    exact (meets_once meets_nat32 d.format "format" f).last fun format =>
      .pure (Parts.mk format d.fingerprint d.nodes)
  · rw [fill_of_ne (show "fingerprint" ≠ "format" by decide),
      fill_of_ne (show "fingerprint" ≠ "nodes" by decide)]
    exact (meets_once meets_text d.fingerprint "fingerprint" f).last fun digits =>
      .pure (Parts.mk d.format digits d.nodes)
  · rw [fill_of_ne (show "nodes" ≠ "format" by decide),
      fill_of_ne (show "nodes" ≠ "fingerprint" by decide)]
    exact (meets_once meets_nodes d.nodes "nodes" f).map fun nodes =>
      Parts.mk d.format d.fingerprint nodes
  -- a member that is none of the three is passed over
  · rename_i hformat hdigits hnodes
    rw [fill_of_ne hformat, fill_of_ne hdigits, fill_of_ne hnodes]
    exact Meets.last (r := some ()) f.reads_passOver fun _ => .pure d

/-- To look for the three parts of a document one after another is to gather them in one pass. -/
theorem document?_obj (ms : Members) :
    document? (.obj ms) = (gather? member? {} ms).bind fun d =>
      d.format.bind fun format => d.fingerprint.bind fun digits =>
        d.nodes.map fun nodes => ⟨format, digits, nodes⟩ := by
  have hgather : ∀ ks : List (String × Form), ks.foldlM member? {} =
      (only? "format" nat32? ks).bind fun format =>
        (only? "fingerprint" text? ks).bind fun digits =>
          (only? "nodes" nodes? ks).map fun nodes => ⟨format, digits, nodes⟩ := by
    intro ks
    rw [← foldlM_fill, ← foldlM_fill, ← foldlM_fill]
    exact Json.foldlM_triple (fun _ _ _ _ => rfl) ks none none none
  rw [document?, gather?]
  simp only [Option.bind_eq_bind, Option.pure_def, Option.bind_assoc, hgather, Option.map_eq_bind,
    Option.bind_some, Function.comp_def]

theorem meets_document (f : Form) : Meets readDocument f.tokens (document? f) := by
  cases f with
  | obj ms =>
      -- no part of a document may be missing
      have hparts : ∀ d : Parts,
          Meets (do return ⟨← required d.format, ← required d.fingerprint, ← required d.nodes⟩) []
            (d.format.bind fun format => d.fingerprint.bind fun digits =>
              d.nodes.map fun nodes => (⟨format, digits, nodes⟩ : Document)) :=
        fun d => (meets_required d.format).bind fun format =>
          (meets_required d.fingerprint).bind fun digits => (meets_required d.nodes).map _
      rw [document?_obj]
      exact .next ((meets_members meets_member ms {}).last hparts)
  | arr fs =>
      exact .next (meets_part meets_nat32 (fun format =>
        meets_part meets_text fun digits =>
          meets_part meets_nodes fun nodes =>
            meets_close (Document.mk format digits nodes)) fs)
  | _ => exact .next (.throw _ _)

/-- Bytes that are a form are read as the document that the form is laid out for, -/
theorem read_form {bytes : List UInt8} {f : Form} {d : Document}
    (h : Json.tokens bytes = f.tokens) (hd : document? f = some d) : read bytes = .ok d :=
  Meets.run (hd ▸ meets_document f) h

/-- and are no document if there is none. -/
theorem read_form_none {bytes : List UInt8} {f : Form}
    (h : Json.tokens bytes = f.tokens) (hd : document? f = none) :
    ∃ fault, read bytes = .error fault :=
  Meets.run_none (hd ▸ meets_document f) h

end Document

end Outline
