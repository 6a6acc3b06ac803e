import Outline.Proofs.Json.Reading
import Outline.Tree.Document

/-!
# Outline.Proofs.Tree.DocumentText

**A document is read back from its bytes.** `Document.read_render` is put together along the shape
of a document: attributes, payloads, nodes, and then the document itself. Attributes are inserted
one after another into a map that is kept sorted; since they are written in order, every one of them
is inserted at the end.

The reader holds parents to 32 bits, so the theorem asks this of the document.
-/

namespace Outline

open Json (Reads Gathers Value Reader)

/-! ### Attributes

### Attributes

Reading members of an object is gathering them one at a time, so the induction is over those that
are still to come, with those that are gathered already as the start. -/

/-- A key beyond all others is inserted at the end. -/
theorem Attributes.insertEntry_of_lt {key value : String} {es : List (String × String)}
    (h : ∀ e ∈ es, e.1 < key) : insertEntry key value es = es ++ [(key, value)] := by
  induction es with
  | nil => rfl
  | cons e es ih =>
      have he := h e List.mem_cons_self
      have hlt : ¬ key < e.1 := String.lt_asymm he
      have hne : ¬ key = e.1 := by
        intro heq
        rw [heq] at he
        exact String.lt_irrefl _ he
      rw [insertEntry, if_neg hlt, if_neg hne, ih fun x hx => h x (List.mem_cons_of_mem _ hx)]
      rfl

/-- Attributes are their entries, since the order is determined by them. -/
theorem Attributes.ext_entries {m m' : Attributes} (h : m.entries = m'.entries) : m = m' := by
  cases m
  cases m'
  cases h
  rfl

/-- Inserting one more attribute from the tokens. -/
def Attributes.readMember (m : Attributes) (key : String) : Reader Attributes := do
  return m.insert key (← Reader.text)

/-- Attributes are gathered in the order in which they are written. -/
theorem Attributes.gathers (m : Attributes) (es : List (String × String)) (done : Attributes)
    (h : m.entries = done.entries ++ es) :
    Gathers readMember done (es.map fun (k, v) => (k, .str v)) m := by
  induction es generalizing done with
  | nil =>
      rw [List.append_nil] at h
      rw [ext_entries h]
      exact .nil done
  | cons e es ih =>
      obtain ⟨key, value⟩ := e
      -- Keys are written in order, so this one is beyond all that are gathered already.
      have hsorted := m.sorted
      rw [h] at hsorted
      have hinsert : (done.insert key value).entries = done.entries ++ [(key, value)] :=
        insertEntry_of_lt fun x hx =>
          (List.pairwise_append.1 hsorted).2.2 x hx (key, value) List.mem_cons_self
      refine .cons ?_ (ih (done.insert key value) ?_)
      · exact (Reads.text value).last (Reads.pure _)
      · rw [hinsert, h, List.append_assoc]
        rfl

namespace Document

theorem reads_attributes (m : Attributes) :
    Reads readAttributes
      (Value.obj (m.entries.map fun (k, v) => (k, .str v))).tokens m := by
  refine Reads.next ?_
  exact Reads.members (m.gathers m.entries .empty rfl)

/-! ### Payloads

### Payloads

Empty attributes are not written at all. The reader puts the empty map in their place, so the
payload is the same in both cases. -/

theorem reads_once {α : Type} {value : Reader α} {ts : List Json.Token} {a : α}
    (h : Reads value ts a) : Reads (once none value) ts (some a) := by
  intro rest
  show (value (ts ++ rest)).bind _ = _
  rw [h]
  rfl

theorem gathers_payload (p : Payload) :
    Gathers readPayloadMember (none, none) p.members
      (some p.name, if p.attributes.isEmpty then none else some p.attributes) := by
  rw [Payload.members]
  refine .cons (r := (some p.name, none)) ?_ ?_
  · exact (reads_once (Reads.text p.name)).last (Reads.pure _)
  · split
    · exact .nil _
    · refine .cons ?_ (.nil _)
      exact (reads_once (reads_attributes p.attributes)).last (Reads.pure _)

theorem reads_payload (p : Payload) : Reads readPayload (Value.obj p.members).tokens p := by
  refine Reads.next (Reads.last (Reads.members (gathers_payload p)) ?_)
  have hattributes :
      (if p.attributes.isEmpty then none else some p.attributes).getD .empty = p.attributes := by
    split
    · rename_i hempty
      exact Attributes.ext_entries (List.isEmpty_iff.1 hempty).symm
    · rfl
  intro rest
  show Except.ok ((⟨p.name, _⟩ : Payload), rest) = _
  rw [hattributes]

/-! ### Nodes

### Nodes

A node is written with its parent or without, and gathered with all three members kept apart:
whether a member was missing is decided only when all are read. -/

theorem reads_kind (k : Kind) : Reads readKind [.string (.ok k.name) none] k := by
  intro rest
  show readKind.named k.name rest = _
  rw [readKind.named, Kind.ofName?_name]
  rfl

theorem reads_parent {p : Nat} (h : p < Nat.pow 2 32) :
    Reads (Reader.optional Reader.nat32) [.number (.ok (some p)) none] (some p) := by
  have hnumber : Reads (Reader.nat32 >>= fun n => return some n)
      [.number (.ok (some p)) none] (some p) := (Reads.nat32 h).last (Reads.pure (some p))
  intro rest
  exact hnumber rest

/-- The parents of a document fit 32 bits. -/
def Short (d : Document) : Prop := ∀ n ∈ d.nodes, ∀ p : Nat, n.parent = some p → p < Nat.pow 2 32

/-- What is gathered of a node; the root has nothing written of a parent. -/
theorem gathers_node (n : DocumentNode) (h : ∀ p : Nat, n.parent = some p → p < Nat.pow 2 32) :
    Gathers readNodeMember {} (("kind", .str n.kind.name) ::
        (n.parent.toList.map fun p => ("parent", Value.nat p)) ++
        [("payload", .obj n.payload.members)])
      ⟨some n.kind, n.parent.map some, some n.payload⟩ := by
  obtain ⟨kind, parent, payload⟩ := n
  have hkind : Reads (readNodeMember {} "kind") (Value.str kind.name).tokens
      ⟨some kind, none, none⟩ :=
    (reads_once (reads_kind kind)).last (Reads.pure _)
  have hpayload : ∀ o : Option (Option Nat), Reads (readNodeMember ⟨some kind, o, none⟩ "payload")
      (Value.obj payload.members).tokens ⟨some kind, o, some payload⟩ := by
    intro o
    exact (reads_once (reads_payload payload)).last (Reads.pure _)
  cases parent with
  | none => exact .cons hkind (.cons (hpayload none) (.nil _))
  | some p =>
      refine .cons hkind (.cons ?_ (.cons (hpayload (some (some p))) (.nil _)))
      exact (reads_once (reads_parent (h p rfl))).last (Reads.pure _)

theorem reads_node (n : DocumentNode) (h : ∀ p : Nat, n.parent = some p → p < Nat.pow 2 32) :
    Reads readNode (nodeValue n).tokens n := by
  refine Reads.next (Reads.last (Reads.members (gathers_node n h)) ?_)
  intro rest
  have hparent : (n.parent.map some).getD none = n.parent := by
    cases n.parent <;> rfl
  show Except.ok ((⟨n.kind, (n.parent.map some).getD none, n.payload⟩ : DocumentNode), rest) = _
  rw [hparent]

/-! ### Documents

### Documents

Beside being read, what is written has to be plain, that is without numbers that the tokens could
not hold; this is a second pass over the same shape. -/

theorem gathers_document {d : Document} (hformat : d.format < Nat.pow 2 32) (h : d.Short) :
    Gathers readMember {} [("format", .nat d.format), ("fingerprint", .str d.fingerprint),
      ("nodes", .arr (d.nodes.map nodeValue))]
      ⟨some d.format, some d.fingerprint, some d.nodes⟩ := by
  refine .cons (r := ⟨some d.format, none, none⟩) ?_
    (.cons (r := ⟨some d.format, some d.fingerprint, none⟩) ?_ (.cons ?_ (.nil _)))
  · exact (reads_once (Reads.nat32 hformat)).last (Reads.pure _)
  · exact (reads_once (Reads.text d.fingerprint)).last (Reads.pure _)
  · have hnodes := Reads.items (w := nodeValue) fun n hn => reads_node n (h n hn)
    exact (reads_once hnodes).last (Reads.pure _)

theorem reads_document {d : Document} (hformat : d.format < Nat.pow 2 32) (h : d.Short) :
    Reads readDocument d.toValue.tokens d :=
  Reads.next (Reads.last (Reads.members (gathers_document hformat h)) fun _ => rfl)

theorem plainMembers_attributes (es : List (String × String)) :
    Value.PlainMembers (es.map fun (k, v) => (k, .str v)) := by
  induction es with
  | nil => exact trivial
  | cons e es ih => exact ⟨trivial, ih⟩

theorem plain_nat {n : Nat} (h : n < Nat.pow 2 32) : (Value.nat n).Plain := by
  have hle : Nat.pow 2 32 ≤ Nat.pow 2 64 := by decide
  exact ⟨Int.natCast_nonneg n, Int.ofNat_lt.2 (Nat.lt_of_lt_of_le h hle)⟩

theorem plain_node {n : DocumentNode} (h : ∀ p : Nat, n.parent = some p → p < Nat.pow 2 32) :
    (nodeValue n).Plain := by
  obtain ⟨kind, parent, payload⟩ := n
  have hpayload : (Value.obj payload.members).Plain := by
    rw [Payload.members]
    split
    · exact ⟨trivial, trivial⟩
    · exact ⟨trivial, plainMembers_attributes _, trivial⟩
  cases parent with
  | none => exact ⟨trivial, hpayload, trivial⟩
  | some p => exact ⟨trivial, plain_nat (h p rfl), hpayload, trivial⟩

theorem plain_document {d : Document} (hformat : d.format < Nat.pow 2 32) (h : d.Short) :
    d.toValue.Plain :=
  ⟨plain_nat hformat, trivial, Value.plainItems_map fun n hn => plain_node (h n hn), trivial⟩

/-- A document is read back from its bytes. -/
theorem read_render {d : Document} (hformat : d.format < Nat.pow 2 32) (h : d.Short) :
    read d.render = .ok d :=
  Reads.run (plain_document hformat h) (reads_document hformat h)

end Document

end Outline
