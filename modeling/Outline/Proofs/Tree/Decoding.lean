import Mathlib.Data.Nat.Find
import Outline.Proofs.Tree.RoundTrip

/-!
# Outline.Proofs.Tree.Decoding

**Which documents are read as trees.** A document of this version is read as a tree exactly if it
is `Document.Sound`: its fingerprint has 64 digits, there are nodes, and every node fits behind
those in front of it. If it is not sound, the first thing that is wrong is what the reader reports
(`Document.Damaged`). A tree that is read has the nodes of its document under their positions,
whatever their order (`Tree.decode_exact`).

What the reader checks of a parent and what attaching checks overlap; `DocumentNode.Damaged` says
which of the two speaks first.

Each layer has the same three parts: when it succeeds, what is wrong otherwise, and that the two do
not overlap. With all three an error can be read backwards: who sees it knows what the document was
like.
-/

namespace Outline

/-! ### The digits of a fingerprint

A fingerprint is read from pairs of digits, so the text must have an even length besides digits
only. The induction goes along the reader, two characters at a time. -/

namespace Text

/-- A hexadecimal digit in either case. -/
def IsHexDigit (c : Char) : Prop :=
  '0' ≤ c ∧ c ≤ '9' ∨ 'a' ≤ c ∧ c ≤ 'f' ∨ 'A' ≤ c ∧ c ≤ 'F'

theorem exists_hexValue?_iff (c : Char) : (∃ v, hexValue? c = some v) ↔ IsHexDigit c := by
  unfold hexValue? IsHexDigit
  simp only [Bool.and_eq_true, decide_eq_true_eq]
  split
  · rename_i h
    exact iff_of_true ⟨_, rfl⟩ (.inl h)
  · rename_i hdigit
    rw [or_iff_right hdigit]
    split
    · rename_i h
      exact iff_of_true ⟨_, rfl⟩ (.inl h)
    · rename_i hlower
      rw [or_iff_right hlower]
      split
      · rename_i h
        exact iff_of_true ⟨_, rfl⟩ h
      · rename_i hupper
        exact iff_of_false (fun ⟨v, hv⟩ => nomatch hv) hupper

/-- Two digits for each byte, and nothing else, are read as bytes. -/
theorem exists_bytesOfHex?_iff (cs : List Char) (n : Nat) :
    (∃ bs, bytesOfHex? cs = some bs ∧ bs.length = n) ↔
      cs.length = 2 * n ∧ ∀ c ∈ cs, IsHexDigit c := by
  fun_induction bytesOfHex? cs generalizing n with
  | case1 =>
      constructor
      · rintro ⟨bs, hbs, rfl⟩
        cases hbs
        exact ⟨rfl, fun c hc => nomatch hc⟩
      · rintro ⟨hn, -⟩
        have hn : 0 = 2 * n := hn
        exact ⟨[], rfl, by omega⟩
  | case2 hi lo r ih =>
      constructor
      · rintro ⟨bs, hbs, rfl⟩
        obtain ⟨h, hh, hbs⟩ := Option.bind_eq_some_iff.1 hbs
        obtain ⟨l, hl, hbs⟩ := Option.bind_eq_some_iff.1 hbs
        obtain ⟨rest, hrest, hbs⟩ := Option.bind_eq_some_iff.1 hbs
        cases hbs
        obtain ⟨hlength, hdigits⟩ := (ih rest.length).1 ⟨rest, hrest, rfl⟩
        refine ⟨by simp only [List.length_cons, hlength]; omega, ?_⟩
        simp only [List.forall_mem_cons]
        exact ⟨(exists_hexValue?_iff hi).1 ⟨h, hh⟩, (exists_hexValue?_iff lo).1 ⟨l, hl⟩, hdigits⟩
      · rintro ⟨hlength, hdigits⟩
        simp only [List.forall_mem_cons] at hdigits
        obtain ⟨hhi, hlo, hdigits⟩ := hdigits
        obtain ⟨h, hh⟩ := (exists_hexValue?_iff hi).2 hhi
        obtain ⟨l, hl⟩ := (exists_hexValue?_iff lo).2 hlo
        simp only [List.length_cons] at hlength
        obtain ⟨rest, hrest, hn⟩ := (ih (n - 1)).2 ⟨by omega, hdigits⟩
        refine ⟨UInt8.ofNat (16 * h + l) :: rest, ?_, by simp only [List.length_cons]; omega⟩
        rw [hh, hl, hrest]
        rfl
  -- one character is left over, and no number of pairs has an odd length
  | case3 c =>
      refine iff_of_false (fun ⟨bs, hbs, _⟩ => nomatch hbs) fun ⟨hlength, _⟩ => ?_
      have hlength : 1 = 2 * n := hlength
      omega

end Text

/-- A text of 64 hexadecimal digits. -/
structure Fingerprint.Digits (s : String) : Prop where
  length : s.toList.length = 64
  digits : ∀ c ∈ s.toList, Text.IsHexDigit c

/-- These texts, and no others, are read as fingerprints. -/
theorem Fingerprint.exists_ofHex?_iff (s : String) :
    (∃ f, ofHex? s = some f) ↔ Digits s := by
  have hbytes : (∃ f, ofHex? s = some f) ↔
      ∃ bs, Text.bytesOfHex? s.toList = some bs ∧ bs.length = 32 := by
    unfold ofHex?
    cases Text.bytesOfHex? s.toList with
    | none => exact iff_of_false (fun ⟨f, hf⟩ => nomatch hf) fun ⟨bs, hbs, _⟩ => nomatch hbs
    | some bs =>
        by_cases hlength : bs.length = 32
        · exact iff_of_true ⟨_, dif_pos hlength⟩ ⟨bs, rfl, hlength⟩
        · refine iff_of_false (fun ⟨f, hf⟩ => ?_) fun ⟨bs', hbs, h⟩ =>
            hlength (Option.some.inj hbs ▸ h)
          dsimp only at hf
          rw [dif_neg hlength] at hf
          cases hf
  rw [hbytes, Text.exists_bytesOfHex?_iff]
  exact ⟨fun ⟨hlength, hdigits⟩ => ⟨hlength, hdigits⟩, fun h => ⟨h.length, h.digits⟩⟩

/-! ### Nodes of a document

That a node fits was said where trees are read back (`DocumentNode.Fits`). Here its negation is
taken apart, in the order in which the code looks: of several faults the first one is told. -/

/-- What is wrong with a node of a document at a position. A parent that does not stand before the
node counts first, then the payload, and last that there is no parent at all. -/
inductive DocumentNode.Damaged (r : DocumentNode) (i : Nat) : Damage → Prop where
  | late {p : Nat} (hp : r.parent = some p) (h : i ≤ p) : r.Damaged i (.lateParent i p)
  | payload {fault : PayloadFault} (hp : ∀ p : Nat, r.parent = some p → p < i)
      (h : r.payload.fault? = some fault) : r.Damaged i (.badNode i (.malformedPayload fault))
  | root (hp : r.parent = none) (hi : i ≠ 0) (h : r.payload.fault? = none) :
      r.Damaged i (.badNode i (.secondRoot i))

namespace DocumentNode

variable {r : DocumentNode} {i : Nat} {damage : Damage}

theorem Damaged.not_fits (h : r.Damaged i damage) : ¬ r.Fits i := by
  intro hf
  cases h with
  | late hp hle => exact absurd (hf.parent _ hp) (Nat.not_lt.2 hle)
  | payload hp hfault =>
      rw [hf.payload] at hfault
      cases hfault
  | root hp hi hfault => exact hi (hf.root hp)

/-- A node fits, or something is wrong with it. -/
theorem exists_damaged (h : ¬ r.Fits i) : ∃ damage, r.Damaged i damage := by
  -- a parent can be late; if there is none, it depends on the place whether one is needed
  cases hparent : r.parent with
  | some p =>
      by_cases hp : i ≤ p
      · exact ⟨_, .late hparent hp⟩
      · have hbefore : ∀ q : Nat, r.parent = some q → q < i := fun q hq =>
          Nat.not_le.1 (Option.some.inj (hparent.symm.trans hq) ▸ hp)
        cases hfault : r.payload.fault? with
        | some fault => exact ⟨_, .payload hbefore hfault⟩
        | none =>
            refine absurd ⟨hfault, fun hnone => ?_, hbefore⟩ h
            rw [hparent] at hnone
            cases hnone
  | none =>
      have hbefore : ∀ q : Nat, r.parent = some q → q < i := fun q hq => by
        rw [hparent] at hq
        cases hq
      cases hfault : r.payload.fault? with
      | some fault => exact ⟨_, .payload hbefore hfault⟩
      | none =>
          by_cases hi : i = 0
          · exact absurd ⟨hfault, fun _ => hi, hbefore⟩ h
          · exact ⟨_, .root hparent hi hfault⟩

/-- What is told of a node begins with its position. -/
theorem Damaged.message (h : r.Damaged i damage) :
    ∃ rest, damage.message = "node " ++ toString i ++ rest := by
  have hbad : ∀ cause, ∃ rest, (Damage.badNode i cause).message = "node " ++ toString i ++ rest :=
    fun cause => ⟨": " ++ cause.message, String.append_assoc⟩
  cases h with
  | @late p =>
      refine ⟨" names parent " ++ (toString p ++ " which does not precede it"), ?_⟩
      exact String.append_assoc.trans String.append_assoc
  | _ => exact hbad _

end DocumentNode

/-! ### Documents

A document is read in one pass. The fold stops at the first node that does not fit, and up to there
it has attached all: so the number of nodes attached is the position that the message names. -/

namespace Document

variable {d : Document} {damage : Damage}

/-- What has to hold of a document of this version that makes a tree. -/
structure Sound (d : Document) : Prop where
  digits : Fingerprint.Digits d.fingerprint
  nonempty : d.nodes ≠ []
  /-- The first node has no parent, every other one a parent in front of it, and no payload has a
  fault. -/
  nodes : ∀ (i : Nat) (r : DocumentNode), d.nodes[i]? = some r → r.Fits i

/-- The first thing that is wrong with a document: its fingerprint, or a node behind nodes that fit,
or that there are no nodes. -/
inductive Damaged (d : Document) : Damage → Prop where
  | fingerprint (h : ¬ Fingerprint.Digits d.fingerprint) :
      d.Damaged (.badFingerprint d.fingerprint)
  | node (hdigits : Fingerprint.Digits d.fingerprint) {i : Nat} {r : DocumentNode} {damage : Damage}
      (hr : d.nodes[i]? = some r) (h : r.Damaged i damage)
      (hbefore : ∀ j s, j < i → d.nodes[j]? = some s → s.Fits j) : d.Damaged damage
  | empty (hdigits : Fingerprint.Digits d.fingerprint) (h : d.nodes = []) :
      d.Damaged (.noTree .empty)

theorem attachNode_of_damaged {a : Arena} {r : DocumentNode} (h : r.Damaged a.size damage) :
    attachNode a r = .error damage := by
  unfold attachNode
  cases h with
  | late hp hle =>
      rw [hp, Option.filter_some, if_pos (decide_eq_true hle)]
  -- the parent stands in front, so that the payload is looked at next
  | payload hp hfault =>
      have hlate : r.parent.filter (a.size ≤ ·) = none :=
        Option.filter_eq_none_iff.2 fun p hpp => by simpa using hp p hpp
      rw [hlate, Arena.attach_of_fault hfault]
  | root hp hi hfault =>
      rw [hp, Option.filter_none, Arena.attach_of_second_root hfault hi]

/-- Nodes are attached up to the first with which something is wrong. -/
theorem foldlM_attachNode_of_damaged {rows : List DocumentNode} {a : Arena} {i : Nat}
    {r : DocumentNode} (hr : rows[i]? = some r) (h : r.Damaged (a.size + i) damage)
    (hbefore : ∀ j s, j < i → rows[j]? = some s → s.Fits (a.size + j)) :
    rows.foldlM attachNode a = .error damage := by
  induction rows generalizing a i with
  | nil => cases hr
  | cons s rows ih =>
      cases i with
      | zero =>
          cases hr
          rw [List.foldlM_cons, attachNode_of_damaged h]
          rfl
      -- the first node fits and is attached; the damaged one is one place nearer
      | succ i =>
          obtain ⟨b, hb, hrows⟩ := attachNode_of_fits (hbefore 0 s (Nat.succ_pos i) rfl)
          have hsize : b.size = a.size + 1 := by
            rw [← b.length_rows, hrows, List.length_append, a.length_rows]
            rfl
          have hshift : ∀ j, b.size + j = a.size + (j + 1) := by omega
          rw [List.foldlM_cons, hb]
          refine ih hr (hshift i ▸ h) fun j u hj hu => ?_
          rw [hshift]
          exact hbefore (j + 1) u (Nat.succ_lt_succ hj) hu

/-- The reader reports the first thing that is wrong. -/
theorem toTree_of_damaged (hformat : d.format = formatVersion) (h : d.Damaged damage) :
    d.toTree = .error (.corrupt damage) := by
  rw [toTree, if_neg (not_not_intro hformat)]
  cases h with
  | fingerprint h =>
      rw [Option.eq_none_iff_forall_ne_some.2 fun f hf =>
        h ((Fingerprint.exists_ofHex?_iff _).1 ⟨f, hf⟩)]
  | node hdigits hr h hbefore =>
      obtain ⟨f, hf⟩ := (Fingerprint.exists_ofHex?_iff _).2 hdigits
      have hfold := foldlM_attachNode_of_damaged (a := .empty) hr
        (by rwa [show Arena.empty.size = 0 from rfl, Nat.zero_add])
        (fun j s hj hs => by
          rw [show Arena.empty.size = 0 from rfl, Nat.zero_add]
          exact hbefore j s hj hs)
      rw [hf, hfold]
  | empty hdigits h =>
      obtain ⟨f, hf⟩ := (Fingerprint.exists_ofHex?_iff _).2 hdigits
      rw [hf, h]
      rfl

/-- A sound document is read as a tree with its rows. -/
theorem toTree_of_sound (hformat : d.format = formatVersion) (h : d.Sound) :
    ∃ f t, d.toTree = .ok (f, t) ∧ Fingerprint.ofHex? d.fingerprint = some f ∧
      t.rows = d.nodes := by
  obtain ⟨f, hf⟩ := (Fingerprint.exists_ofHex?_iff _).2 h.digits
  obtain ⟨t, ht, hrows⟩ := toTree_of_fits hformat hf (List.length_pos_iff.2 h.nonempty) h.nodes
  exact ⟨f, t, ht, hf, hrows⟩

/-- A document makes a tree, or something is the first that is wrong with it. -/
theorem exists_damaged (h : ¬ d.Sound) : ∃ damage, d.Damaged damage := by
  by_cases hdigits : Fingerprint.Digits d.fingerprint
  · by_cases hnodes : ∃ (i : Nat) (r : DocumentNode), d.nodes[i]? = some r ∧ ¬ r.Fits i
    -- of the nodes that do not fit the first is taken, so those before it do
    · classical
      obtain ⟨r, hr, hfits⟩ := Nat.find_spec hnodes
      obtain ⟨damage, hdamage⟩ := DocumentNode.exists_damaged hfits
      refine ⟨damage, .node hdigits hr hdamage fun j s hj hs => ?_⟩
      exact Decidable.byContradiction fun hnot => Nat.find_min hnodes hj ⟨s, hs, hnot⟩
    · refine ⟨_, .empty hdigits (Classical.byContradiction fun hne => h ⟨hdigits, hne, ?_⟩)⟩
      intro i r hr
      exact Classical.byContradiction fun hnot => hnodes ⟨i, r, hr, hnot⟩
  · exact ⟨_, .fingerprint hdigits⟩

theorem Damaged.not_sound (h : d.Damaged damage) : ¬ d.Sound := by
  intro hs
  cases h with
  | fingerprint h => exact h hs.digits
  | node hdigits hr h hbefore => exact h.not_fits (hs.nodes _ _ hr)
  | empty hdigits h => exact hs.nonempty h

/-- What reading a document comes to. -/
theorem toTree_cases (d : Document) :
    (d.format ≠ formatVersion ∧ d.toTree = .error (.version d.format)) ∨
      (d.format = formatVersion ∧ d.Sound ∧ ∃ f t, d.toTree = .ok (f, t) ∧
        Fingerprint.ofHex? d.fingerprint = some f ∧ t.rows = d.nodes) ∨
      d.format = formatVersion ∧ ∃ damage, d.Damaged damage ∧
        d.toTree = .error (.corrupt damage) := by
  by_cases hformat : d.format = formatVersion
  · by_cases hs : d.Sound
    · exact .inr (.inl ⟨hformat, hs, toTree_of_sound hformat hs⟩)
    · obtain ⟨damage, hdamage⟩ := exists_damaged hs
      exact .inr (.inr ⟨hformat, damage, hdamage, toTree_of_damaged hformat hdamage⟩)
  · exact .inl ⟨hformat, if_pos hformat⟩

theorem toTree_eq_version_iff {found : Nat} :
    d.toTree = .error (.version found) ↔ d.format ≠ formatVersion ∧ found = d.format := by
  rcases d.toTree_cases with ⟨hformat, hd⟩ | ⟨hformat, -, f, t, hd, -⟩ | ⟨hformat, damage, -, hd⟩
  · rw [hd, Except.error.injEq, DecodeError.version.injEq, eq_comm, and_iff_right hformat]
  · rw [hd]
    exact iff_of_false (fun h => nomatch h) fun h => h.1 hformat
  · rw [hd]
    exact iff_of_false (fun h => nomatch h) fun h => h.1 hformat

theorem exists_toTree_eq_ok_iff :
    (∃ f t, d.toTree = .ok (f, t)) ↔ d.format = formatVersion ∧ d.Sound := by
  rcases d.toTree_cases with ⟨hformat, hd⟩ | ⟨hformat, hs, f, t, hd, -⟩ |
    ⟨hformat, damage, hdamage, hd⟩
  · rw [hd]
    exact iff_of_false (fun ⟨_, _, h⟩ => nomatch h) fun h => hformat h.1
  · exact iff_of_true ⟨f, t, hd⟩ ⟨hformat, hs⟩
  · rw [hd]
    exact iff_of_false (fun ⟨_, _, h⟩ => nomatch h) fun h => hdamage.not_sound h.2

theorem toTree_eq_corrupt_iff :
    d.toTree = .error (.corrupt damage) ↔ d.format = formatVersion ∧ d.Damaged damage := by
  refine ⟨fun h => ?_, fun ⟨hformat, hdamage⟩ => toTree_of_damaged hformat hdamage⟩
  rcases d.toTree_cases with ⟨hformat, hd⟩ | ⟨hformat, -, f, t, hd, -⟩ |
    ⟨hformat, other, hother, hd⟩
  · rw [hd] at h
    cases h
  · rw [hd] at h
    cases h
  · rw [hd] at h
    cases h
    exact ⟨hformat, hother⟩

/-- A document is never read as bytes that are none. -/
theorem toTree_ne_format (d : Document) (fault : Json.Fault) :
    d.toTree ≠ .error (.format fault) := by
  rcases d.toTree_cases with ⟨-, hd⟩ | ⟨-, -, f, t, hd, -⟩ | ⟨-, damage, -, hd⟩ <;>
    · rw [hd]
      exact fun h => nomatch h

/-- A tree that is read has the fingerprint and the rows of its document. -/
theorem of_toTree_eq_ok {f : Fingerprint} {t : Tree} (h : d.toTree = .ok (f, t)) :
    Fingerprint.ofHex? d.fingerprint = some f ∧ t.rows = d.nodes := by
  obtain ⟨hformat, hs⟩ := exists_toTree_eq_ok_iff.1 ⟨f, t, h⟩
  obtain ⟨f', t', hd, hf, hrows⟩ := toTree_of_sound hformat hs
  rw [hd] at h
  cases h
  exact ⟨hf, hrows⟩

end Document

namespace Tree

variable {t : Tree} {rows : List DocumentNode}

/-- The nodes of a tree under their rows. -/
theorem node?_of_rows (h : t.rows = rows) {i : Nat} {r : DocumentNode} (hr : rows[i]? = some r) :
    ∃ n, t.node? i = some n ∧ n.kind = r.kind ∧ n.payload = r.payload ∧ n.parent = r.parent := by
  rw [← h, t.getElem?_rows] at hr
  obtain ⟨n, hn, rfl⟩ := Option.map_eq_some_iff.1 hr
  exact ⟨n, hn, rfl, rfl, rfl⟩

/-- The children of a node are the rows that name it, in their order, and all stand behind it. -/
theorem children_of_rows (h : t.rows = rows) (i : Nat) :
    t.children i = (List.range rows.length).filter (fun c => rows[c]?.bind (·.parent) == some i) ∧
      ∀ c ∈ t.children i, i < c := by
  have hparent : ∀ c, rows[c]?.bind (·.parent) = t.parent? c := fun c => by
    rw [← h, t.parent?_eq_rows]
  refine ⟨?_, fun c hc => t.parent?_lt (mem_children.1 hc)⟩
  simp only [hparent]
  rw [← h, t.length_rows]
  cases hn : t.node? i with
  | some n =>
      obtain ⟨hi, rfl⟩ := Array.getElem?_eq_some_iff.1 hn
      rw [children_of_some hn]
      exact t.arena.wellFormed.children_eq i hi
  -- there is no such node, so no row can name it as its parent
  | none =>
      rw [children_of_none hn, eq_comm, List.filter_eq_nil_iff]
      intro c _ hc
      obtain ⟨m, hm⟩ := node?_of_lt (Nat.lt_trans (parent?_lt (beq_iff_eq.1 hc))
        (lt_size_of_parent? (beq_iff_eq.1 hc)))
      rw [hn] at hm
      cases hm

/-- **Which bytes are read as a tree.** Some bytes are a document, with no more nodes than can be
numbered. If it has another version, that is the answer, whatever else is wrong. If it is sound, it
is read as a tree; else the first thing that is wrong with it is the answer, which names the
position of a node if that is what is wrong. A tree that is read has the nodes of the document
under their positions and owns them as the document says; and it survives being persisted again,
also if the document did not list it in pre-order. -/
theorem decode_exact (bytes : List UInt8) (d : Document) (hread : Document.read bytes = .ok d)
    (hlength : d.nodes.length ≤ Nat.pow 2 32) :
    (∀ found, decode bytes = .error (.version found) ↔
      d.format ≠ formatVersion ∧ found = d.format) ∧
    ((∃ f t, decode bytes = .ok (f, t)) ↔ d.format = formatVersion ∧ d.Sound) ∧
    (∀ damage, decode bytes = .error (.corrupt damage) ↔
      d.format = formatVersion ∧ d.Damaged damage) ∧
    (∀ fault, decode bytes ≠ .error (.format fault)) ∧
    (∀ (i : Nat) (r : DocumentNode) damage, d.nodes[i]? = some r → r.Damaged i damage →
      ∃ rest, damage.message = "node " ++ toString i ++ rest) ∧
    ∀ f t, decode bytes = .ok (f, t) →
      Fingerprint.ofHex? d.fingerprint = some f ∧ t.size = d.nodes.length ∧
      (∀ (i : Nat) (r : DocumentNode), d.nodes[i]? = some r → ∃ n, t.node? i = some n ∧
        n.kind = r.kind ∧ n.payload = r.payload ∧ n.parent = r.parent) ∧
      (∀ i, t.children i = (List.range d.nodes.length).filter
          (fun c => d.nodes[c]?.bind (·.parent) == some i) ∧
        ∀ c ∈ t.children i, i < c) ∧
      ∃ u, decode (t.encode f) = .ok (f, u) ∧ u.structurallyEqual t = true := by
  have hdecode : decode bytes = d.toTree := by
    unfold decode
    rw [hread]
  rw [hdecode]
  refine ⟨fun found => Document.toTree_eq_version_iff, Document.exists_toTree_eq_ok_iff,
    fun damage => Document.toTree_eq_corrupt_iff, d.toTree_ne_format,
    fun i r damage _ hdamage => hdamage.message, fun f t ht => ?_⟩
  obtain ⟨hf, hrows⟩ := Document.of_toTree_eq_ok ht
  have hsize : t.size = d.nodes.length := by rw [← hrows, t.length_rows]
  obtain ⟨u, hu, hagain⟩ := exists_decode t f (hsize ▸ hlength)
  exact ⟨hf, hsize, fun i r hr => node?_of_rows hrows hr, children_of_rows hrows, u, hu,
    (renumbers_of_rows hagain).structurallyEqual⟩

/-- A document that is not in pre-order, with digits in upper case. -/
theorem decode_exact_upper :
    let d : Document := ⟨1, String.ofList (List.replicate 64 'A'), [⟨.file, none, ⟨"a.py", .empty⟩⟩,
      ⟨.classType, some 0, ⟨"A", .empty⟩⟩, ⟨.function, some 0, ⟨"f", .empty⟩⟩,
      ⟨.method, some 1, ⟨"m", .empty⟩⟩]⟩
    Document.read d.render = .ok d ∧ d.nodes.length ≤ Nat.pow 2 32 ∧
      ∃ f t, decode d.render = .ok (f, t) ∧ t.children 0 = [1, 2] ∧ t.children 1 = [3] ∧
        ∃ u, decode (t.encode f) = .ok (f, u) ∧ u.structurallyEqual t = true := by
  intro d
  have hread : Document.read d.render = .ok d :=
    Document.read_render (show 1 < Nat.pow 2 32 by decide) fun n hn p hp => by
      simp only [d, List.mem_cons, List.not_mem_nil, or_false] at hn
      rcases hn with rfl | rfl | rfl | rfl <;> cases hp <;> decide
  have hlength : d.nodes.length ≤ Nat.pow 2 32 := by decide
  -- every digit is an upper case A, and every parent stands in front of its child
  have hs : d.Sound := by
    refine ⟨⟨?_, ?_⟩, List.cons_ne_nil _ _, ?_⟩
    · rw [String.toList_ofList, List.length_replicate]
    · intro c hc
      rw [String.toList_ofList] at hc
      rw [List.eq_of_mem_replicate hc]
      exact .inr (.inr ⟨by decide, by decide⟩)
    · rintro (_ | _ | _ | _ | i) r ⟨⟩ <;>
        exact ⟨by decide, by decide, fun p hp => by cases hp <;> decide⟩
  obtain ⟨-, hok, -, -, -, hread'⟩ := decode_exact d.render d hread hlength
  obtain ⟨f, t, ht⟩ := hok.2 ⟨rfl, hs⟩
  obtain ⟨-, -, -, hchildren, hagain⟩ := hread' f t ht
  refine ⟨hread, hlength, f, t, ht, ?_, ?_, hagain⟩
  · rw [(hchildren 0).1]
    decide
  · rw [(hchildren 1).1]
    decide

end Tree

end Outline
