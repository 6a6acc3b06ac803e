import Outline.Loader.Basic
import Outline.Proofs.Tree.Decoding
import Outline.Proofs.Tree.Layout

/-!
# Outline.Proofs.Tree.Versions

**When another version is recognised.** A document is read to its end in the layout of this version
before its version is looked at. So a document of another version is answered with that version only
as far as its other fields are laid out as this version does it (`Document.Laid`); else it counts as
bytes that are no document, and as spoiled where a store keeps it (`Tree.version_iff_laid`).
-/

namespace Outline

open Json (Form Value Reader)
open Json.Form

namespace Document

variable {ms : Members} {n : Nat}

/-- The fields beside the version are laid out as this version does it: all keys can be read, and
there is one fingerprint and one list of nodes. -/
def Laid (ms : Members) : Prop :=
  ∃ ks digits nodes, keyed? ms = some ks ∧ only? "fingerprint" text? ks = some (some digits) ∧
    only? "nodes" nodes? ks = some (some nodes)

/-- There is one format, and it is this number. -/
def Versioned (ms : Members) (n : Nat) : Prop :=
  ms.filter (·.1.toOption = some "format") = [(.ok "format", .number (.ok (some n)))]

/-- Where all keys can be read, the members with a key are found among those that have been read. -/
theorem filter_of_keyed {ks : List (String × Form)} (h : keyed? ms = some ks) (key : String) :
    ms.filter (·.1.toOption = some key) = (ks.filter (·.1 = key)).map fun m => (.ok m.1, m.2) := by
  induction ms generalizing ks with
  | nil =>
      cases h
      rfl
  | cons m ms ih =>
      obtain ⟨k, f⟩ := m
      cases k with
      | error e => cases h
      | ok k =>
          obtain ⟨ks, hks, rfl⟩ := Option.map_eq_some_iff.1 h
          have hmore := ih hks
          by_cases hk : k = key
          · simpa [Except.toOption, hk] using hmore
          · simpa [Except.toOption, hk] using hmore

/-- The format is read if it is there once and fits 32 bits. -/
theorem only?_format {ks : List (String × Form)} (hkeyed : keyed? ms = some ks)
    (h : Versioned ms n) (hn : n < Nat.pow 2 32) : only? "format" nat32? ks = some (some n) := by
  rw [Versioned, filter_of_keyed hkeyed] at h
  obtain ⟨m, hm, hformat⟩ := List.map_eq_singleton_iff.1 h
  obtain ⟨-, hnumber⟩ := Prod.mk.inj hformat
  rw [only?, hm]
  simp only [hnumber, nat32?, if_pos hn]
  rfl

/-- With its other fields laid out, an object gives a document of its format. -/
theorem document?_of_laid (h : Versioned ms n) (hn : n < Nat.pow 2 32) (hlaid : Laid ms) :
    ∃ d, document? (.obj ms) = some d ∧ d.format = n := by
  obtain ⟨ks, digits, nodes, hkeyed, hdigits, hnodes⟩ := hlaid
  refine ⟨⟨n, digits, nodes⟩, ?_, rfl⟩
  simp [document?, hkeyed, only?_format hkeyed h hn, hdigits, hnodes]

/-- An object that gives a document has its other fields laid out. -/
theorem laid_of_document? {d : Document} (h : document? (.obj ms) = some d) : Laid ms := by
  simp only [document?, Option.bind_eq_bind, Option.bind_eq_some_iff] at h
  obtain ⟨ks, hkeyed, _, _, digits?, hdigits, nodes?, hnodes, _, _, digits, rfl, nodes, rfl, _⟩ := h
  exact ⟨ks, digits, nodes, hkeyed, hdigits, hnodes⟩

end Document

namespace Tree

open Document

variable {ms : Members} {n : Nat} {bytes : List UInt8}

/-- A document of another version is answered with that version if it is laid out. -/
theorem decode_of_laid (htext : Json.tokens bytes = (Form.obj ms).tokens) (h : Versioned ms n)
    (hn : n < Nat.pow 2 32) (hother : n ≠ formatVersion) (hlaid : Laid ms) :
    decode bytes = .error (.version n) := by
  obtain ⟨d, hd, hformat⟩ := document?_of_laid h hn hlaid
  rw [decode, read_form htext hd]
  exact toTree_eq_version_iff.2 ⟨hformat ▸ hother, hformat.symm⟩

/-- Bytes that are not laid out count as no document, whatever their version is. -/
theorem decode_of_not_laid (htext : Json.tokens bytes = (Form.obj ms).tokens) (h : ¬ Laid ms) :
    ∃ fault, decode bytes = .error (.format fault) := by
  have hnone : document? (.obj ms) = none := by
    rw [Option.eq_none_iff_forall_ne_some]
    exact fun d hd => h (laid_of_document? hd)
  obtain ⟨fault, hread⟩ := read_form_none htext hnone
  exact ⟨fault, by rw [decode, hread]⟩

/-- **When another version is recognised.** An object that gives another version as its one format
is answered with that version exactly if its other fields are laid out as this version does it; a
store that keeps it has something stale then. If they are not, the bytes count as no document, and
as spoiled where a store keeps them. -/
theorem version_iff_laid (bytes : List UInt8) (ms : Members) (n : Nat)
    (htext : Json.tokens bytes = (Form.obj ms).tokens) (hformat : Versioned ms n)
    (hn : n < Nat.pow 2 32) (hother : n ≠ formatVersion) :
    (decode bytes = .error (.version n) ↔ Laid ms) ∧
    (¬ Laid ms → ∃ fault, decode bytes = .error (.format fault)) ∧
    ∀ (w : Workspace) (file : SourceFile), w.store.get w.files file.key = .ok (some bytes) →
      (Laid ms → w.persisted file = .stale) ∧
      (¬ Laid ms → ∃ fault, w.persisted file = .spoiled (.format fault)) := by
  refine ⟨⟨fun hdecode => ?_, decode_of_laid htext hformat hn hother⟩, decode_of_not_laid htext,
    fun w file hget => ⟨fun hlaid => ?_, fun hlaid => ?_⟩⟩
  · by_contra hlaid
    obtain ⟨fault, hfault⟩ := decode_of_not_laid htext hlaid
    rw [hdecode] at hfault
    cases hfault
  · simp only [Workspace.persisted, hget, decode_of_laid htext hformat hn hother hlaid]
  · obtain ⟨fault, hfault⟩ := decode_of_not_laid htext hlaid
    exact ⟨fault, by simp only [Workspace.persisted, hget, hfault]⟩

/-- A document of the second version that is laid out as before, with one more member. -/
theorem version_iff_laid_second :
    let bytes := (Value.obj [("format", .nat 2), ("fingerprint", .str ""), ("nodes", .arr []),
      ("title", .null)]).compact.toUTF8.toList
    let w : Workspace := { store := .memory (Table.empty.insert "a.py" bytes) [] }
    decode bytes = .error (.version 2) ∧
      w.persisted ⟨⟨"a.py"⟩, "a.py", [], Fingerprint.ofContent []⟩ = .stale := by
  intro bytes w
  have htext : Json.tokens bytes = (Form.obj [(.ok "format", .number (.ok (some 2))),
      (.ok "fingerprint", .string (.ok "")), (.ok "nodes", .arr []),
      (.ok "title", .null)]).tokens :=
    Value.tokens_compact ⟨plain_nat (by decide), trivial, trivial, trivial, trivial⟩
  have hlaid : Laid [(.ok "format", .number (.ok (some 2))),
      (.ok "fingerprint", .string (.ok "")), (.ok "nodes", .arr []), (.ok "title", .null)] :=
    ⟨_, "", [], rfl, rfl, rfl⟩
  have hget : w.store.get w.files "a.py" = .ok (some bytes) :=
    congrArg Except.ok ((Table.get?_insert .empty "a.py" bytes "a.py").trans (if_pos rfl))
  obtain ⟨hdecode, -, hpersisted⟩ :=
    version_iff_laid bytes _ 2 htext rfl (by decide) (by decide)
  exact ⟨hdecode.2 hlaid, (hpersisted w ⟨⟨"a.py"⟩, "a.py", [], _⟩ hget).1 hlaid⟩

/-- A document of the second version with a node of a kind that this version does not know. -/
def unknownKind : Value :=
  .obj [("format", .nat 2),
    ("fingerprint", .str "af1349b9f5f9a1a6a0404dea36dcc9499bcb25c9adc112b7cc9a93cae41f3262"),
    ("nodes", .arr [.obj [("kind", .str "macro"), ("payload", .obj [("name", .str "f")])]])]

/-- It counts as bytes that are no document, and its version is not seen. -/
theorem version_hidden_by_layout :
    let bytes := unknownKind.compact.toUTF8.toList
    let ms : Members :=
      [(.ok "format", .number (.ok (some 2))),
        (.ok "fingerprint", .string
          (.ok "af1349b9f5f9a1a6a0404dea36dcc9499bcb25c9adc112b7cc9a93cae41f3262")),
        (.ok "nodes", .arr [.obj [(.ok "kind", .string (.ok "macro")),
          (.ok "payload", .obj [(.ok "name", .string (.ok "f"))])]])]
    Json.tokens bytes = (Form.obj ms).tokens ∧ Versioned ms 2 ∧ 2 ≠ formatVersion ∧
      decode bytes = .error (.format .mismatched) ∧
      ∀ (w : Workspace) (file : SourceFile), w.store.get w.files file.key = .ok (some bytes) →
        w.persisted file = .spoiled (.format .mismatched) := by
  intro bytes ms
  have htext : Json.tokens bytes = unknownKind.tokens :=
    Value.tokens_compact ⟨plain_nat (by decide), trivial,
      ⟨⟨trivial, ⟨trivial, trivial⟩, trivial⟩, trivial⟩, trivial⟩
  have hdecode : decode bytes = .error (.format .mismatched) := by
    rw [decode, Document.read, Reader.run, htext]
    rfl
  refine ⟨htext, rfl, by decide, hdecode, fun w file hget => ?_⟩
  simp only [Workspace.persisted, hget, hdecode]

end Tree

end Outline
