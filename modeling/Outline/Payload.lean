import Outline.Text.Blank
import Outline.Text.Quoted

/-!
# Payloads

A payload is what a declaration says about itself: a name and a finite map of attributes. This
module provides:

* `Attributes` — a map from keys to values, kept strictly sorted by key, so that equal maps are
  equal lists and every listing of a map has one order;
* `Payload` — a name with attributes;
* `Payload.fault?` — the first reason, if any, why a payload may not stand in a tree, and
* `Payload.line?` — the line that the attribute `line` names.
-/

namespace Outline

/-- A map from attribute keys to values, listed in strictly increasing order of the keys. -/
structure Attributes where
  /-- The keys with their values. -/
  entries : List (String × String)
  /-- Keys increase strictly. -/
  sorted : entries.Pairwise fun a b => a.1 < b.1
deriving DecidableEq

namespace Attributes

/-- The map without entries. -/
def empty : Attributes := ⟨[], .nil⟩

instance : Inhabited Attributes := ⟨empty⟩

/-- `(key, value)` at its place in a sorted list; an entry with that key gives way. -/
def insertEntry (key value : String) : List (String × String) → List (String × String)
  | [] => [(key, value)]
  | e :: r =>
    if key < e.1 then (key, value) :: e :: r
    else if key = e.1 then (key, value) :: r
    else e :: insertEntry key value r

/-- An inserted list holds the new entry and entries that were there. -/
theorem mem_insertEntry {key value : String} {es : List (String × String)} {x : String × String}
    (h : x ∈ insertEntry key value es) : x = (key, value) ∨ x ∈ es := by
  induction es with
  | nil => simpa [insertEntry] using h
  | cons e r ih =>
    simp only [insertEntry] at h
    split at h
    · simpa using h
    · split at h
      · rcases List.mem_cons.1 h with h | h
        · exact .inl h
        · exact .inr (List.mem_cons_of_mem _ h)
      · rcases List.mem_cons.1 h with h | h
        · exact .inr (h ▸ List.mem_cons_self)
        · exact (ih h).imp id (List.mem_cons_of_mem _)

/-- Inserting keeps the keys strictly increasing. -/
theorem pairwise_insertEntry (key value : String) {es : List (String × String)}
    (h : es.Pairwise fun a b => a.1 < b.1) :
    (insertEntry key value es).Pairwise fun a b => a.1 < b.1 := by
  induction es with
  | nil => simp [insertEntry]
  | cons e r ih =>
    have hr := List.pairwise_cons.1 h
    simp only [insertEntry]
    split
    · rename_i hlt
      refine List.pairwise_cons.2 ⟨fun x hx => ?_, h⟩
      rcases List.mem_cons.1 hx with rfl | hx
      · exact hlt
      · exact String.lt_trans hlt (hr.1 x hx)
    · split
      · rename_i heq
        exact List.pairwise_cons.2 ⟨fun x hx => heq ▸ hr.1 x hx, hr.2⟩
      · rename_i hlt hne
        refine List.pairwise_cons.2 ⟨fun x hx => ?_, ih hr.2⟩
        rcases mem_insertEntry hx with rfl | hx
        · rcases String.le_total e.1 key with hle | hle
          · exact Decidable.byContradiction fun hn =>
              hne (String.le_antisymm (String.not_lt.1 hn) hle)
          · exact absurd (Decidable.byContradiction fun hn =>
              hne (String.le_antisymm hle (String.not_lt.1 hn))) hlt
        · exact hr.1 x hx

/-- The map with `key` bound to `value`. -/
def insert (m : Attributes) (key value : String) : Attributes :=
  ⟨insertEntry key value m.entries, pairwise_insertEntry key value m.sorted⟩

/-- The value bound to `key`. -/
def get? (m : Attributes) (key : String) : Option String :=
  (m.entries.find? (·.1 == key)).map (·.2)

/-- The map that binds each key of a list to its last value there. -/
def ofList (es : List (String × String)) : Attributes :=
  es.foldl (fun m e => m.insert e.1 e.2) empty

/-- Whether the map has no entry. -/
def isEmpty (m : Attributes) : Bool :=
  m.entries.isEmpty

end Attributes

/-- What a declaration says about itself. -/
structure Payload where
  /-- The declared name; a declaration may have none. -/
  name : String
  /-- What else is known of the declaration. -/
  attributes : Attributes := .empty
deriving DecidableEq, Inhabited

/-- Why a payload may not stand in a tree. -/
inductive PayloadFault where
  /-- The name holds a control character. -/
  | controlInName (name : String)
  /-- An attribute key is empty or holds a blank or control character. -/
  | badKey (key : String)
  /-- An attribute value holds a line end. -/
  | multilineValue (key : String)
deriving DecidableEq, Repr

/-- The wording of a fault. -/
def PayloadFault.message : PayloadFault → String
  | controlInName name => "name " ++ Text.quoted name ++ " contains control characters"
  | badKey key => "invalid attribute key " ++ Text.quoted key
  | multilineValue key => "attribute " ++ Text.quoted key ++ " spans multiple lines"

namespace Payload

/-- The payload with one more attribute. -/
def withAttribute (p : Payload) (key value : String) : Payload :=
  { p with attributes := p.attributes.insert key value }

/-- The value of an attribute. -/
def attribute? (p : Payload) (key : String) : Option String :=
  p.attributes.get? key

/-- The fault of one attribute. A fault of the key wins over one of the value. -/
def entryFault? (e : String × String) : Option PayloadFault :=
  if e.1.isEmpty || e.1.toList.any (fun c => Text.isControl c || Text.isBlank c) then
    some (.badKey e.1)
  else if e.2.toList.contains '\n' then some (.multilineValue e.1)
  else none

/-- The first fault of a payload: its name is looked at first, then its attributes in order. -/
def fault? (p : Payload) : Option PayloadFault :=
  if p.name.toList.any Text.isControl then some (.controlInName p.name)
  else p.attributes.entries.findSome? entryFault?

/-- The number that a text of decimal digits stands for, after an optional plus sign. The
number has to fit 64 bits. -/
def number? (s : String) : Option Nat :=
  let digits := match s.toList with
    | '+' :: r => r
    | cs => cs
  if digits.isEmpty || !digits.all (fun c => '0' ≤ c && c ≤ '9') then none
  else
    let n := digits.foldl (fun n c => 10 * n + (c.toNat - '0'.toNat)) 0
    if n < Nat.pow 2 64 then some n else none

/-- The line of the declaration, if the attribute `line` holds a number. -/
def line? (p : Payload) : Option Nat :=
  (p.attribute? "line").bind number?

end Payload

end Outline
