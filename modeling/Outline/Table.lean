/-!
# Finite tables

A table gives at most one value to each key. This module provides `Table` with `get?`, `insert`,
`erase` and `size`, and the two equations from which everything else about a table follows:

* `get?_insert` — an inserted key has the new value, every other key what it had; and
* `get?_erase` — an erased key has no value, every other key what it had.
-/

namespace Outline

/-- Pairs of keys and values in which no key stands twice. -/
structure Table (α β : Type) where
  entries : List (α × β) := []
  nodup_keys : (entries.map (·.1)).Nodup := by simp

namespace Table

/-- The table without keys. -/
def empty {α β : Type} : Table α β := {}

instance {α β : Type} : Inhabited (Table α β) := ⟨empty⟩

/-- The number of keys. -/
def size {α β : Type} (t : Table α β) : Nat := t.entries.length

section

variable {α β : Type} [DecidableEq α]

/-- The value of a key. -/
def get? (t : Table α β) (k : α) : Option β :=
  (t.entries.find? (·.1 = k)).map (·.2)

/-- The pairs with other keys. -/
def without (es : List (α × β)) (k : α) : List (α × β) := es.filter (·.1 ≠ k)

/-- Leaving out a key leaves no key twice. -/
theorem nodup_without {es : List (α × β)} (h : (es.map (·.1)).Nodup) (k : α) :
    ((without es k).map (·.1)).Nodup :=
  h.sublist (List.filter_sublist.map _)

/-- A key that is left out is not there. -/
theorem notMem_without (es : List (α × β)) (k : α) : k ∉ (without es k).map (·.1) := by
  simp [without]

/-- Take a key away. -/
def erase (t : Table α β) (k : α) : Table α β :=
  ⟨without t.entries k, nodup_without t.nodup_keys k⟩

/-- Give a key a value. -/
def insert (t : Table α β) (k : α) (v : β) : Table α β where
  entries := (k, v) :: without t.entries k
  nodup_keys := List.nodup_cons.2 ⟨notMem_without t.entries k, nodup_without t.nodup_keys k⟩

/-- Whether a key has a value. -/
def contains (t : Table α β) (k : α) : Bool := (t.get? k).isSome

theorem find?_without (es : List (α × β)) (k k' : α) :
    (without es k).find? (·.1 = k') = if k' = k then none else es.find? (·.1 = k') := by
  induction es with
  | nil => simp [without]
  | cons e es ih =>
    by_cases he : e.1 = k
    · by_cases hk : k' = k
      · simp_all [without]
      · have : ¬ e.1 = k' := fun h => hk (h ▸ he)
        simp_all [without]
    · by_cases hk : k' = k
      · simp_all [without]
      · by_cases hek : e.1 = k' <;> simp_all [without]

/-- An erased key has no value, every other key what it had. -/
theorem get?_erase (t : Table α β) (k k' : α) :
    (t.erase k).get? k' = if k' = k then none else t.get? k' := by
  simp only [get?, erase, find?_without]
  split <;> rfl

/-- An inserted key has the new value, every other key what it had. -/
theorem get?_insert (t : Table α β) (k : α) (v : β) (k' : α) :
    (t.insert k v).get? k' = if k' = k then some v else t.get? k' := by
  by_cases h : k' = k
  · subst h; simp [get?, insert]
  · have : ¬ k = k' := fun e => h e.symm
    simp [get?, insert, find?_without, h, this]

/-- An inserted key is there, and so is every other that was. -/
theorem contains_insert (t : Table α β) (k : α) (v : β) (k' : α) :
    (t.insert k v).contains k' = (decide (k' = k) || t.contains k') := by
  rw [contains, get?_insert]
  by_cases h : k' = k <;> simp [h, contains]

/-- A table without keys gives no value. -/
theorem get?_empty (k : α) : (empty : Table α β).get? k = none := rfl

/-- To take a key away that is not there changes nothing. -/
theorem erase_of_get?_eq_none {t : Table α β} {k : α} (h : t.get? k = none) : t.erase k = t := by
  have hkeys : ∀ e ∈ t.entries, e.1 ≠ k := by simpa [get?] using h
  have hsame : without t.entries k = t.entries :=
    List.filter_eq_self.2 fun e he => decide_eq_true (hkeys e he)
  simp [erase, hsame]

theorem erase_erase (t : Table α β) (k : α) : (t.erase k).erase k = t.erase k := by
  simp [erase, without]

theorem erase_insert (t : Table α β) (k : α) (v : β) : (t.insert k v).erase k = t.erase k := by
  simp [erase, insert, without]

/-- What is inserted takes the place of what the key had. -/
theorem insert_insert (t : Table α β) (k : α) (v v' : β) :
    (t.insert k v).insert k v' = t.insert k v' := by
  simp [insert, without]

end

end Table

end Outline
