import Outline.Loader.Basic

/-!
# Outline.Proofs.Loader.Soundness

**What a loader answers is right if what it knows is.** Which trees are right for a key and a
fingerprint is left open here (`Answers`); a loader is sound if everything it remembers is right, a
workspace if everything that its store keeps is right, as far as it can be decoded. Each operation
of a loader has one theorem that says what it answers and that soundness is kept (`Kept`), whatever
the store refuses to do.

The store is the one in memory: a map of bytes by key, whose operations may be refused at any time.
-/

namespace Outline

/-- Which trees are right for a key and a fingerprint. -/
abbrev Answers := String → Fingerprint → Tree → Prop

/-- All that the store keeps is right, as far as it can be decoded. -/
structure Workspace.Sound (right : Answers) (w : Workspace) : Prop where
  store : ∃ entries failing, w.store = .memory entries failing ∧
    ∀ key bytes f t, entries.get? key = some bytes → Tree.decode bytes = .ok (f, t) → right key f t

/-- All that a loader remembers is right, and on the shelf. -/
structure Loader.Sound (right : Answers) (shelf : Shelf) (l : Loader) : Prop where
  memory : ∀ key m, l.memory.get? key = some m →
    ∃ t, shelf.tree? m.tree = some t ∧ right key m.fingerprint t

/-- What an operation keeps that takes a loader and a workspace. -/
structure Kept (right : Answers) (l l' : Loader) (w w' : Workspace) : Prop where
  workspace : w'.Sound right
  loader : l'.Sound right w'.shelf
  /-- The trees on the shelf stay. -/
  shelf : ∀ (n : Nat) (t : Tree), w.shelf.tree? n = some t → w'.shelf.tree? n = some t
  filter : l'.filter = l.filter
  files : w'.files = w.files

variable {right : Answers}

theorem Kept.refl {l : Loader} {w : Workspace} (hl : l.Sound right w.shelf) (hw : w.Sound right) :
    Kept right l l w w :=
  ⟨hw, hl, fun _ _ h => h, rfl, rfl⟩

/-! ### The shelf

### The shelf

The trees that have been answered stay reachable by their numbers, so numbers that a loader
remembers have to stay good while the shelf grows. -/

/-- A tree that is put on the shelf stands there under its number. -/
theorem Shelf.tree?_add (s : Shelf) (t : Tree) : (s.add t).2.tree? (s.add t).1 = some t := by
  simp [add, tree?]

/-- The other trees stay where they were. -/
theorem Shelf.tree?_add_of_some {s : Shelf} {n : Nat} {u : Tree} (h : s.tree? n = some u)
    (t : Tree) : (s.add t).2.tree? n = some u := by
  obtain ⟨x, hx, hu⟩ := Option.map_eq_some_iff.1 h
  have hn := (Array.getElem?_eq_some_iff.1 hx).1
  rw [tree?, add, Array.getElem?_push_lt hn, ← Array.getElem?_eq_getElem hn, hx]
  exact congrArg some hu

theorem Workspace.shelf_keep (w : Workspace) (key : String) (bytes : List UInt8) :
    (w.keep key bytes).shelf = w.shelf := by
  unfold keep
  split <;> rfl

theorem Workspace.shelf_drop (w : Workspace) (key : String) : (w.drop key).2.shelf = w.shelf := by
  unfold drop
  split <;> rfl

/-- A loader stays sound when the shelf grows. -/
theorem Loader.Sound.mono {l : Loader} {s s' : Shelf} (h : l.Sound right s)
    (hs : ∀ (n : Nat) (t : Tree), s.tree? n = some t → s'.tree? n = some t) :
    l.Sound right s' where
  memory key m hm := by
    obtain ⟨t, ht, hright⟩ := h.memory key m hm
    exact ⟨t, hs _ t ht, hright⟩

/-- What is right stays so when more is right. -/
theorem Loader.Sound.imp {right' : Answers} {l : Loader} {s : Shelf} (h : l.Sound right s)
    (himp : ∀ key f t, right key f t → right' key f t) : l.Sound right' s where
  memory key m hm := by
    obtain ⟨t, ht, hright⟩ := h.memory key m hm
    exact ⟨t, ht, himp _ _ _ hright⟩

theorem Workspace.Sound.imp {right' : Answers} {w : Workspace} (h : w.Sound right)
    (himp : ∀ key f t, right key f t → right' key f t) : w.Sound right' where
  store := by
    obtain ⟨entries, failing, hstore, hright⟩ := h.store
    exact ⟨entries, failing, hstore, fun key bytes f t hk hd =>
      himp _ _ _ (hright key bytes f t hk hd)⟩

theorem Loader.Sound.fresh (filter : Filter) (s : Shelf) :
    Loader.Sound right s { filter := filter } where
  memory key m hm := by
    rw [show ({ filter := filter } : Loader).memory = .empty from rfl, Table.get?_empty] at hm
    cases hm

/-! ### The store

### The store

Each operation of a store in memory is refused or does what a map does. A refusal leaves the store
as it was, so it cannot make a workspace unsound; for what is kept it is enough that it is right in
case it can be decoded, which leaves room for spoiled bytes. -/

section

variable (entries : Table String (List UInt8)) (failing : List StoreOp) (fs : FileSystem)
  (key : String)

theorem Store.get_memory : Store.get (.memory entries failing) fs key =
    if failing.contains .load then .error .permissionDenied else .ok (entries.get? key) := rfl

theorem Store.put_memory (bytes : List UInt8) : Store.put (.memory entries failing) fs key bytes =
    if failing.contains .store then .error .permissionDenied
    else .ok (.memory (entries.insert key bytes) failing, fs) := rfl

theorem Store.remove_memory : Store.remove (.memory entries failing) fs key =
    if failing.contains .remove then .error .permissionDenied
    else .ok (.memory (entries.erase key) failing, fs) := rfl

end

/-- Keeping right bytes, or what cannot be decoded, keeps a workspace sound. -/
theorem Workspace.Sound.keep {w : Workspace} (h : w.Sound right) {key : String}
    {bytes : List UInt8} (hbytes : ∀ f t, Tree.decode bytes = .ok (f, t) → right key f t) :
    (w.keep key bytes).Sound right ∧ (w.keep key bytes).shelf = w.shelf ∧
      (w.keep key bytes).files = w.files := by
  obtain ⟨entries, failing, hstore, hright⟩ := h.store
  unfold Workspace.keep
  rw [hstore, Store.put_memory]
  by_cases hfail : failing.contains .store = true
  · rw [if_pos hfail]
    exact ⟨h, rfl, rfl⟩
  · rw [if_neg hfail]
    refine ⟨⟨_, failing, rfl, fun k bs f t hk hd => ?_⟩, rfl, rfl⟩
    rw [Table.get?_insert] at hk
    split at hk
    · rename_i heq
      cases hk
      exact heq ▸ hbytes f t hd
    · exact hright k bs f t hk hd

theorem Workspace.Sound.drop {w : Workspace} (h : w.Sound right) (key : String) :
    (w.drop key).2.Sound right ∧ (w.drop key).2.shelf = w.shelf ∧
      (w.drop key).2.files = w.files := by
  obtain ⟨entries, failing, hstore, hright⟩ := h.store
  unfold Workspace.drop
  rw [hstore, Store.remove_memory]
  by_cases hfail : failing.contains .remove = true
  · rw [if_pos hfail]
    exact ⟨h, rfl, rfl⟩
  · rw [if_neg hfail]
    refine ⟨⟨_, failing, rfl, fun k bs f t hk hd => ?_⟩, rfl, rfl⟩
    rw [Table.get?_erase] at hk
    split at hk
    · cases hk
    · exact hright k bs f t hk hd

/-- What the store gives for a file is right for it. -/
theorem Workspace.Sound.persisted {w : Workspace} (h : w.Sound right) {file : SourceFile}
    {t : Tree} (ht : w.persisted file = .fresh t) : right file.key file.fingerprint t := by
  obtain ⟨entries, failing, hstore, hright⟩ := h.store
  unfold Workspace.persisted at ht
  rw [hstore, Store.get_memory] at ht
  by_cases hfail : failing.contains .load = true
  · rw [if_pos hfail] at ht
    cases ht
  · rw [if_neg hfail] at ht
    cases hk : entries.get? file.key with
    | none =>
        rw [hk] at ht
        cases ht
    | some bytes =>
        rw [hk] at ht
        dsimp only at ht
        split at ht
        · rename_i f u hd
          split at ht
          · rename_i hf
            cases ht
            exact hf ▸ hright _ bytes f t hk hd
          · cases ht
        · cases ht
        · cases ht

namespace Loader

variable {l : Loader} {w : Workspace} {file : SourceFile}

/-! ### The operations of a loader

### The operations of a loader

They are taken in the order in which they call each other: what is remembered, what is read from the
store, what is made and kept. -/

/-- What is remembered for a file is right for it. -/
theorem Sound.remembered (hl : l.Sound right w.shelf) {n : Nat}
    (h : l.remembered? file = some n) :
    ∃ t, w.shelf.tree? n = some t ∧ right file.key file.fingerprint t := by
  unfold remembered? at h
  split at h
  · rename_i m hm
    split at h
    · rename_i hf
      cases h
      exact hf ▸ hl.memory _ m hm
    · cases h
  · cases h

/-- A loader may remember a tree that is right for a file. -/
theorem Sound.remember (hl : l.Sound right w.shelf) {t : Tree}
    (ht : right file.key file.fingerprint t) :
    (l.remember w file t).2.1.Sound right (l.remember w file t).2.2.shelf := by
  refine ⟨fun key m hm => ?_⟩
  rw [show (l.remember w file t).2.1.memory =
    l.memory.insert file.key ⟨file.fingerprint, (w.shelf.add t).1⟩ from rfl,
    Table.get?_insert] at hm
  split at hm
  · rename_i hkey
    cases hm
    exact ⟨t, w.shelf.tree?_add t, hkey ▸ ht⟩
  · exact (hl.mono fun n u hu => Shelf.tree?_add_of_some hu t).memory key m hm

theorem remember_spec (hl : l.Sound right w.shelf) (hw : w.Sound right) {t : Tree}
    (ht : right file.key file.fingerprint t) :
    Kept right l (l.remember w file t).2.1 w (l.remember w file t).2.2 ∧
      (l.remember w file t).2.2.shelf.tree? (l.remember w file t).1 = some t :=
  ⟨⟨⟨hw.store⟩, hl.remember ht, fun _ _ hu => Shelf.tree?_add_of_some hu t, rfl, rfl⟩,
    w.shelf.tree?_add t⟩

/-- Reading without making: either a right tree is found, or nothing has changed. -/
theorem readPersisted_spec (hl : l.Sound right w.shelf) (hw : w.Sound right)
    (file : SourceFile) :
    (∃ n t l' w', l.readPersisted w file = (some n, l', w') ∧ Kept right l l' w w' ∧
        w'.shelf.tree? n = some t ∧ right file.key file.fingerprint t) ∨
      l.readPersisted w file = (none, l, w) := by
  unfold readPersisted
  cases hr : l.remembered? file with
  | some n =>
      obtain ⟨t, ht, hright⟩ := hl.remembered hr
      exact .inl ⟨n, t, l, w, rfl, .refl hl hw, ht, hright⟩
  | none =>
      dsimp only
      split
      · rename_i t ht
        have hright := hw.persisted ht
        obtain ⟨hkept, htree⟩ := remember_spec hl hw hright
        exact .inl ⟨_, t, _, _, rfl, hkept, htree, hright⟩
      · exact .inr rfl

theorem readPersisted_kept (hl : l.Sound right w.shelf) (hw : w.Sound right) (file : SourceFile) :
    Kept right l (l.readPersisted w file).2.1 w (l.readPersisted w file).2.2 := by
  rcases readPersisted_spec hl hw file with ⟨n, t, l', w', hread, hkept, -, -⟩ | hread
  · rw [hread]
    exact hkept
  · rw [hread]
    exact .refl hl hw

/-- Keeping and remembering a tree that is right, and is decoded from its own bytes. -/
theorem keep_remember_spec (hl : l.Sound right w.shelf) (hw : w.Sound right) {t : Tree}
    (ht : right file.key file.fingerprint t)
    (hdecode : Tree.decode (t.encode file.fingerprint) = .ok (file.fingerprint, t)) :
    let r := l.remember (w.keep file.key (t.encode file.fingerprint)) file t
    Kept right l r.2.1 w r.2.2 ∧ r.2.2.shelf.tree? r.1 = some t := by
  -- What is kept from now on is what was made, with the fingerprint that it was made for.
  have hbytes : ∀ f u, Tree.decode (t.encode file.fingerprint) = .ok (f, u) →
      right file.key f u := by
    intro f u hd
    rw [hdecode] at hd
    cases hd
    exact ht
  obtain ⟨hsound, hshelf, hfiles⟩ := hw.keep hbytes
  obtain ⟨hkept, htree⟩ := remember_spec (hshelf ▸ hl) hsound ht
  exact ⟨⟨hkept.workspace, hkept.loader, hshelf ▸ hkept.shelf, hkept.filter,
    hkept.files.trans hfiles⟩, htree⟩

/-- Reading or making: the answer is a right tree, or the fault of what was made. What is made has
to be right, and to be decoded from its own bytes. -/
theorem readOr_spec (hl : l.Sound right w.shelf) (hw : w.Sound right) (file : SourceFile)
    {made : Except LoadError Tree}
    (hmade : ∀ t, made = .ok t → right file.key file.fingerprint t ∧
      Tree.decode (t.encode file.fingerprint) = .ok (file.fingerprint, t)) :
    ∃ answer l' w', l.readOr w file made = (answer, l', w') ∧ Kept right l l' w w' ∧
      ((∃ n t, answer = .ok n ∧ w'.shelf.tree? n = some t ∧ right file.key file.fingerprint t) ∨
        ∃ e, answer = .error e ∧ made = .error e) := by
  unfold readOr
  rcases readPersisted_spec hl hw file with ⟨n, t, l', w', hread, hkept, ht, hright⟩ | hread
  · rw [hread]
    exact ⟨_, l', w', rfl, hkept, .inl ⟨n, t, rfl, ht, hright⟩⟩
  · rw [hread]
    cases made with
    | error e => exact ⟨_, l, w, rfl, .refl hl hw, .inr ⟨e, rfl, rfl⟩⟩
    | ok t =>
        obtain ⟨hright, hdecode⟩ := hmade t rfl
        obtain ⟨hkept, htree⟩ := keep_remember_spec hl hw hright hdecode
        exact ⟨_, _, _, rfl, hkept, .inl ⟨_, t, rfl, htree, hright⟩⟩

theorem invalidate_spec (hl : l.Sound right w.shelf) (hw : w.Sound right) (p : Path) :
    Kept right l (l.invalidate w p).2.1 w (l.invalidate w p).2.2 := by
  obtain ⟨hsound, hshelf, hfiles⟩ := hw.drop (w.files.key p)
  have hl' : l.Sound right (w.drop (w.files.key p)).2.shelf := hshelf.symm ▸ hl
  refine ⟨hsound, ⟨fun key m hm => ?_⟩, fun n t h => hshelf.symm ▸ h, rfl, hfiles⟩
  rw [show (l.invalidate w p).2.1.memory = l.memory.erase (w.files.key p) from rfl,
    Table.get?_erase] at hm
  split at hm
  · cases hm
  · exact hl'.memory key m hm

end Loader

end Outline
