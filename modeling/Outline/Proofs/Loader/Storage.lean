import Outline.Proofs.FileSystem.Ways

/-!
# Outline.Proofs.Loader.Storage

**An operation of a store is about one key.** What stands in a store for a key (`Store.bytes?`) is
what was put there last, and nothing after the key has been removed. The bytes of other keys stay,
and so do all files but the one that keeps the key (`Store.Apart`). For a store in a directory this
needs that no link stands where a store expects a file of its own (`Store.Direct`), and that keys
have files of their own; keys that share a file (`Store.Shares`) share their bytes.

All that is said later of stores goes by `bytes?`, `Apart` and `Direct`: what stands there, what an
operation leaves alone, and that no link interferes. Each operation has one lemma in these terms,
with one case for each sort of store.
-/

namespace Outline

theorem toOption_eq_some_iff {ε α : Type} {x : Except ε α} {a : α} :
    x.toOption = some a ↔ x = .ok a := by
  cases x with
  | error e => exact ⟨nofun, nofun⟩
  | ok b => exact ⟨fun h => congrArg _ (Option.some.inj h), fun h => congrArg _ (Except.ok.inj h)⟩

namespace Store

variable {s s' : Store} {fs fs' : FileSystem} {dir : Path} {key : String} {bytes : List UInt8}

/-! ### What stands in a store

A store may refuse to give out what it has. So what stands there is defined beside what it gives
out, and the two are tied together by `bytes?_of_get` and `get_congr`. -/

/-- The bytes that stand in a store for a key, whether or not it gives them out. -/
def bytes? (s : Store) (fs : FileSystem) (key : String) : Option (List UInt8) :=
  match s with
  | .null => none
  | .memory entries _ => entries.get? key
  | .disk dir => (fs.read (fileOf dir key)).toOption

/-- Two keys have the same place in a store. -/
def Shares (s : Store) (key key' : String) : Prop :=
  match s with
  | .disk _ => fileName key' = fileName key
  | _ => key' = key

/-- A store keeps the bytes of a key in the file at a location. -/
def Places (s : Store) (fs : FileSystem) (key : String) (l : Location) : Prop :=
  ∃ dir, s = .disk dir ∧ fs.place? (fileOf dir key) = .ok (some l)

/-- A store reaches its own files directly: no link has a name that it gives to a file. -/
def Direct (s : Store) (fs : FileSystem) : Prop :=
  ∀ dir, s = .disk dir → ∀ key, fs.Unlinked (fileName key)

/-- A store without the bytes that it keeps: where it keeps them, and what it refuses. -/
def bare : Store → Store
  | .memory _ failing => .memory .empty failing
  | s => s

theorem eq_disk_of_bare (h : s.bare = .disk dir) : s = .disk dir := by
  cases s with
  | null | memory => cases h
  | disk dir' => exact h

/-- Where stores keep things is the same if it is so for bare stores. -/
theorem shares_congr (h : s'.bare = s.bare) {key' : String} :
    s'.Shares key key' ↔ s.Shares key key' := by
  cases s <;> cases s' <;> first | exact Iff.rfl | cases h

/-- What an operation on a key leaves as it was. -/
structure Apart (key : String) (s : Store) (fs : FileSystem) (s' : Store) (fs' : FileSystem) :
    Prop where
  bytes : ∀ k, ¬ s.Shares key k → s'.bytes? fs' k = s.bytes? fs k
  files : ∀ l, ¬ s.Places fs key l → fs'.entry? l = fs.entry? l
  current : fs'.current = fs.current
  bare : s'.bare = s.bare

theorem Apart.refl (key : String) (s : Store) (fs : FileSystem) : Apart key s fs s fs :=
  ⟨fun _ _ => rfl, fun _ _ => rfl, rfl, rfl⟩

theorem direct_memory {entries : Table String (List UInt8)} {failing : List StoreOp} :
    (Store.memory entries failing).Direct fs := fun _ hdir => nomatch hdir

/-- What a store gives out stands there. -/
theorem bytes?_of_get {found : Option (List UInt8)} (h : s.get fs key = .ok found) :
    s.bytes? fs key = found := by
  cases s with
  | null => exact Except.ok.inj h
  | memory entries failing =>
      unfold Store.get at h
      dsimp only at h
      split at h
      · cases h
      · exact Except.ok.inj h
  | disk dir =>
      unfold Store.get at h
      dsimp only at h
      rw [bytes?]
      split at h
      · rename_i c hread
        rw [hread]
        exact Except.ok.inj h
      · rename_i hread
        rw [hread]
        exact Except.ok.inj h
      · cases h

/-- What a store gives out depends on what stands there and on what it refuses. -/
theorem get_congr (hbare : s'.bare = s.bare) (hbytes : s'.bytes? fs' key = s.bytes? fs key) :
    s'.get fs' key = .ok (some bytes) ↔ s.get fs key = .ok (some bytes) := by
  cases s with
  | null =>
      cases s' with
      | null => exact Iff.rfl
      | memory | disk => cases hbare
  | memory entries failing =>
      cases s' with
      | memory entries' failing' =>
          cases hbare
          have hget : entries'.get? key = entries.get? key := hbytes
          unfold get
          dsimp only
          rw [hget]
      | null | disk => cases hbare
  -- a directory gives out bytes exactly if they can be read
  | disk dir =>
      obtain rfl := eq_disk_of_bare hbare
      have hread : ∀ files : FileSystem, (Store.disk dir).get files key = .ok (some bytes) ↔
          (Store.disk dir).bytes? files key = some bytes := by
        intro files
        constructor
        · exact bytes?_of_get
        · intro h
          unfold get
          dsimp only
          rw [toOption_eq_some_iff.1 h]
      rw [hread, hread, hbytes]

/-! ### Files of a store

The file of a key stands in the directory under a name of its own, which no link has. So a change of
that file is a change at one location, and other keys look elsewhere. -/

open FileSystem (EndsIn Changes)

theorem endsIn_fileOf (dir : Path) (key : String) : EndsIn (fileOf dir key) (fileName key) :=
  FileSystem.endsIn_join dir (isName_fileName key)

theorem Direct.unlinked (h : (Store.disk dir).Direct fs) (key : String) :
    fs.Unlinked (fileName key) := h dir rfl key

/-- Where a store has a file of its own there is at most a file. -/
theorem Direct.exists_file (h : (Store.disk dir).Direct fs) {d : Location}
    (hdir : fs.entry? (d ++ [fileName key]) ≠ some .directory) (e : FileSystem.Entry)
    (he : fs.entry? (d ++ [fileName key]) = some e) : ∃ c, e = .file c := by
  cases e with
  | file c => exact ⟨c, rfl⟩
  | directory => exact absurd he hdir
  | link target => exact absurd he (h.unlinked key d target)

/-- When the file of a key comes or goes, that is all. -/
theorem Direct.apart_of_changes (h : (Store.disk dir).Direct fs) {d : Location}
    (hd : fs.around (fileOf dir key) = .ok d) (hc : fs.Changes fs' (d ++ [fileName key])) :
    (Store.disk dir).Direct fs' ∧ Apart key (.disk dir) fs (.disk dir) fs' := by
  refine ⟨fun _ _ k => hc.unlinked (h.unlinked k), fun k hk => ?_, fun l hl => ?_,
    hc.ways.current, rfl⟩
  -- another key with another file: the name of the one that changed is not its name
  · have hlast : (d ++ [fileName key]).getLast? ≠ some (fileName k) := by
      rw [List.getLast?_concat]
      exact fun heq => hk (Option.some.inj heq).symm
    refine Option.ext fun c => ?_
    rw [bytes?, bytes?, toOption_eq_some_iff, toOption_eq_some_iff]
    exact hc.read_iff (endsIn_fileOf dir k) (h.unlinked k) hlast
  -- the only location that changes is the place of the key
  · refine hc.others l ?_
    rintro rfl
    exact hl ⟨dir, rfl, by rw [(endsIn_fileOf dir key).place?_eq, hd]; rfl⟩

/-! ### Operations

The three sorts of store keep nothing, a table and files. For the first two the lemmas are about
tables; the work is in the third, where it is known from the file system what an operation has
done. -/

/-- What comes of putting down the file of a key. -/
theorem Direct.exists_of_put (h : (Store.disk dir).Direct fs)
    (hput : (Store.disk dir).put fs key bytes = .ok (s', fs')) :
    s' = .disk dir ∧ ∃ d, fs.around (fileOf dir key) = .ok d ∧
      fs.Changes fs' (d ++ [fileName key]) ∧
      fs'.entry? (d ++ [fileName key]) = some (.file bytes) := by
  unfold put at hput
  dsimp only at hput
  cases hreplace : fs.replace (fileOf dir key) bytes with
  | error e =>
      rw [hreplace] at hput
      cases hput
  | ok files =>
      rw [hreplace] at hput
      cases hput
      obtain ⟨d, hd, hdir, rfl⟩ := (endsIn_fileOf dir key).exists_of_replace hreplace
      have hne : fs.entry? (d ++ [fileName key]) ≠ some .directory := by
        intro he
        rw [FileSystem.isDirAt_iff.2 he] at hdir
        cases hdir
      have hnil := FileSystem.append_singleton_ne_nil d (fileName key)
      refine ⟨rfl, d, hd, FileSystem.changes_set hnil (h.exists_file hne) bytes, ?_⟩
      rw [FileSystem.entry?_set fs hnil, if_pos rfl]

/-- What is put into a store stands there, unless the store keeps nothing. -/
theorem put_spec (h : s.Direct fs) (hput : s.put fs key bytes = .ok (s', fs')) :
    s'.Direct fs' ∧ Apart key s fs s' fs' ∧ (s ≠ .null → s'.bytes? fs' key = some bytes) := by
  cases s with
  | null =>
      cases hput
      exact ⟨h, .refl _ _ _, fun hnull => absurd rfl hnull⟩
  | memory entries failing =>
      unfold put at hput
      dsimp only at hput
      split at hput
      · cases hput
      · cases hput
        refine ⟨direct_memory, ⟨fun k hk => ?_, fun _ _ => rfl, rfl, rfl⟩,
          fun _ => ?_⟩
        · exact (Table.get?_insert entries key bytes k).trans (if_neg hk)
        · exact (Table.get?_insert entries key bytes key).trans (if_pos rfl)
  -- the file is read back by the way on which it was written, since ways stay the same
  | disk dir =>
      obtain ⟨rfl, d, hd, hc, he⟩ := h.exists_of_put hput
      obtain ⟨hdirect, hapart⟩ := h.apart_of_changes hd hc
      refine ⟨hdirect, hapart, fun _ => ?_⟩
      rw [bytes?, toOption_eq_some_iff, (endsIn_fileOf dir key).read_iff (hdirect.unlinked key)]
      exact ⟨d, (hc.ways.around_iff _).2 hd, he⟩

/-- What comes of taking away the file of a key. -/
theorem Direct.exists_of_remove (h : (Store.disk dir).Direct fs)
    (hremove : (Store.disk dir).remove fs key = .ok (s', fs')) :
    s' = .disk dir ∧ (fs.remove (fileOf dir key) = .error .notFound ∧ fs' = fs ∨
      ∃ d, fs.around (fileOf dir key) = .ok d ∧ fs.Changes fs' (d ++ [fileName key]) ∧
        fs'.entry? (d ++ [fileName key]) = none) := by
  unfold remove at hremove
  dsimp only at hremove
  split at hremove
  · rename_i files hfiles
    cases hremove
    obtain ⟨d, e, hd, he, hdir, rfl⟩ := (endsIn_fileOf dir key).exists_of_remove hfiles
    have hne : fs.entry? (d ++ [fileName key]) ≠ some .directory := by
      rw [he]
      exact fun heq => hdir (Option.some.inj heq)
    have hnil := FileSystem.append_singleton_ne_nil d (fileName key)
    refine ⟨rfl, .inr ⟨d, hd, FileSystem.changes_erase hnil (h.exists_file hne), ?_⟩⟩
    rw [FileSystem.entry?_erase fs hnil, if_pos rfl]
  · rename_i hmissing
    cases hremove
    exact ⟨rfl, .inl ⟨hmissing, rfl⟩⟩
  · cases hremove

/-- After a key has been removed nothing stands there for it. -/
theorem remove_spec (h : s.Direct fs) (hremove : s.remove fs key = .ok (s', fs')) :
    s'.Direct fs' ∧ Apart key s fs s' fs' ∧ s'.bytes? fs' key = none := by
  cases s with
  | null =>
      cases hremove
      exact ⟨h, .refl _ _ _, rfl⟩
  | memory entries failing =>
      unfold remove at hremove
      dsimp only at hremove
      split at hremove
      · cases hremove
      · cases hremove
        refine ⟨direct_memory, ⟨fun k hk => ?_, fun _ _ => rfl, rfl, rfl⟩, ?_⟩
        · exact (Table.get?_erase entries key k).trans (if_neg hk)
        · exact (Table.get?_erase entries key key).trans (if_pos rfl)
  | disk dir =>
      have hends := endsIn_fileOf dir key
      -- the file of the key is gone, or it has not been there before
      have hnothing : ∀ files : FileSystem, (Store.disk dir).Direct files →
          (∀ d, files.around (fileOf dir key) = .ok d →
            files.entry? (d ++ [fileName key]) = none) →
          (Store.disk dir).bytes? files key = none := by
        intro files hfiles hnone
        refine Option.eq_none_iff_forall_ne_some.2 fun c hc => ?_
        rw [bytes?, toOption_eq_some_iff, hends.read_iff (hfiles.unlinked key)] at hc
        obtain ⟨d, hd, he⟩ := hc
        cases (hnone d hd).symm.trans he
      obtain ⟨rfl, ⟨hmissing, rfl⟩ | ⟨d, hd, hc, hgone⟩⟩ := h.exists_of_remove hremove
      · exact ⟨h, .refl _ _ _, hnothing _ h fun d hd => hends.entry?_of_remove_notFound hmissing hd⟩
      · obtain ⟨hdirect, hapart⟩ := h.apart_of_changes hd hc
        refine ⟨hdirect, hapart, hnothing _ hdirect fun d' hd' => ?_⟩
        cases ((hc.ways.around_iff _).1 hd').symm.trans hd
        exact hgone

/-- What stands in a directory can be removed. -/
theorem exists_remove_of_bytes? (h : (Store.disk dir).Direct fs)
    (hbytes : (Store.disk dir).bytes? fs key = some bytes) :
    ∃ fs', (Store.disk dir).remove fs key = .ok (.disk dir, fs') := by
  have hends := endsIn_fileOf dir key
  rw [bytes?, toOption_eq_some_iff, hends.read_iff (h.unlinked key)] at hbytes
  obtain ⟨d, hd, he⟩ := hbytes
  unfold remove
  dsimp only
  rw [hends.remove_of_file hd he]
  exact ⟨_, rfl⟩

/-- To remove a key that has been removed changes nothing more. -/
theorem remove_again (h : s.Direct fs) (hremove : s.remove fs key = .ok (s', fs')) :
    s'.remove fs' key = .ok (s', fs') := by
  cases s with
  | null =>
      cases hremove
      rfl
  | memory entries failing =>
      unfold remove at hremove
      dsimp only at hremove
      split at hremove
      · cases hremove
      · rename_i hfails
        cases hremove
        unfold remove
        dsimp only
        rw [if_neg hfails, Table.erase_erase]
  -- the file was missing, or is missing now; a missing file is no failure
  | disk dir =>
      obtain ⟨rfl, ⟨hmissing, rfl⟩ | ⟨d, hd, hc, hgone⟩⟩ := h.exists_of_remove hremove
      · exact hremove
      · have hmissing := (endsIn_fileOf dir key).remove_of_none
          ((hc.ways.around_iff _).2 hd) hgone
        unfold remove
        dsimp only
        rw [hmissing]

/-- When a key is removed, no path gets another key of which the name of the file that goes is no
part. -/
theorem key_of_remove (h : s.Direct fs) (hremove : s.remove fs key = .ok (s', fs')) {p : Path}
    (hp : ∀ dir, s = .disk dir → fileName key ∉ fs.keyLocation p) : fs'.key p = fs.key p := by
  cases s with
  | null =>
      cases hremove
      rfl
  | memory entries failing =>
      unfold remove at hremove
      dsimp only at hremove
      split at hremove
      · cases hremove
      · cases hremove
        rfl
  | disk dir =>
      obtain ⟨rfl, ⟨-, rfl⟩ | ⟨d, hd, hc, hgone⟩⟩ := h.exists_of_remove hremove
      · rfl
      · exact hc.key_eq hgone List.getLast?_concat (hp dir rfl)

end Store

end Outline
