import Outline.Proofs.FileSystem.Upkeep
import Outline.Proofs.Loader.Transparency

/-!
# Outline.Proofs.Loader.Upkeep

**A store in a directory keeps nothing wrong.** Files are tidy if they are plain and all that the
stores among them keep is right for its key (`FileSystem.Tidy`), whatever loader kept it, and in
whatever directory. What a store does to tidy files leaves them tidy, and what it gives for a source
file is right (`Workspace.persisted_right`).
-/

namespace Outline

open FileSystem (pathOf)

/-- All contents of source files are met, and so are the texts of their keys. -/
def FileSystem.AllMet (met : List UInt8 → Prop) (fs : FileSystem) : Prop :=
  ∀ l n c, (Language.ofPath? (pathOf (l ++ [n]))).isSome → fs.entry? (l ++ [n]) = some (.file c) →
    met c ∧ met (pathOf (l ++ [n])).text.toUTF8.toList

/-- Plain files with sources that are met; and what the stores among them keep for a key that is met
is right for it, as far as it can be decoded. -/
structure FileSystem.Tidy (g : Grammar) (met : List UInt8 → Prop) (fs : FileSystem) : Prop where
  plain : fs.Plain
  sources : fs.AllMet met
  stored : ∀ l key c f t, met key.toUTF8.toList →
    fs.entry? (l ++ [Store.fileName key]) = some (.file c) → Tree.decode c = .ok (f, t) →
    RightFor g met key f t

/-- Contents that are met have different fingerprints if they differ. -/
def Distinct (met : List UInt8 → Prop) : Prop := ∀ c c', met c → met c' →
  Fingerprint.ofContent c = Fingerprint.ofContent c' → c = c'

/-- The outlines of contents that are met have no more nodes than can be numbered. -/
def Numbered (g : Grammar) (met : List UInt8 → Prop) : Prop := ∀ file t, met file.content →
  Loader.outline g file = .ok t → t.size ≤ Nat.pow 2 32

/-- The bytes are right for a key that is met, as far as they can be decoded. -/
def Fit (g : Grammar) (met : List UInt8 → Prop) (key : String) (bytes : List UInt8) : Prop :=
  met key.toUTF8.toList ∧ ∀ f t, Tree.decode bytes = .ok (f, t) → RightFor g met key f t

variable {g : Grammar} {met : List UInt8 → Prop} {fs fs' : FileSystem} {p : Path} {key : String}
  {c : List UInt8}

/-- Contents are distinct if their fingerprints are. -/
theorem Distinct.of_nodup {cs : List (List UInt8)} (h : (cs.map Fingerprint.ofContent).Nodup) :
    Distinct (· ∈ cs) := fun _ _ hc hc' heq => List.inj_on_of_nodup_map h hc hc' heq

/-- Keys that are met have files of their own. -/
theorem Distinct.key_eq (hash : Distinct met) {key' : String} (hkey : met key.toUTF8.toList)
    (hkey' : met key'.toUTF8.toList) (h : Store.fileName key = Store.fileName key') :
    key = key' :=
  Text.toUTF8_injective (hash _ _ hkey hkey' (Store.fileName_inj h))

namespace FileSystem

/-- A source file that can be read stands where its path says, under its name. -/
theorem Plain.exists_of_read_source (h : fs.Plain) (hp : (Language.ofPath? p).isSome)
    (hread : fs.read p = .ok c) : ∃ l n, p.normalize fs.current = l ++ [n] ∧
      fs.entry? (l ++ [n]) = some (.file c) ∧ (Language.ofPath? (pathOf (l ++ [n]))).isSome ∧
      fs.key p = (pathOf (l ++ [n])).text := by
  obtain ⟨-, he⟩ := h.exists_of_read hread
  have hkey := h.key_eq (p := p) (by rw [he]; rfl)
  obtain ⟨n, hn⟩ := exists_fileName_of_ofPath? hp
  obtain ⟨l, hl⟩ := normalize_of_fileName? fs.current hn
  rw [hl] at he hkey
  refine ⟨l, n, hl, he, ?_, hkey⟩
  rw [ofPath?_pathOf_append (h.names _ (by rw [he]; rfl)) hn]
  exact hp

namespace Tidy

/-- What is read from source files is met, and so are their keys. -/
theorem met_of_read (h : fs.Tidy g met) (hp : (Language.ofPath? p).isSome)
    (hread : fs.read p = .ok c) : met c ∧ met (fs.key p).toUTF8.toList := by
  obtain ⟨l, n, -, he, hsource, hkey⟩ := h.plain.exists_of_read_source hp hread
  rw [hkey]
  exact h.sources l n c hsource he

/-- What a store does leaves files tidy. -/
theorem touch (h : fs.Tidy g met) (hash : Distinct met) (ht : fs.Touch (Fit g met) fs') :
    fs'.Tidy g met := by
  have hplain := h.plain.touch ht
  refine ⟨hplain, fun l n c hsource he => ?_, fun l key c f t hkey he hdecode => ?_⟩
  · exact h.sources l n c hsource ((ht.keeps.source_iff h.plain hplain hsource).1 he)
  · cases ht with
    | @dir d n hd hn hfree =>
        rw [entry?_set fs (append_singleton_ne_nil d n)] at he
        split at he
        · cases he
        · exact h.stored l key c f t hkey he hdecode
    | @file d key' c' hd hfile hc =>
        rw [entry?_set fs (append_singleton_ne_nil d _)] at he
        split at he
        · rename_i hl
          cases he
          obtain rfl := hash.key_eq hkey hc.1 (eq_of_append_singleton hl)
          exact hc.2 f t hdecode
        · exact h.stored l key c f t hkey he hdecode
    | @erase d key' hfile =>
        rw [entry?_erase fs (append_singleton_ne_nil d _)] at he
        split at he
        · cases he
        · exact h.stored l key c f t hkey he hdecode

/-- Making directories leaves files tidy. -/
theorem makeDirs (h : fs.Tidy g met) (hash : Distinct met) (hdirs : fs.makeDirs p = .ok fs') :
    fs'.Tidy g met ∧ fs.Keeps fs' := by
  refine makeDirs_induction (motive := fun files => files.Tidy g met ∧ fs.Keeps files)
    (fun files files' q hfiles hmake => ?_) ⟨h, .refl fs⟩ hdirs
  have ht : files.Touch (Fit g met) files' := hfiles.1.plain.touch_of_makeDir hmake
  exact ⟨hfiles.1.touch hash ht, hfiles.2.trans ht.keeps⟩

end Tidy

end FileSystem

/-! ### Workspaces -/

namespace Workspace

/-- The files are tidy, and the store keeps its bytes among them, or nowhere. -/
structure Tidy (g : Grammar) (met : List UInt8 → Prop) (w : Workspace) : Prop where
  files : w.files.Tidy g met
  store : ∀ entries failing, w.store ≠ .memory entries failing

variable {w : Workspace} {file : SourceFile} {t : Tree}

/-- What the store gives for a source file is right. -/
theorem Tidy.persisted_right (h : w.Tidy g met) (hkey : met file.key.toUTF8.toList)
    (ht : w.persisted file = .fresh t) : RightFor g met file.key file.fingerprint t := by
  unfold persisted at ht
  cases hstore : w.store with
  | memory entries failing => exact absurd hstore (h.store entries failing)
  | null =>
      rw [hstore] at ht
      cases ht
  | disk dir =>
      rw [hstore] at ht
      unfold Store.get at ht
      dsimp only at ht
      cases hread : w.files.read (Store.fileOf dir file.key) with
      | error e =>
          rw [hread] at ht
          cases e <;> cases ht
      | ok bytes =>
          rw [hread] at ht
          dsimp only at ht
          obtain ⟨d, hd⟩ := h.files.plain.exists_of_read_fileOf hread
          split at ht
          · rename_i f u hdecode
            split at ht
            · rename_i hf
              cases ht
              exact hf ▸ h.files.stored d file.key bytes f t hkey hd hdecode
            · cases ht
          · cases ht
          · cases ht

/-- Keeping what is fit for a key. -/
theorem Tidy.keep (h : w.Tidy g met) (hash : Distinct met) {bytes : List UInt8}
    (hfit : Fit g met key bytes) :
    (w.keep key bytes).Tidy g met ∧ w.files.Keeps (w.keep key bytes).files := by
  unfold Workspace.keep
  cases hstore : w.store with
  | memory entries failing => exact absurd hstore (h.store entries failing)
  | null => exact ⟨⟨h.files, fun _ _ => Store.noConfusion⟩, .refl w.files⟩
  | disk dir =>
      rw [Store.put]
      cases hr : w.files.replace (Store.fileOf dir key) bytes with
      | error e => exact ⟨h, .refl w.files⟩
      | ok files =>
          have ht := h.files.plain.touch_of_replace_fileOf hfit hr
          exact ⟨⟨h.files.touch hash ht, fun _ _ => Store.noConfusion⟩, ht.keeps⟩

/-- Dropping what is kept for a key. -/
theorem Tidy.drop (h : w.Tidy g met) (hash : Distinct met) (key : String) :
    (w.drop key).2.Tidy g met ∧ w.files.Keeps (w.drop key).2.files := by
  unfold Workspace.drop
  cases hstore : w.store with
  | memory entries failing => exact absurd hstore (h.store entries failing)
  | null => exact ⟨⟨h.files, fun _ _ => Store.noConfusion⟩, .refl w.files⟩
  | disk dir =>
      unfold Store.remove
      dsimp only
      cases hr : w.files.remove (Store.fileOf dir key) with
      | error e =>
          cases e <;> first
            | exact ⟨h, .refl w.files⟩
            | exact ⟨⟨h.files, fun _ _ => Store.noConfusion⟩, .refl w.files⟩
      | ok files =>
          have ht : w.files.Touch (Fit g met) files := h.files.plain.touch_of_remove_fileOf hr
          exact ⟨⟨h.files.touch hash ht, fun _ _ => Store.noConfusion⟩, ht.keeps⟩

end Workspace

end Outline
