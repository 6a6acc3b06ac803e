import Outline.Loader.Workspace
import Outline.Proofs.FileSystem.Respelling
import Outline.Proofs.Loader.Storage

/-!
# Outline.Proofs.FileSystem.Undisturbed

**Sources stay as they are while stores work.** A store that keeps bytes changes nothing but files
that a store names (`Undisturbed`, `leftBy_keep`). If no link has such a name or
leads to one (`Clear`), a source file then says what it said, under the same key
(`Undisturbed.source_iff`). A file is what stands under its name in the directory that its key
spells, so files with one key say the same (`content_eq_of_key_eq`).

Here links are allowed, other than where command lines are told about plain files. A link makes two
things harder: a path may lead to a file of another name, and the way there may cost links. The
first is what `Clear` excludes for files of stores; the second is why walks with more links are
compared.
-/

namespace Outline.FileSystem

variable {fs fs' fs'' : FileSystem} {l m e d d' : Location} {n n' : String} {c : List UInt8}
  {links links' : Nat} {names : List String} {steps : List Step} {file file' : SourceFile}

/-! ### Walks with more links

Links are counted down along a walk, so a walk that ended does not fail with more of them left. -/

/-- Ways are the same, and so is all that no store names. -/
structure Undisturbed (fs fs' : FileSystem) : Prop where
  ways : fs.SameWays fs'
  others : ∀ d n, ¬ OfStore n → fs'.entry? (d ++ [n]) = fs.entry? (d ++ [n])

/-- No link has the name of a store's file, nor leads to one. -/
structure Clear (fs : FileSystem) : Prop where
  names : ∀ d n target, fs.entry? (d ++ [n]) = some (.link target) → ¬ OfStore n
  targets : ∀ l target n, fs.entry? l = some (.link target) →
    (allSteps target).getLast? = some (.name n) → ¬ OfStore n

/-- Without links none is in the way. -/
theorem Plain.clear (h : fs.Plain) : fs.Clear :=
  ⟨fun _ _ target he => absurd he (h.noLinks _ target),
    fun _ target _ he => absurd he (h.noLinks _ target)⟩

/-- What a walk ends at is a directory, or a file that no store names. -/
theorem Clear.walk_cases (h : fs.Clear) (hl : fs.Clean l)
    (hsteps : ∀ n, steps.getLast? = some (.name n) → ¬ OfStore n)
    (hm : fs.walk false links l steps = .ok m) : fs.Clean m ∨
      ∃ d n c, m = d ++ [n] ∧ ¬ OfStore n ∧ fs.entry? m = some (.file c) := by
  -- what is assumed of the last step is true of what is left of the walk
  have htail : ∀ {s : Step} {r : List Step},
      (∀ n, (s :: r).getLast? = some (.name n) → ¬ OfStore n) →
      ∀ n, r.getLast? = some (.name n) → ¬ OfStore n := by
    intro s r hr n hn
    refine hr n ?_
    rw [List.getLast?_cons, hn]
    rfl
  generalize hc : false = creating at hm
  fun_induction walk fs creating links l steps with
  | case1 =>
      cases hm
      exact .inl hl
  | case2 _ _ _ ih => exact ih hl (htail hsteps) hm
  | case3 _ _ _ ih => exact ih hl.dropLast (htail hsteps) hm
  | case4 _ _ _ _ he ih => exact ih (hl.append (isDirAt_iff.2 he)) (htail hsteps) hm
  | case5 _ l n r c he hnil =>
      cases hm
      rw [List.isEmpty_iff.1 hnil] at hsteps
      exact .inr ⟨l, n, c, rfl, hsteps n rfl, he⟩
  | case6 | case7 | case10 => cases hm
  | case8 _ _ r target he _ ih =>
      refine ih ?_ (fun n hn => ?_) hm
      · split
        · exact .nil fs
        · exact hl
      · -- the last step is one of those behind the link, or the last of where it leads
        by_cases hr : r = []
        · rw [hr, List.append_nil] at hn
          exact h.targets _ target n he hn
        · rw [List.getLast?_append_of_ne_nil _ hr] at hn
          exact htail hsteps n hn
  | case9 _ _ _ _ _ hnil =>
      subst hc
      exact absurd hnil Bool.false_ne_true

namespace Undisturbed

/-- Nothing is disturbed if nothing happens, -/
theorem refl (fs : FileSystem) : fs.Undisturbed fs := ⟨.refl fs, fun _ _ _ => rfl⟩

/-- it is so both ways, -/
theorem symm (h : fs.Undisturbed fs') : fs'.Undisturbed fs :=
  ⟨h.ways.symm, fun d n hn => (h.others d n hn).symm⟩

/-- and one thing after another. -/
theorem trans (h : fs.Undisturbed fs') (h' : fs'.Undisturbed fs'') : fs.Undisturbed fs'' where
  ways := ⟨h'.ways.current.trans h.ways.current, fun l => (h'.ways.dir l).trans (h.ways.dir l),
    fun l target => (h'.ways.link l target).trans (h.ways.link l target)⟩
  others d n hn := (h'.others d n hn).trans (h.others d n hn)

/-- No link comes into the way. -/
theorem clear (h : fs.Undisturbed fs') (hclear : fs.Clear) : fs'.Clear :=
  ⟨fun d n target he => hclear.names d n target ((h.ways.link _ target).1 he),
    fun l target n he => hclear.targets l target n ((h.ways.link l target).1 he)⟩

/-- Where names lead that end in one that no store gives, they lead afterwards, and the same is
there. -/
theorem realOf? (h : fs.Undisturbed fs') (hclear : fs.Clear)
    (hnames : ∀ n, names.getLast? = some n → ¬ OfStore n) (hm : fs.realOf? names = some m) :
    fs'.realOf? names = some m ∧ fs'.entry? m = fs.entry? m := by
  rw [realOf?_eq_some] at hm ⊢
  have hsteps : ∀ n, (names.map Step.name).getLast? = some (.name n) → ¬ OfStore n := by
    intro n hn
    rw [List.getLast?_map] at hn
    obtain ⟨k, hk, heq⟩ := Option.map_eq_some_iff.1 hn
    cases heq
    exact hnames _ hk
  -- what the names end at is a directory, or is a file that no store names
  have hentry : fs'.entry? m = fs.entry? m := by
    rcases hclear.walk_cases (.nil fs) hsteps hm with hdir | ⟨d, n, c, rfl, hn, -⟩
    · have hdir := isDirAt_iff.1 hdir.isDirAt
      rw [hdir, (h.ways.dir m).2 hdir]
    · exact h.others d n hn
  exact ⟨h.ways.walk_ok (.inr fun c hc => ⟨c, hentry.trans hc⟩) hm, hentry⟩

/-- Where names lead to a directory, they lead afterwards. -/
theorem realOf?_dir (h : fs.Undisturbed fs') (he : fs.realOf? names = some e)
    (hdir : fs.isDirAt e = true) : fs'.realOf? names = some e := by
  rw [realOf?_eq_some] at he ⊢
  refine h.ways.walk_ok (.inr fun c hc => ?_) he
  rw [isDirAt_iff.1 hdir] at hc
  cases hc

end Undisturbed

/-- When the file of a key comes or goes, nothing else is disturbed. -/
theorem Changes.undisturbed {key : String} (h : fs.Changes fs' (d ++ [Store.fileName key])) :
    fs.Undisturbed fs' :=
  ⟨h.ways, fun _ _ hn => h.others _ (append_ne_of_not_ofStore hn)⟩

/-- A store among such files reads and writes the files that it names. -/
theorem Clear.direct (h : fs.Clear) (s : Store) : s.Direct fs :=
  fun _ _ key d target he => h.names d _ target he ⟨key, rfl⟩

/-- What a store leaves of files: it disturbs nothing, and changes nothing if it is no directory. -/
structure LeftBy (fs : FileSystem) (s : Store) (fs' : FileSystem) : Prop where
  undisturbed : fs.Undisturbed fs'
  same : (∀ dir, s ≠ .disk dir) → fs' = fs

/-- A store that does nothing leaves all as it is, -/
theorem LeftBy.refl (fs : FileSystem) (s : Store) : fs.LeftBy s fs := ⟨.refl fs, fun _ => rfl⟩

/-- and what it leaves one time after another is what it leaves. -/
theorem LeftBy.trans {s s' : Store} (h : fs.LeftBy s fs') (h' : fs'.LeftBy s' fs'')
    (hbare : s'.bare = s.bare) : fs.LeftBy s fs'' where
  undisturbed := h.undisturbed.trans h'.undisturbed
  same hno := by
    have hno' : ∀ dir, s' ≠ .disk dir := by
      rintro dir rfl
      exact hno dir (Store.eq_disk_of_bare hbare.symm)
    exact (h'.same hno').trans (h.same hno)

/-- A store that keeps bytes disturbs nothing. -/
theorem leftBy_keep {w : Workspace} (h : w.store.Direct w.files) (key : String)
    (bytes : List UInt8) : w.files.LeftBy w.store (w.keep key bytes).files := by
  unfold Workspace.keep
  cases hput : w.store.put w.files key bytes with
  | error e => exact .refl _ _
  | ok kept =>
      obtain ⟨store, files⟩ := kept
      show w.files.LeftBy w.store files
      cases hstore : w.store with
      | null =>
          rw [hstore] at hput
          cases hput
          exact .refl _ _
      | memory entries failing =>
          rw [hstore] at hput
          unfold Store.put at hput
          dsimp only at hput
          split at hput
          · cases hput
          · cases hput
            exact .refl _ _
      -- only a directory is written to, and only at the file of the key
      | disk dir =>
          rw [hstore] at h hput
          obtain ⟨-, d, -, hc, -⟩ := h.exists_of_put hput
          exact ⟨hc.undisturbed, fun hno => absurd rfl (hno dir)⟩

/-! ### Files and their keys

A key follows the directories of a path but not its last name. So of a file it tells the directory
and the name, and that is enough to tell what is read. -/

/-- A file that is read stands where its path leads, and its key follows the directories of the
path. -/
theorem exists_of_read (hl : IsLocation (d ++ [n]))
    (h : SourceFile.read fs (pathOf (d ++ [n])) = .ok file) :
    ∃ c m e left, file = .ofContent fs (pathOf (d ++ [n])) c ∧ fs.realOf? (d ++ [n]) = some m ∧
      fs.entry? m = some (.file c) ∧ fs.realOf? d = some e ∧ fs.Clean e ∧
      fs.keyLocation (pathOf (d ++ [n])) = e ++ [n] ∧
      fs.walk false left e [.name n] = .ok m := by
  unfold SourceFile.read at h
  split at h
  · rename_i c hread
    cases h
    obtain ⟨m, hm, hentry⟩ := read_eq_ok_iff.1 hread
    rw [locate_pathOf_iff hl] at hm
    obtain ⟨e, he, hclean⟩ := exists_of_realOf?_append (List.cons_ne_nil n []) hm
    obtain ⟨left, hwalk⟩ := walk_append_of_dir hclean.isDirAt (realOf?_eq_some.1 he)
    have hkey : fs.keyLocation (pathOf (d ++ [n])) = e ++ [] ++ [n] := by
      refine keyLocation_eq_of_splits ?_ ⟨he, nofun⟩
      rw [normalize_pathOf hl, List.append_nil]
    rw [List.append_nil] at hkey
    have hlast := realOf?_eq_some.1 hm
    rw [List.map_append, hwalk] at hlast
    exact ⟨c, m, e, left, rfl, hm, hentry, he, hclean, hkey, hlast⟩
  · cases h

/-- A source file is read as before. -/
theorem Undisturbed.read_source (h : fs.Undisturbed fs') (hclear : fs.Clear)
    (hl : IsLocation (d ++ [n])) (hn : ¬ OfStore n)
    (hread : SourceFile.read fs (pathOf (d ++ [n])) = .ok file) :
    SourceFile.read fs' (pathOf (d ++ [n])) = .ok file := by
  obtain ⟨c, m, e, left, rfl, hm, hc, he, hclean, hkey, -⟩ := exists_of_read hl hread
  obtain ⟨hm', hentry⟩ := h.realOf? hclear (fun k hk => by
    rw [List.getLast?_concat] at hk
    cases hk
    exact hn) hm
  have hkey' : fs'.keyLocation (pathOf (d ++ [n])) = e ++ [] ++ [n] := by
    refine keyLocation_eq_of_splits ?_ ⟨h.realOf?_dir he hclean.isDirAt, nofun⟩
    rw [normalize_pathOf hl, List.append_nil]
  rw [List.append_nil] at hkey'
  have hkeys : fs'.key (pathOf (d ++ [n])) = fs.key (pathOf (d ++ [n])) := by
    rw [key, key, hkey, hkey']
  have hread' : fs'.read (pathOf (d ++ [n])) = .ok c := read_eq_ok_iff.2
    ⟨m, (locate_pathOf_iff hl).2 hm', hentry.trans hc⟩
  rw [SourceFile.read, hread']
  unfold SourceFile.ofContent
  rw [hkeys]

/-- It is read afterwards if and only if it was read before. -/
theorem Undisturbed.source_iff (h : fs.Undisturbed fs') (hclear : fs.Clear)
    (hl : IsLocation (d ++ [n])) (hn : ¬ OfStore n) :
    SourceFile.read fs' (pathOf (d ++ [n])) = .ok file ↔
      SourceFile.read fs (pathOf (d ++ [n])) = .ok file :=
  ⟨h.symm.read_source (h.clear hclear) hl hn, h.read_source hclear hl hn⟩

end Outline.FileSystem
