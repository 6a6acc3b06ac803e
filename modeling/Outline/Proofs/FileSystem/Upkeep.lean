import Outline.Proofs.FileSystem.Plain
import Outline.Proofs.Text.Encoding
import Outline.Store

/-!
# Outline.Proofs.FileSystem.Upkeep

**A store changes no files but its own.** A store in a directory names its files after the
fingerprints of its keys, and no language belongs to such names. What the operations of a store do
to a plain file system comes to making directories where nothing is, and to putting or taking away
files with such names (`Touch`); that leaves a file system plain, keeps all directories, and all
other files as they were (`Keeps`).

Every change goes through `Touch`, so what must survive the upkeep of a store is shown for its three
cases and not for each operation. The operations are taken apart once, at the end of the module.
-/

namespace Outline

open FileSystem (Entry steps pathOf)

/-! ### The names of a store's files

A name is the digits of a fingerprint with the extension behind them. All that is needed of it is
read off this: it is a name (it has no separator and is neither empty nor one of the dots), it tells
the fingerprint, and its extension is that of no language. -/

namespace Store

/-- The characters of the name: hexadecimal digits, a dot and the extension. -/
theorem toList_fileName (key : String) : (fileName key).toList =
    Text.hexOfBytes (Fingerprint.ofContent key.toUTF8.toList).bytes ++
      ['.', 's', 't', 'u', 'b'] := by
  rw [fileName, String.toList_append, String.toList_append, Fingerprint.toHex,
    String.toList_ofList, List.append_assoc]
  rfl

/-- This tells the file apart from settings and from sources, whose names end otherwise. -/
theorem getLast?_fileName (key : String) : (fileName key).toList.getLast? = some 'b' := by
  rw [toList_fileName, List.getLast?_append_of_ne_nil _ (List.cons_ne_nil _ _)]
  rfl

/-- Only digits are written, so a separator, say, cannot be among them. -/
theorem notMem_hexOfBytes {bs : List UInt8} {c : Char} (h : Text.hexValue? c = none) :
    c ∉ Text.hexOfBytes bs := by
  intro hc
  have := Text.isSome_hexValue?_of_mem hc
  rw [h] at this
  cases this

theorem isName_fileName (key : String) : IsName (fileName key) := by
  have hlength : 5 ≤ (fileName key).toList.length := by
    rw [toList_fileName, List.length_append]
    exact Nat.le_add_left 5 _
  constructor
  · rw [toList_fileName, List.mem_append, not_or]
    exact ⟨notMem_hexOfBytes (by decide), by decide⟩
  all_goals
    intro heq
    rw [heq] at hlength
    exact absurd hlength (by decide)

/-- Different keys may have one file if their fingerprints are the same, and only then. -/
theorem fileName_inj {key key' : String} (h : fileName key = fileName key') :
    Fingerprint.ofContent key.toUTF8.toList = Fingerprint.ofContent key'.toUTF8.toList := by
  have hlist := congrArg String.toList h
  rw [toList_fileName, toList_fileName] at hlist
  refine Fingerprint.toHex_injective (String.toList_inj.1 ?_)
  rw [Fingerprint.toHex, Fingerprint.toHex, String.toList_ofList, String.toList_ofList]
  exact List.append_cancel_right hlist

theorem extensionOf?_fileName (key : String) :
    Path.extensionOf? (fileName key) = some fileExtension := by
  -- The extension is sought from the end, and digits have no dot.
  have hreversed : (fileName key).toList.reverse = ['b', 'u', 't', 's'] ++
      '.' :: (Text.hexOfBytes (Fingerprint.ofContent key.toUTF8.toList).bytes).reverse := by
    rw [toList_fileName, List.reverse_append]
    rfl
  have hdigits : ∀ f : Fingerprint, (Text.hexOfBytes f.bytes).reverse ≠ [] := by
    rintro ⟨bs, hlength⟩
    cases bs with
    | nil => cases hlength
    | cons b bs => simp [Text.hexOfBytes, Text.hexOfByte]
  obtain ⟨c, rest, hrest⟩ := List.exists_cons_of_ne_nil (hdigits (.ofContent key.toUTF8.toList))
  rw [Path.extensionOf?, hreversed, hrest]
  rfl

/-- No language belongs to a file of a store. So a store below the directory that is searched adds
nothing to the search. -/
theorem ofPath?_of_fileName {p : Path} {key : String} (h : p.fileName? = some (fileName key)) :
    Language.ofPath? p = none := by
  rw [Language.ofPath?, Path.extension?, h, Option.bind_some, extensionOf?_fileName]
  rfl

end Store

namespace FileSystem

/-- Some store names a file so. -/
def OfStore (n : String) : Prop := ∃ key, n = Store.fileName key

/-- The language of a file is none if a store names it so. A source file is thus never touched by a
store. -/
theorem not_ofStore_of_ofPath? {p : Path} {n : String} (hp : p.fileName? = some n)
    (h : (Language.ofPath? p).isSome) : ¬ OfStore n := by
  rintro ⟨key, rfl⟩
  rw [Store.ofPath?_of_fileName hp] at h
  cases h

variable {fs fs' fs'' : FileSystem} {l d : Location} {n : String} {p : Path} {c : List UInt8}

/-! ### Changes at one location

Putting and taking away change the entry of one location, which is never the root. That the outcome
is plain again has four parts, one for each field of `Plain`; all but the first rest on this, that
no directory is lost. -/

theorem entry?_set (fs : FileSystem) (hl : l ≠ []) (e : Entry) (k : Location) :
    entry? (fs.set l e) k = if k = l then some e else fs.entry? k := by
  cases k with
  | nil => rw [if_neg (Ne.symm hl)]; rfl
  | cons n k => exact Table.get?_insert _ _ _ _

theorem entry?_erase (fs : FileSystem) (hl : l ≠ []) (k : Location) :
    entry? { fs with entries := fs.entries.erase l } k =
      if k = l then none else fs.entry? k := by
  cases k with
  | nil => rw [if_neg (Ne.symm hl)]; rfl
  | cons n k => exact Table.get?_erase _ _ _

/-- A file that is none of a store is not where one of a store is. -/
theorem append_ne_of_not_ofStore {k : Location} {key : String} (hn : ¬ OfStore n) :
    l ++ [n] ≠ k ++ [Store.fileName key] := fun h =>
  hn ⟨key, eq_of_append_singleton h⟩

namespace Plain

/-- A file or a directory may be put into a directory, but no file in place of a directory. -/
theorem set (h : fs.Plain) (hd : fs.isDirAt d = true) (hn : IsName n) {e : Entry}
    (he : e = .directory ∨ (∃ c, e = .file c) ∧ fs.isDirAt (d ++ [n]) = false) :
    (fs.set (d ++ [n]) e).Plain := by
  have hentry := fun k => entry?_set fs (append_singleton_ne_nil d n) e k
  -- A directory stays one, even at the location itself: no file is put in its place.
  have hdirs : ∀ k, fs.isDirAt k = true → (fs.set (d ++ [n]) e).isDirAt k = true := by
    intro k hk
    rw [isDirAt_iff, hentry]
    split
    · rename_i hkn
      rcases he with rfl | ⟨-, hfile⟩
      · rfl
      · rw [hkn, hfile] at hk
        cases hk
    · exact isDirAt_iff.1 hk
  constructor
  -- Names: a location is an old one, or the directory with the new name behind it.
  · intro k hk
    rw [hentry] at hk
    split at hk
    · rename_i hkn
      rw [hkn]
      intro m hm
      rcases List.mem_append.1 hm with hm | hm
      · exact h.names d (isSome_of_isDirAt hd) m hm
      · exact List.mem_singleton.1 hm ▸ hn
    · exact h.names k hk
  -- Around the new entry is the directory that it was put into.
  · intro k m hk
    rw [hentry] at hk
    split at hk
    · rename_i hkn
      rw [(List.append_inj' hkn rfl).1]
      exact hdirs d hd
    · exact hdirs k (h.parent k m hk)
  · intro k target hk
    rw [hentry] at hk
    split at hk
    · rcases he with rfl | ⟨⟨c, rfl⟩, -⟩ <;> cases hk
    · exact h.noLinks k target hk
  · exact hdirs _ h.current

/-- A file may be taken away. -/
theorem erase (h : fs.Plain) (hn : fs.isDirAt (d ++ [n]) = false) :
    ({ fs with entries := fs.entries.erase (d ++ [n]) } : FileSystem).Plain := by
  have hentry := fun k => entry?_erase fs (append_singleton_ne_nil d n) k
  -- What is taken away is no directory, and so nothing that others are in.
  have hdirs : ∀ k, fs.isDirAt k = true →
      ({ fs with entries := fs.entries.erase (d ++ [n]) } : FileSystem).isDirAt k = true := by
    intro k hk
    rw [isDirAt_iff, hentry, if_neg]
    · exact isDirAt_iff.1 hk
    · rintro rfl
      rw [hn] at hk
      cases hk
  constructor
  · intro k hk
    rw [hentry] at hk
    split at hk
    · cases hk
    · exact h.names k hk
  · intro k m hk
    rw [hentry] at hk
    split at hk
    · cases hk
    · exact hdirs k (h.parent k m hk)
  · intro k target hk
    rw [hentry] at hk
    split at hk
    · cases hk
    · exact h.noLinks k target hk
  · exact hdirs _ h.current

end Plain

/-! ### What the operations of a store do

`Keeps` is what loaders rely on while the store is being written: it is reflexive and transitive,
and holds of each `Touch`. It says nothing of files with the names of a store, for these come and
go. -/

/-- What a store may do to files: make a directory where nothing is, put down a file of its own with
bytes that are fit for its key, and take one away. -/
inductive Touch (fit : String → List UInt8 → Prop) (fs : FileSystem) : FileSystem → Prop
  | dir {d : Location} {n : String} (hd : fs.isDirAt d = true) (hn : IsName n)
    (hfree : fs.entry? (d ++ [n]) = none) : Touch fit fs (fs.set (d ++ [n]) .directory)
  | file {d : Location} {key : String} {c : List UInt8} (hd : fs.isDirAt d = true)
    (hfile : fs.isDirAt (d ++ [Store.fileName key]) = false) (hc : fit key c) :
    Touch fit fs (fs.set (d ++ [Store.fileName key]) (.file c))
  | erase {d : Location} {key : String} (hfile : fs.isDirAt (d ++ [Store.fileName key]) = false) :
    Touch fit fs { fs with entries := fs.entries.erase (d ++ [Store.fileName key]) }

/-- All directories are kept, and all files but those of stores are the same. -/
structure Keeps (fs fs' : FileSystem) : Prop where
  current : fs'.current = fs.current
  dirs : ∀ l, fs.isDirAt l = true → fs'.isDirAt l = true
  files : ∀ l n c, ¬ OfStore n →
    (fs'.entry? (l ++ [n]) = some (.file c) ↔ fs.entry? (l ++ [n]) = some (.file c))

theorem Keeps.refl (fs : FileSystem) : fs.Keeps fs :=
  ⟨rfl, fun _ h => h, fun _ _ _ _ => .rfl⟩

theorem Keeps.trans (h : fs.Keeps fs') (h' : fs'.Keeps fs'') : fs.Keeps fs'' :=
  ⟨h'.current.trans h.current, fun l hl => h'.dirs l (h.dirs l hl),
    fun l n c hn => (h'.files l n c hn).trans (h.files l n c hn)⟩

/-- Source files are the same. A source has a language, hence a name that no store gives; and a file
has a name at all, for the root is a directory. -/
theorem Keeps.source_iff (h : fs.Keeps fs') (hplain : fs.Plain) (hplain' : fs'.Plain)
    (hsource : (Language.ofPath? (pathOf l)).isSome) :
    fs'.entry? l = some (.file c) ↔ fs.entry? l = some (.file c) := by
  -- Whichever of the two file systems the file is in, its location ends in such a name.
  have hname : ∀ files : FileSystem, files.Plain → files.entry? l = some (.file c) →
      ∃ d n, l = d ++ [n] ∧ ¬ OfStore n := by
    intro files hfiles he
    obtain ⟨d, n, rfl⟩ := exists_append_of_file he
    have hlocation := hfiles.names _ (by rw [he]; rfl)
    exact ⟨d, n, rfl, not_ofStore_of_ofPath? (fileName?_pathOf_append hlocation) hsource⟩
  constructor
  · intro he
    obtain ⟨d, n, rfl, hn⟩ := hname fs' hplain' he
    exact (h.files d n c hn).1 he
  · intro he
    obtain ⟨d, n, rfl, hn⟩ := hname fs hplain he
    exact (h.files d n c hn).2 he

variable {fit : String → List UInt8 → Prop}

/-- Whatever a store does, the files stay plain. -/
theorem Plain.touch (h : fs.Plain) (ht : fs.Touch fit fs') : fs'.Plain := by
  cases ht with
  | dir hd hn hfree => exact h.set hd hn (.inl rfl)
  | file hd hfile hc => exact h.set hd (Store.isName_fileName _) (.inr ⟨⟨_, rfl⟩, hfile⟩)
  | erase hfile => exact h.erase hfile

/-- Whatever a store does, directories and the files of others stay as they are. A new directory is
made where nothing was, so it takes the place of no file; a file of a store stands where no
directory is and where no other file can be. -/
theorem Touch.keeps (ht : fs.Touch fit fs') : fs.Keeps fs' := by
  cases ht with
  | @dir d n hd hn hfree =>
      have hentry := fun k => entry?_set fs (append_singleton_ne_nil d n) .directory k
      refine ⟨rfl, fun l hl => ?_, fun l m c hm => ?_⟩
      · rw [isDirAt_iff, hentry]
        split
        · rfl
        · exact isDirAt_iff.1 hl
      · rw [hentry]
        split
        · rename_i hlm
          rw [hlm, hfree]
          exact ⟨(nomatch ·), (nomatch ·)⟩
        · rfl
  | @file d key content hd hfile hc =>
      have hentry := fun k =>
        entry?_set fs (append_singleton_ne_nil d (Store.fileName key)) (.file content) k
      refine ⟨rfl, fun l hl => ?_, fun l m c hm => ?_⟩
      · rw [isDirAt_iff, hentry, if_neg]
        · exact isDirAt_iff.1 hl
        · rintro rfl
          rw [hfile] at hl
          cases hl
      · rw [hentry, if_neg (append_ne_of_not_ofStore hm)]
  | @erase d key hfile =>
      have hentry := fun k =>
        entry?_erase fs (append_singleton_ne_nil d (Store.fileName key)) k
      refine ⟨rfl, fun l hl => ?_, fun l m c hm => ?_⟩
      · rw [isDirAt_iff, hentry, if_neg]
        · exact isDirAt_iff.1 hl
        · rintro rfl
          rw [hfile] at hl
          cases hl
      · rw [hentry, if_neg (append_ne_of_not_ofStore hm)]

namespace Plain

variable {dir : Path} {key : String}

/-- To make a directory is to put it where nothing is. -/
theorem touch_of_makeDir (h : fs.Plain) (hmake : fs.makeDir p = .ok fs') :
    fs.Touch fit fs' := by
  obtain ⟨place, hplace, hmake⟩ := exists_of_bind_ok hmake
  rcases h.exists_of_place? hplace with rfl | ⟨d, n, rfl, hd, hn⟩
  · cases hmake
  · dsimp only at hmake
    split at hmake
    · cases hmake
    · rename_i hfree
      cases hmake
      exact .dir hd (isName_of_mem_steps (List.mem_of_getLast? hn))
        (Option.not_isSome_iff_eq_none.1 hfree)

/-- The last step to a file of a store is its name. -/
theorem exists_of_place?_fileOf (h : fs.Plain) {place : Option Location}
    (hp : fs.place? (Store.fileOf dir key) = .ok place) :
    place = none ∨ ∃ d, place = some (d ++ [Store.fileName key]) ∧ fs.isDirAt d = true := by
  rcases h.exists_of_place? hp with rfl | ⟨d, n, rfl, hd, hn⟩
  · exact .inl rfl
  · rw [Store.fileOf, getLast?_steps_join dir (Store.isName_fileName key)] at hn
    cases hn
    exact .inr ⟨d, rfl, hd⟩

/-- To replace a file of a store is to put one with its name where no directory is. A temporary file
on the way there would be gone afterwards, so this is one step. -/
theorem touch_of_replace_fileOf (h : fs.Plain) (hc : fit key c)
    (hr : fs.replace (Store.fileOf dir key) c = .ok fs') : fs.Touch fit fs' := by
  obtain ⟨place, hplace, hr⟩ := exists_of_bind_ok hr
  rcases h.exists_of_place?_fileOf hplace with rfl | ⟨d, rfl, hd⟩
  · cases hr
  · dsimp only at hr
    split at hr
    · cases hr
    · rename_i hfile
      cases hr
      exact .file hd (Bool.not_eq_true _ ▸ hfile) hc

/-- To remove a file of a store is to take away what has its name and is no directory. -/
theorem touch_of_remove_fileOf (h : fs.Plain)
    (hr : fs.remove (Store.fileOf dir key) = .ok fs') : fs.Touch fit fs' := by
  obtain ⟨place, hplace, hr⟩ := exists_of_bind_ok hr
  rcases h.exists_of_place?_fileOf hplace with rfl | ⟨d, rfl, hd⟩
  · cases hr
  · dsimp only at hr
    split at hr
    · cases hr
    · cases hr
    · rename_i e hnotDir he
      split at hr
      · cases hr
      · cases hr
        -- What was found there is neither a directory nor nothing.
        refine .erase ?_
        cases hdir : fs.isDirAt (d ++ [Store.fileName key]) with
        | false => rfl
        | true => exact absurd (Option.some.inj (he.symm.trans (isDirAt_iff.1 hdir))) hnotDir

/-- What is read from a file of a store stands under its name. -/
theorem exists_of_read_fileOf (h : fs.Plain) (hread : fs.read (Store.fileOf dir key) = .ok c) :
    ∃ d, fs.entry? (d ++ [Store.fileName key]) = some (.file c) := by
  obtain ⟨-, he⟩ := h.exists_of_read hread
  have hlast := getLast?_steps_join dir (Store.isName_fileName key)
  obtain ⟨r, hr⟩ := List.getLast?_eq_some_iff.1 hlast
  rw [normalize_eq_foldl_steps, Store.fileOf, hr, List.foldl_append] at he
  exact ⟨_, he⟩

end Plain

/-- What holds after each new directory holds when all around a directory are made. The cases are
those of the function: the directory can be made at once, or is there, or those around it have to be
made first. -/
theorem makeDirs_induction {motive : FileSystem → Prop}
    (hmake : ∀ fs fs' p, motive fs → fs.makeDir p = .ok fs' → motive fs') (h : motive fs)
    (hdirs : fs.makeDirs p = .ok fs') : motive fs' := by
  unfold makeDirs at hdirs
  generalize p.components.length = around at hdirs
  fun_induction makeDirsWithin fs p around generalizing fs' with
  | case1 | case5 =>
      cases hdirs
      exact h
  | case2 _ _ _ _ hone =>
      cases hdirs
      exact hmake _ _ _ h hone
  | case3 | case6 => cases hdirs
  | case4 _ _ _ _ _ _ ih =>
      obtain ⟨files, habove, hdirs⟩ := exists_of_bind_ok hdirs
      split at hdirs
      · rename_i hone
        cases hdirs
        exact hmake _ _ _ (ih habove) hone
      · split at hdirs
        · cases hdirs
          exact ih habove
        · cases hdirs

end FileSystem

end Outline
