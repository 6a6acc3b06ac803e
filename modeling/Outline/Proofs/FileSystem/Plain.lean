import Outline.Proofs.FileSystem.Contents
import Outline.Proofs.FileSystem.Resolution

/-!
# Outline.Proofs.FileSystem.Plain

**Without links a path leads to the location that it spells.** A file system of files and
directories only, in which everything stands in a directory, is plain. There a walk ends at the
names that are left when its steps are taken (`Plain.walk_eq`), so a path has no location but that
of its normal form (`Plain.locate_eq`), the path of a location leads to it (`Plain.locate_pathOf`),
and the key of a file spells its location (`Plain.key_eq`).

Everything comes from one induction along the steps of a walk. A step to a name has three cases and
no fourth: a directory is entered, a file ends the walk, and a link there is none.
-/

namespace Outline.FileSystem

/-- A file system of files and directories, each with a name and in a directory. -/
structure Plain (fs : FileSystem) : Prop where
  names : ∀ l, (fs.entry? l).isSome → IsLocation l
  parent : ∀ l n, (fs.entry? (l ++ [n])).isSome → fs.isDirAt l = true
  noLinks : ∀ l target, fs.entry? l ≠ some (.link target)
  current : fs.isDirAt fs.current = true

variable {fs fs' : FileSystem} {l m : Location} {n : String} {p : Path} {c : List UInt8}

theorem plain_empty : ({} : FileSystem).Plain where
  names l h := by
    cases l with
    | nil => exact fun n hn => absurd hn List.not_mem_nil
    | cons n l => cases h
  parent l n h := by
    cases l <;> cases h
  noLinks l target h := by
    cases l <;> cases h
  current := rfl

namespace Plain

/-- What is above a directory is a directory; the root is above itself. -/
theorem isDirAt_dropLast (h : fs.Plain) (hl : fs.isDirAt l = true) :
    fs.isDirAt l.dropLast = true := by
  cases l using List.reverseRecOn with
  | nil => exact hl
  | append_singleton d n =>
      rw [List.dropLast_concat]
      exact h.parent d n (isSome_of_isDirAt hl)

/-- All that is around something is a directory. -/
theorem isDirAt_of_append (h : fs.Plain) {names : List String} (hne : names ≠ [])
    (hl : (fs.entry? (l ++ names)).isSome) : fs.isDirAt l = true := by
  -- from the last name towards the first: `parent` goes up by one
  induction names using List.reverseRecOn with
  | nil => exact absurd rfl hne
  | append_singleton names n ih =>
      rw [← List.append_assoc] at hl
      have hdir := h.parent _ n hl
      by_cases hnil : names = []
      · rwa [hnil, List.append_nil] at hdir
      · exact ih hnil (isSome_of_isDirAt hdir)

/-- No link leads to a directory. -/
theorem clean (h : fs.Plain) (hl : fs.isDirAt l = true) : fs.Clean l := by
  intro k hk
  obtain ⟨names, rfl⟩ := hk
  by_cases hnil : names = []
  · rwa [hnil, List.append_nil] at hl
  · exact h.isDirAt_of_append hnil (isSome_of_isDirAt hl)

/-- No link leads to anything. -/
theorem standing (h : fs.Plain) (hl : (fs.entry? l).isSome) : fs.Standing l := by
  obtain ⟨e, he⟩ := Option.isSome_iff_exists.1 hl
  cases e with
  | directory => exact .directory (h.clean (isDirAt_iff.2 he))
  | link target => exact absurd he (h.noLinks l target)
  | file c =>
      obtain ⟨d, n, rfl⟩ := exists_append_of_file he
      exact .file (h.clean (h.parent d n hl)) he

/-! ### Walks

A walk keeps no more than where it is, so the induction is for all beginnings that are directories.
A file can only be the end: with steps left behind it the walk fails. -/

/-- A walk ends where its steps lead, and something is there: a directory, unless the last step is
to a name. -/
theorem walk_eq (h : fs.Plain) {steps : List Step} {links : Nat} (hl : fs.isDirAt l = true)
    (hm : fs.walk false links l steps = .ok m) :
    m = steps.foldl Step.follow l ∧ (fs.entry? m).isSome ∧
      (fs.isDirAt m = true ∨ ∃ n, steps.getLast? = some (.name n)) := by
  induction steps generalizing l with
  | nil =>
      rw [walk] at hm
      cases hm
      exact ⟨rfl, isSome_of_isDirAt hl, .inl hl⟩
  | cons s r ih =>
      have hlast : ∀ n, r.getLast? = some (.name n) → (s :: r).getLast? = some (.name n) := by
        intro n hn
        rw [List.getLast?_cons, hn]
        rfl
      -- once a step leads to a directory, the rest of the walk has the claim by induction
      have hrest : fs.isDirAt (Step.follow l s) = true →
          fs.walk false links (Step.follow l s) r = .ok m →
          m = (s :: r).foldl Step.follow l ∧ (fs.entry? m).isSome ∧
            (fs.isDirAt m = true ∨ ∃ n, (s :: r).getLast? = some (.name n)) := by
        intro hdir hm
        obtain ⟨hm, hsome, hend⟩ := ih hdir hm
        exact ⟨hm, hsome, hend.imp_right (Exists.imp hlast)⟩
      cases s with
      | here =>
          rw [walk] at hm
          exact hrest hl hm
      | up =>
          rw [walk] at hm
          exact hrest (h.isDirAt_dropLast hl) hm
      | name n =>
          rw [walk] at hm
          cases he : fs.entry? (l ++ [n]) with
          | none =>
              rw [he] at hm
              cases hm
          | some e =>
              rw [he] at hm
              cases e with
              | directory => exact hrest (isDirAt_iff.2 he) hm
              | link target => exact absurd he (h.noLinks _ target)
              -- a file: the end of the walk, or its failure
              | file c =>
                  cases r with
                  | nil =>
                      cases hm
                      exact ⟨rfl, by rw [he]; rfl, .inr ⟨n, rfl⟩⟩
                  | cons s r => cases hm

/-- From name to name one comes through directories. -/
theorem walk_dirs (h : fs.Plain) {names : List String} {links : Nat}
    (hl : fs.isDirAt (l ++ names) = true) (rest : List Step) :
    fs.walk false links l (names.map .name ++ rest) = fs.walk false links (l ++ names) rest :=
  (h.clean hl).walk_names rest

/-- From name to name one comes to whatever is there. -/
theorem walk_names (h : fs.Plain) {names : List String} {links : Nat}
    (hl : (fs.entry? (l ++ names)).isSome) :
    fs.walk false links l (names.map .name) = .ok (l ++ names) := by
  cases names using List.reverseRecOn with
  | nil => rw [List.map_nil, walk, List.append_nil]
  | append_singleton names n =>
      -- all but the last name are directories, so only the last step is looked at
      rw [← List.append_assoc] at hl ⊢
      rw [List.map_append, h.walk_dirs (h.parent _ n hl), List.map_singleton, walk]
      obtain ⟨e, he⟩ := Option.isSome_iff_exists.1 hl
      rw [he]
      cases e with
      | directory =>
          show fs.walk false links (l ++ names ++ [n]) [] = _
          rw [walk]
      | file c => rfl
      | link target => exact absurd he (h.noLinks _ target)

/-- A way to a directory stays when directories stay. -/
theorem walk_mono (h : fs.Plain) (hdirs : ∀ k, fs.isDirAt k = true → fs'.isDirAt k = true)
    {steps : List Step} {links : Nat} (hl : fs.isDirAt l = true)
    (hwalk : fs.walk false links l steps = .ok m) (hm : fs.isDirAt m = true) :
    fs'.walk false links l steps = .ok m := by
  induction steps generalizing l with
  | nil =>
      rw [walk] at hwalk ⊢
      exact hwalk
  | cons s r ih =>
      cases s with
      | here =>
          rw [walk] at hwalk ⊢
          exact ih hl hwalk
      | up =>
          rw [walk] at hwalk ⊢
          exact ih (h.isDirAt_dropLast hl) hwalk
      | name n =>
          rw [walk] at hwalk ⊢
          cases he : fs.entry? (l ++ [n]) with
          | none =>
              rw [he] at hwalk
              cases hwalk
          | some e =>
              rw [he] at hwalk
              cases e with
              -- what was entered is a directory still, so the other file system enters it too
              | directory =>
                  rw [isDirAt_iff.1 (hdirs _ (isDirAt_iff.2 he))]
                  exact ih (isDirAt_iff.2 he) hwalk
              | link target => exact absurd he (h.noLinks _ target)
              -- the end is a directory, so no file was stepped on
              | file c =>
                  cases r with
                  | nil =>
                      cases hwalk
                      rw [isDirAt_iff.1 hm] at he
                      cases he
                  | cons s r => cases hwalk

/-! ### Locations

A path without links has only one meaning, its normal form. So everything that is said of paths
comes down to what is said of locations, which are compared without walking. -/

/-- Every walk begins in a directory, at the root or in the current one. -/
theorem isDirAt_start (h : fs.Plain) (p : Path) : fs.isDirAt (fs.start p) = true := by
  unfold start
  split
  · exact fs.isDirAt_nil
  · exact h.current

/-- A closing slash is one more step to where one is already. -/
theorem foldl_allSteps (p : Path) (l : Location) :
    (allSteps p).foldl Step.follow l = (steps p).foldl Step.follow l := by
  rw [allSteps, List.foldl_append]
  split <;> rfl

/-- A path has no location but the one that it spells. -/
theorem locate_eq (h : fs.Plain) (hm : fs.locate p = .ok m) :
    m = p.normalize fs.current ∧ (fs.entry? m).isSome := by
  unfold locate at hm
  split at hm
  · cases hm
  · obtain ⟨hm, hsome, -⟩ := h.walk_eq (h.isDirAt_start p) hm
    rw [foldl_allSteps, ← normalize_eq_foldl_steps] at hm
    exact ⟨hm, hsome⟩

/-- The path of something leads to it. -/
theorem locate_pathOf (h : fs.Plain) (hm : (fs.entry? m).isSome) :
    fs.locate (pathOf m) = .ok m :=
  (h.standing hm).locate_pathOf (h.names m hm)

/-- The path of a directory is one. -/
theorem isDir_pathOf (h : fs.Plain) (hl : fs.isDirAt l = true) : fs.isDir (pathOf l) = true := by
  unfold isDir
  rw [h.locate_pathOf (isSome_of_isDirAt hl)]
  exact hl

/-- A path that spells the location of no file is no file. -/
theorem isFile_eq_false (h : fs.Plain)
    (hp : ∀ c, fs.entry? (p.normalize fs.current) ≠ some (.file c)) : fs.isFile p = false := by
  unfold isFile
  cases hm : fs.locate p with
  | error e => rfl
  | ok m =>
      obtain ⟨rfl, hsome⟩ := h.locate_eq hm
      obtain ⟨e, he⟩ := Option.isSome_iff_exists.1 hsome
      cases e with
      | directory =>
          show (!fs.isDirAt _) = false
          rw [isDirAt_iff.2 he]
          rfl
      | file c => exact absurd he (hp c)
      | link target => exact absurd he (h.noLinks _ target)

/-- A path to a directory leads there still when directories were only added. -/
theorem locate_mono (h : fs.Plain) (hdirs : ∀ k, fs.isDirAt k = true → fs'.isDirAt k = true)
    (hcurrent : fs'.current = fs.current) (hwalk : fs.locate p = .ok m)
    (hm : fs.isDirAt m = true) : fs'.locate p = .ok m := by
  unfold locate start at hwalk ⊢
  rw [hcurrent]
  split
  · rename_i hempty
    rw [if_pos hempty] at hwalk
    cases hwalk
  · rename_i hempty
    rw [if_neg hempty] at hwalk
    exact h.walk_mono hdirs (h.isDirAt_start p) hwalk hm

/-- What is read is the content of the file to which the path leads. -/
theorem exists_of_read (h : fs.Plain) (hread : fs.read p = .ok c) :
    fs.locate p = .ok (p.normalize fs.current) ∧
      fs.entry? (p.normalize fs.current) = some (.file c) := by
  obtain ⟨m, hm, he⟩ := read_eq_ok_iff.1 hread
  obtain ⟨rfl, -⟩ := h.locate_eq hm
  exact ⟨hm, he⟩

/-- The path of a file reads the file. -/
theorem read_pathOf (h : fs.Plain) (hm : fs.entry? m = some (.file c)) :
    fs.read (pathOf m) = .ok c :=
  read_eq_ok_iff.2 ⟨m, h.locate_pathOf (by rw [hm]; rfl), hm⟩

/-- The key of something that is there spells its location. -/
theorem key_eq (h : fs.Plain) (hm : (fs.entry? (p.normalize fs.current)).isSome) :
    fs.key p = (pathOf (p.normalize fs.current)).text := by
  unfold key keyLocation
  cases hnames : p.normalize fs.current using List.reverseRecOn with
  | nil => rfl
  | append_singleton d n =>
      rw [hnames] at hm
      rw [List.reverse_append]
      show (pathOf (fs.realPrefix d.reverse ++ [n])).text = _
      -- the directory of the key has no links to follow: its real location is itself
      have hd : fs.realPrefix d.reverse = d := by
        cases d using List.reverseRecOn with
        | nil => rfl
        | append_singleton d k =>
            have hdir := isSome_of_isDirAt (h.parent _ n hm)
            rw [List.reverse_append]
            show fs.realPrefix (k :: d.reverse) = _
            have hwalk : fs.walk false maxLinks [] ((d ++ [k]).map .name) = .ok (d ++ [k]) :=
              h.walk_names hdir
            rw [realPrefix, realOf?, List.reverse_cons, List.reverse_reverse, hwalk]
            rfl
      rw [hd]

/-! ### Places

A place is where something new would stand: the directory is walked to and the last name is left. -/

/-- A path names a place in a directory. -/
theorem exists_of_place? (h : fs.Plain) {place : Option Location}
    (hp : fs.place? p = .ok place) :
    place = none ∨ ∃ d n, place = some (d ++ [n]) ∧ fs.isDirAt d = true ∧
      (steps p).getLast? = some (.name n) := by
  unfold place? at hp
  split at hp
  · cases hp
  · obtain ⟨d, hd, hp⟩ := exists_of_bind_ok hp
    -- the walk to the directory closes with a step to where one is, so it ends at no file
    obtain ⟨-, -, hdir | ⟨n, hn⟩⟩ := h.walk_eq (h.isDirAt_start p) hd
    · split at hp
      · rename_i n hn
        cases hp
        exact .inr ⟨d, n, rfl, hdir, hn⟩
      · cases hp
        exact .inl rfl
    · rw [List.getLast?_concat] at hn
      cases hn

/-- The path of a directory names its place in the directory around it. -/
theorem place?_pathOf_append (h : fs.Plain) (hl : (fs.entry? (l ++ [n])).isSome) :
    fs.place? (pathOf (l ++ [n])) = .ok (some (l ++ [n])) := by
  have hlocation := h.names _ hl
  have hwalk : fs.walk false maxLinks [] (l.map .name ++ [.here]) = .ok l := by
    rw [h.walk_dirs (l := []) (h.parent l n hl), walk, walk]
    rfl
  rw [place?, isEmpty_pathOf, if_neg Bool.false_ne_true, start, isAbsolute_pathOf, if_pos rfl,
    steps_pathOf hlocation, List.map_append, List.map_singleton, List.dropLast_concat, hwalk,
    List.getLast?_concat]
  rfl

/-- To make a directory that is there changes nothing. -/
theorem makeDirs_pathOf (h : fs.Plain) (hl : fs.isDirAt l = true) :
    fs.makeDirs (pathOf l) = .ok fs := by
  have hmake : fs.makeDir (pathOf l) = .error .alreadyExists := by
    cases l using List.reverseRecOn with
    -- the root is no place in a directory, and still is there already
    | nil =>
        have hplace : fs.place? (pathOf []) = .ok none := by
          have hwalk : fs.walk false maxLinks [] [.here] = .ok [] := by rw [walk, walk]
          show fs.walk false maxLinks [] [.here] >>= _ = _
          rw [hwalk]
          rfl
        rw [makeDir, make, hplace]
        rfl
    | append_singleton d n =>
        rw [makeDir, make, h.place?_pathOf_append (isSome_of_isDirAt hl)]
        show (if (fs.entry? (d ++ [n])).isSome then _ else _) = _
        rw [if_pos (isSome_of_isDirAt hl)]
  unfold makeDirs makeDirsWithin
  rw [isEmpty_pathOf, if_neg Bool.false_ne_true, hmake]
  exact if_pos (h.isDir_pathOf hl)

end Plain

end Outline.FileSystem
