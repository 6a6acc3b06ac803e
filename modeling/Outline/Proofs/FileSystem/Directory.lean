import Outline.FileSystem.Temporary
import Outline.Proofs.FileSystem.Below
import Outline.Proofs.FileSystem.Ways

/-!
# Outline.Proofs.FileSystem.Directory

**In a directory, a path with one more name leads to what stands there under the name.** This is so
however the directory is spelled, and also if links lead to it (`Opens`), as long as what stands
there is no link itself. So the operations on such a path are told by the entry of the name. In
particular a file that is put in place by way of a temporary one is put there as if at once
(`Opens.replaceThrough_join`).

The directory may be spelled through links and with steps upwards; that costs links, of which some
are left when it is reached. Therefore a walk to a name in it is told with the number that is left
(`exists_walk_join`), and no lemma after that depends on the number.
-/

namespace Outline.FileSystem

variable {fs fs' : FileSystem} {dir : Path} {d l : Location} {n : String} {e : Entry}
  {c content : List UInt8}

/-- A path that ends in a name is not empty. -/
theorem EndsIn.isEmpty_eq_false {p : Path} (hp : EndsIn p n) : p.text.isEmpty = false := by
  rw [Bool.eq_false_iff]
  intro hempty
  have hlast := hp.last
  rw [steps, String.isEmpty_iff.1 hempty] at hlast
  cases hlast

theorem locate_eq_walk {p : Path} (hp : p.text.isEmpty = false) :
    fs.locate p = fs.walk false maxLinks (fs.start p) (allSteps p) := by
  rw [FileSystem.locate, hp, if_neg Bool.false_ne_true]

/-- A path leads to a directory. -/
structure Opens (fs : FileSystem) (dir : Path) (d : Location) : Prop where
  locate : fs.locate dir = .ok d
  isDir : fs.isDirAt d = true

/-- Where names can be listed there is a directory, and these are its names. -/
theorem exists_opens_of_list? {names : List String} (h : fs.list? dir = .ok names) :
    ∃ d, fs.Opens dir d ∧ names = fs.namesAt d := by
  obtain ⟨d, hd, h⟩ := exists_of_bind_ok h
  split at h
  · rename_i hdir
    cases h
    exact ⟨d, ⟨hd, hdir⟩, rfl⟩
  · cases h

namespace Opens

variable (h : fs.Opens dir d)
include h

theorem list?_eq : fs.list? dir = .ok (fs.namesAt d) := by
  rw [list?, h.locate]
  exact if_pos h.isDir

/-- What a path spells that leads somewhere is not empty. -/
theorem isEmpty_eq_false : dir.text.isEmpty = false := by
  have hlocate := h.locate
  unfold FileSystem.locate at hlocate
  split at hlocate
  · cases hlocate
  · rename_i hempty
    exact Bool.eq_false_iff.2 hempty

/-- A directory is reached by the steps of its path, whether or not this ends in a slash. -/
theorem walk_steps : fs.walk false maxLinks (fs.start dir) (steps dir) = .ok d := by
  have hlocate := h.locate
  rw [locate_eq_walk h.isEmpty_eq_false, allSteps] at hlocate
  split at hlocate
  · exact (List.append_nil (steps dir)) ▸ walk_drop_here hlocate
  · rwa [List.append_nil] at hlocate

theorem start_join (hn : IsName n) : fs.start (dir.join ⟨n⟩) = fs.start dir := by
  have hne : dir.text.toList ≠ [] := fun hnil => by
    have hempty := h.isEmpty_eq_false
    rw [String.toList_eq_nil_iff.1 hnil] at hempty
    cases hempty
  -- a name that is joined changes nothing at the beginning of the path
  have habsolute : (dir.join ⟨n⟩).isAbsolute = dir.isAbsolute := by
    rw [Path.join, isAbsolute_mk hn, if_neg Bool.false_ne_true, Path.isAbsolute, Path.isAbsolute]
    split
    · rw [String.toList_append, List.head?_append_of_ne_nil _ hne]
    · rw [String.toList_append, String.toList_append, List.append_assoc,
        List.head?_append_of_ne_nil _ hne]
  rw [start, start, habsolute]

/-- The directory around a path with one more name. -/
theorem around_join (hn : IsName n) : fs.around (dir.join ⟨n⟩) = .ok d := by
  obtain ⟨left, hwalk⟩ := walk_append_of_dir h.isDir h.walk_steps
  rw [around, (endsIn_join dir hn).isEmpty_eq_false, if_neg Bool.false_ne_true, h.start_join hn,
    steps_join dir hn, List.dropLast_concat, hwalk, walk, walk]

/-- A way through the directory to what stands there under a name. -/
theorem exists_walk_join (hn : IsName n) : ∃ left, ∀ creating,
    fs.walk creating maxLinks (fs.start (dir.join ⟨n⟩)) (allSteps (dir.join ⟨n⟩)) =
      fs.walk creating left d [.name n] := by
  obtain ⟨left, hwalk⟩ := walk_append_of_dir h.isDir h.walk_steps
  refine ⟨left, fun creating => ?_⟩
  rw [allSteps, (endsIn_join dir hn).noSlash, if_neg Bool.false_ne_true, List.append_nil,
    h.start_join hn, steps_join dir hn, hwalk]

/-! ### Operations on what stands under a name

Each operation is told by the entry at `d ++ [n]` before it. With these equations a sequence of
operations is computed without walking, as long as the directory stays open. -/

theorem place?_join (hn : IsName n) : fs.place? (dir.join ⟨n⟩) = .ok (some (d ++ [n])) := by
  rw [(endsIn_join dir hn).place?_eq, h.around_join hn]
  rfl

theorem read_join (hn : IsName n) (he : fs.entry? (d ++ [n]) = some (.file c)) :
    fs.read (dir.join ⟨n⟩) = .ok c := by
  obtain ⟨left, hwalk⟩ := h.exists_walk_join hn
  refine read_eq_ok_iff.2 ⟨d ++ [n], ?_, he⟩
  rw [locate_eq_walk (endsIn_join dir hn).isEmpty_eq_false, hwalk, walk, he]
  rfl

theorem read_join_of_none (hn : IsName n) (he : fs.entry? (d ++ [n]) = none) :
    fs.read (dir.join ⟨n⟩) = .error .notFound := by
  obtain ⟨left, hwalk⟩ := h.exists_walk_join hn
  rw [read, locate_eq_walk (endsIn_join dir hn).isEmpty_eq_false, hwalk, walk, he]
  rfl

theorem make_join (hn : IsName n) (he : fs.entry? (d ++ [n]) = none) (e : Entry) :
    fs.make (dir.join ⟨n⟩) e = .ok (fs.set (d ++ [n]) e) := by
  rw [make, h.place?_join hn]
  show (if (fs.entry? (d ++ [n])).isSome then _ else _) = _
  rw [he]
  rfl

theorem write_join (hn : IsName n) (he : fs.entry? (d ++ [n]) = some (.file c))
    (content : List UInt8) :
    fs.write (dir.join ⟨n⟩) content = .ok (fs.set (d ++ [n]) (.file content)) := by
  obtain ⟨left, hwalk⟩ := h.exists_walk_join hn
  have hdir : fs.isDirAt (d ++ [n]) = false := by
    rw [isDirAt, he]
    rfl
  rw [write, (endsIn_join dir hn).isEmpty_eq_false, hwalk, walk, he]
  show (if fs.isDirAt (d ++ [n]) = true then _ else _) = _
  rw [hdir]
  rfl

theorem replace_join (hn : IsName n) (c : List UInt8) :
    fs.replace (dir.join ⟨n⟩) c =
      if fs.isDirAt (d ++ [n]) then .error .isADirectory
      else .ok (fs.set (d ++ [n]) (.file c)) := by
  rw [replace, h.place?_join hn]
  rfl

theorem renameFile_join {t : String} (ht : IsName t) (hn : IsName n)
    (he : fs.entry? (d ++ [t]) = some (.file c)) :
    fs.renameFile (dir.join ⟨t⟩) (dir.join ⟨n⟩) =
      if fs.isDirAt (d ++ [n]) then .error .isADirectory
      else .ok
        { fs with entries := (fs.entries.erase (d ++ [t])).insert (d ++ [n]) (.file c) } := by
  rw [renameFile, h.place?_join ht, h.place?_join hn, (endsIn_join dir ht).noSlash,
    (endsIn_join dir hn).noSlash]
  dsimp only [bind, Except.bind]
  rw [he]
  rfl

end Opens

/-- A directory stays where it is when a file comes or goes. -/
theorem Opens.changes (h : fs.Opens dir d) (hc : fs.Changes fs' l) : fs'.Opens dir d := by
  have hdir := isDirAt_iff.1 h.isDir
  have hstart : fs'.start dir = fs.start dir := by rw [start, start, hc.ways.current]
  refine ⟨?_, isDirAt_iff.2 ((hc.ways.dir d).2 hdir)⟩
  have hlocate := h.locate
  rw [locate_eq_walk h.isEmpty_eq_false] at hlocate ⊢
  rw [hstart]
  -- the walk ends at a directory, so no file that came or went was on it
  refine hc.ways.walk_ok (.inr fun c he => ?_) hlocate
  rw [hdir] at he
  cases he

/-- By way of a temporary file, one is put in place as if at once, if the temporary name is free. -/
theorem Opens.replaceThrough_join {t : String} (h : fs.Opens dir d) (ht : IsName t)
    (hn : IsName n) (hne : n ≠ t) (hfree : fs.entry? (d ++ [t]) = none) (c : List UInt8) :
    fs.replaceThrough (dir.join ⟨t⟩) (dir.join ⟨n⟩) c = fs.replace (dir.join ⟨n⟩) c := by
  let made := fs.set (d ++ [t]) (.file [])
  let filled := made.set (d ++ [t]) (.file c)
  have hnil := append_singleton_ne_nil d t
  have hmade : made.entry? (d ++ [t]) = some (.file []) := by rw [entry?_set fs hnil, if_pos rfl]
  have hfilled : filled.entry? (d ++ [t]) = some (.file c) := by
    rw [entry?_set made hnil, if_pos rfl]
  -- what stands under the other name is touched only by the renaming
  have hother : filled.entry? (d ++ [n]) = fs.entry? (d ++ [n]) := by
    have hplace : d ++ [n] ≠ d ++ [t] := fun heq => hne (eq_of_append_singleton heq)
    rw [entry?_set made hnil, if_neg hplace, entry?_set fs hnil, if_neg hplace]
  -- the directory is open before each of the three steps
  have hopens : made.Opens dir d := h.changes (changes_set hnil (fun e he => by
    rw [hfree] at he
    cases he) [])
  have hopens' : filled.Opens dir d := hopens.changes (changes_set hnil (fun e he => by
    rw [hmade] at he
    exact ⟨[], (Option.some.inj he).symm⟩) c)
  -- the temporary file has come and gone
  have hgone : filled.entries.erase (d ++ [t]) = fs.entries := by
    rw [entry?_append] at hfree
    show ((fs.entries.insert (d ++ [t]) _).insert (d ++ [t]) _).erase (d ++ [t]) = _
    rw [Table.erase_insert, Table.erase_insert, Table.erase_of_get?_eq_none hfree]
  rw [replaceThrough, h.make_join ht hfree]
  dsimp only [bind, Except.bind]
  rw [hopens.write_join ht hmade]
  dsimp only [bind, Except.bind]
  rw [hopens'.renameFile_join ht hn hfilled, hgone, isDirAt, hother, h.replace_join hn]
  rfl

end Outline.FileSystem
