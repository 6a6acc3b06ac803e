import Outline.CommandLine.Run
import Outline.Proofs.FileSystem.Below
import Outline.Proofs.FileSystem.Respelling
import Outline.Proofs.Glob.Names
import Outline.Proofs.Loader.Transparency

/-!
# Outline.Proofs.CommandLine.Exclusion

**Which files are left out is decided on the path as it is spelled.** Two paths of one file end in
one name (`exists_endsIn_of_isFile`), so they have one language (`ofPath?_eq_of_key_eq`), and only
the globs can tell them apart; those that read the name only do not
(`Loader.excludes_eq_of_readsName`). Loading refuses what is not accepted, and nothing else
(`Loader.load_unsupported_iff`), and a command that works on a directory leaves the same out as it
spells the files (`Loader.filesOf_eq_filter`).
-/

namespace Outline

open FileSystem (pathOf steps allSteps endsInSlash Step)

variable {fs : FileSystem} {p q : Path} {l : Loader} {n : String}

/-! ### The name of a file

### The name of a file

A path that leads to a file cannot end in a slash or in steps, since these lead to directories only.
So it ends in a name, which is what stands behind its last slash; and the key ends in the same name,
since the last name of a path is never resolved. -/

/-- A text has no slash or a last one. -/
theorem exists_last_slash (cs : List Char) :
    '/' ∉ cs ∨ ∃ front last, '/' ∉ last ∧ cs = front ++ '/' :: last := by
  induction cs with
  | nil => exact .inl List.not_mem_nil
  | cons c cs ih =>
      rcases ih with hcs | ⟨front, last, hlast, rfl⟩
      · by_cases hc : c = '/'
        · exact .inr ⟨[], cs, hcs, by rw [hc]; rfl⟩
        · refine .inl fun hmem => ?_
          rcases List.mem_cons.1 hmem with heq | hmem
          · exact hc heq.symm
          · exact hcs hmem
      · exact .inr ⟨c :: front, last, hlast, rfl⟩

theorem eq_of_ofPiece? {piece : List Char} (h : Step.ofPiece? piece = some (.name n)) :
    piece = n.toList := by
  unfold Step.ofPiece? at h
  split at h
  · cases h
  · split at h
    · cases h
    · split at h
      · cases h
      · cases h
        exact String.toList_ofList.symm

theorem exists_ofPiece? {piece : List Char} (h : piece ≠ []) :
    ∃ s, Step.ofPiece? piece = some s := by
  rw [Step.ofPiece?, if_neg h]
  split
  · exact ⟨_, rfl⟩
  · split <;> exact ⟨_, rfl⟩

namespace FileSystem.EndsIn

variable (h : EndsIn p n)
include h

theorem isName : IsName n :=
  isName_of_mem_steps (h.steps_eq ▸ List.mem_append_right _ List.mem_cons_self)

/-- The name is what stands behind the last slash. -/
theorem text_eq : p.text = n ∨ ∃ dir, p.text = dir ++ "/" ++ n := by
  rcases exists_last_slash p.text.toList with hcs | ⟨front, last, hlast, heq⟩
  · have hend := h.last
    rw [steps, Path.pieces_of_notMem hcs] at hend
    refine .inl (String.toList_inj.1 (eq_of_ofPiece? ?_))
    cases hpiece : Step.ofPiece? p.text.toList with
    | none => simp [hpiece] at hend
    | some s => simpa [hpiece] using hend
  · have hend := h.last
    rw [steps, heq, Path.pieces_append_slash, Path.pieces_of_notMem hlast,
      List.filterMap_append] at hend
    have hne : last ≠ [] := by
      rintro rfl
      have hslash := h.noSlash
      rw [endsInSlash, heq, List.getLast?_concat] at hslash
      cases hslash
    have hname : last = n.toList := by
      obtain ⟨s, hs⟩ := exists_ofPiece? hne
      rw [List.filterMap_cons_some hs, List.filterMap_nil, List.getLast?_concat] at hend
      exact eq_of_ofPiece? (hs.trans hend)
    refine .inr ⟨String.ofList front, String.toList_inj.1 ?_⟩
    rw [heq, hname]
    simp

end FileSystem.EndsIn

/-- The path of a file ends in a name. -/
theorem exists_endsIn_of_isFile (hcurrent : fs.Clean fs.current) (h : fs.isFile p = true) :
    ∃ n, FileSystem.EndsIn p n := by
  unfold FileSystem.isFile at h
  split at h
  · rename_i m hm
    unfold FileSystem.locate at hm
    split at hm
    · cases hm
    · -- a path whose last step is no name leads to a directory
      have hnot : ¬ FileSystem.Directed (allSteps p) := fun hd => by
        rw [FileSystem.isDirAt_of_directed (FileSystem.clean_start hcurrent p) hd hm] at h
        cases h
      have hslash : endsInSlash p = false := by
        refine Bool.eq_false_iff.2 fun hslash => hnot fun n hn => ?_
        rw [allSteps, if_pos hslash, List.getLast?_concat] at hn
        cases hn
      rw [allSteps, hslash, if_neg Bool.false_ne_true, List.append_nil] at hnot
      unfold FileSystem.Directed at hnot
      simp only [not_forall, not_not, ne_eq] at hnot
      obtain ⟨n, hn⟩ := hnot
      exact ⟨n, hn, hslash⟩
  · cases h

/-- The language of a file depends on its key. -/
theorem ofPath?_eq_of_key_eq (hcurrent : fs.Clean fs.current) (hp : fs.isFile p = true)
    (hq : fs.isFile q = true) (hkey : fs.key p = fs.key q) :
    Language.ofPath? p = Language.ofPath? q := by
  obtain ⟨n, hn⟩ := exists_endsIn_of_isFile hcurrent hp
  obtain ⟨m, hm⟩ := exists_endsIn_of_isFile hcurrent hq
  obtain rfl := FileSystem.fileName?_eq_of_key_eq hn.fileName?_eq hm.fileName?_eq hkey
  unfold Language.ofPath? Path.extension?
  rw [hn.fileName?_eq, hm.fileName?_eq]

/-! ### What is accepted

### What is accepted

A path is accepted if the globs do not exclude it and a language that is allowed belongs to it. The
second is decided by the name, the first by the whole spelling. So what is left to say is when the
globs decide alike, and that loading asks this question first. -/

namespace Loader

/-- Whether a language that is allowed belongs to a path. -/
def speaks (l : Loader) (p : Path) : Bool :=
  (Language.ofPath? p).any fun language => l.filter.allows language.name

theorem accepts_eq_of_spelling (l : Loader) (p : Path) :
    l.accepts p = (!l.filter.excludes p.text && l.speaks p) := rfl

/-- If the languages say the same of two paths, they are accepted alike unless the globs tell them
apart. -/
theorem accepts_eq_iff (h : l.speaks p = l.speaks q) : l.accepts p = l.accepts q ↔
    l.speaks p = false ∨ l.filter.excludes p.text = l.filter.excludes q.text := by
  rw [accepts_eq_of_spelling, accepts_eq_of_spelling, ← h]
  cases l.speaks p <;> simp

/-- Globs that read the name only do not tell the paths of a file apart. -/
theorem excludes_eq_of_readsName (hglobs : ∀ g ∈ l.filter.excluded, g.ReadsName)
    (hp : FileSystem.EndsIn p n) (hq : FileSystem.EndsIn q n) :
    l.filter.excludes p.text = l.filter.excludes q.text := by
  have hname : ∀ {p : Path}, FileSystem.EndsIn p n →
      l.filter.excludes p.text = l.filter.excludes n := by
    intro p hp
    rcases hp.text_eq with heq | ⟨dir, heq⟩
    · rw [heq]
    · rw [heq, Filter.excludes, Filter.excludes, Bool.eq_iff_iff, List.any_eq_true,
        List.any_eq_true]
      exact exists_congr fun g => and_congr_right fun hg => by
        rw [hglobs g hg dir n hp.isName.slash]
  rw [hname hp, hname hq]

/-- A file to which a language belongs can be outlined, or its declarations make no tree. -/
theorem outline_ne_unsupported {g : Grammar} {file : SourceFile}
    (h : (Language.ofPath? file.path).isSome) :
    outline g file ≠ .error (.unsupported p) := by
  obtain ⟨language, hlanguage⟩ := Option.isSome_iff_exists.1 h
  obtain ⟨e, he, hlanguage⟩ := Option.bind_eq_some_iff.1 hlanguage
  have hlisting : listingOf? g file.path file.content =
      some (language.listing (file.path.fileName?.getD "") file.content
        (g ("." ++ e) file.content)) := by
    rw [listingOf?, he]
    show (Language.ofExtension? ("." ++ e)).bind _ = _
    rw [hlanguage]
    rfl
  rw [outline, hlisting]
  dsimp only
  cases Tree.ofEntries _ <;> nofun

/-- Loading refuses what is not accepted, and nothing else. -/
theorem load_unsupported_iff {g : Grammar} {w : Workspace} :
    (l.load g w p).1 = .error (.unsupported p) ↔ l.accepts p = false := by
  rw [load]
  cases haccepts : l.accepts p with
  | false => exact ⟨fun _ => rfl, fun _ => rfl⟩
  | true =>
      refine ⟨fun h => absurd h ?_, fun h => absurd h.symm Bool.false_ne_true⟩
      rw [if_pos rfl, SourceFile.read]
      cases w.files.read p with
      | error e =>
          intro h
          cases h
      | ok content =>
          -- An accepted file has a language, so outlining it fails for its declarations only.
          have hmade : outline g (.ofContent w.files p content) ≠ .error (.unsupported p) :=
            outline_ne_unsupported (ofPath?_isSome_of_accepts haccepts)
          show (readOr l w _ (outline g _)).1 ≠ _
          intro h
          unfold readOr at h
          split at h
          · cases h
          · split at h
            · rename_i e hmake
              exact hmade (hmake.trans (congrArg _ (Except.error.inj h)))
            · cases h

/-- What a path means depends on where it leads to. -/
theorem filesOf_congr {d d' : Path} {m : Location} (h : fs.locate d = .ok m)
    (h' : fs.locate d' = .ok m) : l.filesOf fs d = l.filesOf fs d' := by
  rw [filesOf, filesOf, FileSystem.real?, FileSystem.real?, h, h']
  rfl

/-- A command that works on a directory leaves out what is not accepted as it is found there. -/
theorem filesOf_eq_filter (hnames : IsLocation fs.current) (hcurrent : fs.Clean fs.current)
    {d : Path} {root : Location} {found : List Path} (hd : fs.locate d = .ok root)
    (hdir : fs.isDirAt root = true) (hfound : fs.filesBelow enters (pathOf root) = .ok found) :
    l.filesOf fs d = .ok (pathOf root, found.filter l.accepts) := by
  have hroot : fs.isDir (pathOf root) = true := by
    rw [FileSystem.isDir, (FileSystem.standing_of_locate hcurrent hd).locate_pathOf
      (FileSystem.isLocation_of_locate hnames hd)]
    exact hdir
  rw [filesOf, FileSystem.real?, hd]
  show (if fs.isDir (pathOf root) then _ else _) = _
  rw [if_pos hroot, hfound]
  rfl

/-- Without links, what is found in a directory is spelled by the keys. -/
theorem key_mem_filesBelow (hplain : fs.Plain) {root : Location} {found : List Path}
    (hdir : fs.isDirAt root = true) (hfound : fs.filesBelow enters (pathOf root) = .ok found)
    (hp : fs.Reaches enters root (p.normalize fs.current)) : ⟨fs.key p⟩ ∈ found := by
  obtain ⟨locations, hbelow, -, hmem⟩ := hplain.filesBelow_spec enters hdir
  obtain rfl := Except.ok.inj (hfound.symm.trans hbelow)
  have hkey : Path.mk (fs.key p) = pathOf (p.normalize fs.current) := by
    obtain ⟨-, -, -, -, c, hc⟩ := hp
    rw [hplain.key_eq (by rw [hc]; rfl)]
  rw [hkey]
  exact List.mem_map_of_mem ((hmem _).2 hp)

end Loader

/-- **Which files are left out** is decided on the spelling of a path, and only the globs can tell
two paths of one file apart: they have the same language, and they are accepted alike if it is none
or not allowed, or else if and only if the globs decide alike on both spellings. Globs that read the
name only always do. To a command that works on a directory it makes no difference how the path of
the directory is spelled; of the files that it finds, which are spelled by their keys if there are
no links, it leaves out exactly those that loading refuses by the same spelling. -/
theorem exclusion_by_spelling (l : Loader) (fs : FileSystem) (hnames : IsLocation fs.current)
    (hcurrent : fs.Clean fs.current) :
    (∀ p q, fs.isFile p = true → fs.isFile q = true → fs.key p = fs.key q →
      Language.ofPath? p = Language.ofPath? q ∧
      (l.accepts p = l.accepts q ↔
        l.speaks p = false ∨ l.filter.excludes p.text = l.filter.excludes q.text) ∧
      ((∀ g ∈ l.filter.excluded, g.ReadsName) → l.accepts p = l.accepts q)) ∧
    (∀ d d' root, fs.locate d = .ok root → fs.locate d' = .ok root →
      l.filesOf fs d = l.filesOf fs d') ∧
    (∀ d root found, fs.locate d = .ok root → fs.isDirAt root = true →
      fs.filesBelow Loader.enters (pathOf root) = .ok found →
      ∃ files, l.filesOf fs d = .ok (pathOf root, files) ∧
        (∀ q ∈ found, ∀ g w, q ∉ files ↔ (l.load g w q).1 = .error (.unsupported q)) ∧
        (fs.Plain → ∀ p, fs.Reaches Loader.enters root (p.normalize fs.current) →
          ⟨fs.key p⟩ ∈ found)) := by
  refine ⟨fun p q hp hq hkey => ?_, fun d d' root h h' => Loader.filesOf_congr h h',
    fun d root found hd hdir hfound => ?_⟩
  · have hlanguage := ofPath?_eq_of_key_eq hcurrent hp hq hkey
    have hspeaks : l.speaks p = l.speaks q := by rw [Loader.speaks, Loader.speaks, hlanguage]
    refine ⟨hlanguage, Loader.accepts_eq_iff hspeaks, fun hglobs => ?_⟩
    obtain ⟨n, hn⟩ := exists_endsIn_of_isFile hcurrent hp
    obtain ⟨m, hm⟩ := exists_endsIn_of_isFile hcurrent hq
    obtain rfl := FileSystem.fileName?_eq_of_key_eq hn.fileName?_eq hm.fileName?_eq hkey
    exact (Loader.accepts_eq_iff hspeaks).2 (.inr (Loader.excludes_eq_of_readsName hglobs hn hm))
  · refine ⟨_, Loader.filesOf_eq_filter hnames hcurrent hd hdir hfound, fun q hq g w => ?_,
      fun hplain p hp => Loader.key_mem_filesBelow hplain hdir hfound hp⟩
    rw [Loader.load_unsupported_iff, List.mem_filter, not_and, Bool.not_eq_true]
    exact ⟨fun h => h hq, fun h _ => h⟩

/-- The directory `W`, which is the current one, with one file. -/
def oneFile : FileSystem where
  entries := (Table.empty.insert ["W"] .directory).insert ["W", "a.py"] (.file [])
  current := ["W"]

/-- No link is on the way to the current directory. -/
theorem clean_oneFile : oneFile.Clean ["W"] :=
  FileSystem.Clean.append (.nil _) (by decide)

/-- Both spellings lead to the file. -/
theorem locate_oneFile : oneFile.locate ⟨"a.py"⟩ = .ok ["W", "a.py"] ∧
    oneFile.locate ⟨"/W/a.py"⟩ = .ok ["W", "a.py"] := by
  have hfile : oneFile.entry? ["W", "a.py"] = some (.file []) := rfl
  have hwalk : oneFile.walk false FileSystem.maxLinks ["W"] [.name "a.py"] = .ok ["W", "a.py"] := by
    rw [FileSystem.walk]
    simp [hfile]
  have hshort : FileSystem.allSteps ⟨"a.py"⟩ = [.name "a.py"] := by decide
  have hlong : FileSystem.allSteps ⟨"/W/a.py"⟩ = ["W"].map .name ++ [.name "a.py"] := by decide
  constructor
  · rw [FileSystem.locate, hshort]
    exact hwalk
  · rw [FileSystem.locate, hlong]
    exact (FileSystem.Clean.walk_names clean_oneFile [.name "a.py"]).trans hwalk

theorem isFile_oneFile :
    oneFile.isFile ⟨"a.py"⟩ = true ∧ oneFile.isFile ⟨"/W/a.py"⟩ = true := by
  rw [FileSystem.isFile, FileSystem.isFile, locate_oneFile.1, locate_oneFile.2]
  decide

theorem key_oneFile : oneFile.key ⟨"a.py"⟩ = oneFile.key ⟨"/W/a.py"⟩ :=
  FileSystem.key_congr (by decide)

/-- The glob for the name of the file behind any directories. -/
def byName : Glob := ⟨"**/a.py", .leadingDirs :: ['a', '.', 'p', 'y'].map .literal⟩

theorem ofText_byName : Glob.ofText "**/a.py" = .ok byName := by
  rw [Glob.ofText]
  show (Glob.readFrom {} none ['*', '*', '/', 'a', '.', 'p', 'y']).map _ = _
  rw [Glob.readFrom]
  show (Glob.readFrom ⟨[.leadingDirs], []⟩ (some '/') ['a', '.', 'p', 'y']).map _ = _
  simp [Glob.readFrom, Glob.Draft.push, Except.map, byName]

/-- It leaves the file out by both spellings. -/
theorem exclusion_by_spelling_name : ∃ filter, Filter.ofTexts ["**/a.py"] [] = .ok filter ∧
    IsLocation oneFile.current ∧ oneFile.Clean oneFile.current ∧
    ({ filter := filter } : Loader).accepts ⟨"a.py"⟩ =
      ({ filter := filter } : Loader).accepts ⟨"/W/a.py"⟩ := by
  have hplain : byName.EndsPlain [.leadingDirs] ['a', '.', 'p', 'y'] :=
    ⟨rfl, .inl rfl, by decide⟩
  have hnames : IsLocation oneFile.current :=
    IsLocation.append .nil ⟨by decide, by decide, by decide, by decide⟩
  refine ⟨⟨[byName], []⟩, ?_, hnames, clean_oneFile, ?_⟩
  · rw [Filter.ofTexts]
    simp [ofText_byName, Except.mapError]
  · obtain ⟨hfiles, -⟩ := exclusion_by_spelling { filter := ⟨[byName], []⟩ } oneFile hnames
      clean_oneFile
    obtain ⟨-, -, hsame⟩ := hfiles _ _ isFile_oneFile.1 isFile_oneFile.2 key_oneFile
    exact hsame fun g hg => (List.mem_singleton.1 hg) ▸ hplain.readsName

/-- A glob that is spelled like the file seen from its directory leaves it out by this spelling, but
not by its key, by which the file is found in the directory. -/
theorem exclusion_not_by_key : ∃ filter, Filter.ofTexts ["a.py"] [] = .ok filter ∧
    (oneFile.isFile ⟨"a.py"⟩ = true ∧ oneFile.isFile ⟨"/W/a.py"⟩ = true) ∧
    oneFile.key ⟨"a.py"⟩ = oneFile.key ⟨"/W/a.py"⟩ ∧
    ({ filter := filter } : Loader).accepts ⟨"a.py"⟩ = false ∧
    ({ filter := filter } : Loader).accepts ⟨"/W/a.py"⟩ = true ∧
    ({ filter := filter } : Loader).filesOf oneFile ⟨"."⟩ = .ok (⟨"/W"⟩, [⟨"/W/a.py"⟩]) := by
  refine ⟨⟨[⟨"a.py", ['a', '.', 'p', 'y'].map .literal⟩], []⟩, ?_, isFile_oneFile, key_oneFile,
    ?_, ?_, ?_⟩ <;> cbv

end Outline
