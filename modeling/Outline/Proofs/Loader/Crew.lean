import Outline.Proofs.Loader.Turns
import Outline.Proofs.Loader.Upkeep

/-!
# Outline.Proofs.Loader.Crew

**Whatever turns the workers take, each file is answered for itself.** What a worker knows at a
stage is true of its file (`Stage.Holds`), and the work of one stage keeps that, for it and for all
others (`Stage.step_spec`). So the answer of each is what loading its path means for the files as
they were when they were read (`Loader.Tidy.loadFiles`).

A worker sees the files at one moment and the memory and the store at others, and between them
others work. So what a stage knows is said of the file as it was read, not of the files as they are:
a file that was read once stays read (`SourceFile.WasRead`), and a tree on the shelf stays there
(`Shelf.Grows`).
-/

namespace Outline

open FileSystem (pathOf)

/-! ### What is true of a worker

`Meanwhile` is said of files at some time of the run, `Tidy` of all that is shared now. A stage
knows more the further it is: nothing, which file, its outline, the answer. -/

section

variable (g : Grammar) (met : List UInt8 → Prop) (filter : Filter) (base : FileSystem)

/-- Files as they may be while files are loaded that were `base` at first. -/
structure FileSystem.Meanwhile (fs : FileSystem) : Prop where
  tidy : fs.Tidy g met
  keeps : base.Keeps fs

/-- What is true of the loader and the workspace while files are loaded. -/
structure Loader.Tidy (l : Loader) (w : Workspace) : Prop where
  loader : l.Sound (RightFor g met) w.shelf
  filter : l.filter = filter
  workspace : w.Tidy g met
  keeps : base.Keeps w.files

/-- The answer is what loading the path means for the files as they were at some time. -/
def RightAnswer (shelf : Shelf) (p : Path) (r : Except LoadError Nat) : Prop :=
  ∃ fs, FileSystem.Meanwhile g met base fs ∧
    r.map shelf.tree? = (Loader.meaning g filter fs p).map some

/-- The file was read at some time from a path that is accepted. -/
def SourceFile.WasRead (p : Path) (file : SourceFile) : Prop :=
  ({ filter := filter } : Loader).accepts p = true ∧
    ∃ fs, FileSystem.Meanwhile g met base fs ∧ SourceFile.read fs p = .ok file

/-- What a worker knows at a stage is true of the file. -/
def Stage.Holds (shelf : Shelf) (p : Path) : Stage → Prop
  | waiting => True
  | looking file | locking file | lookingAgain file | fetching file | making file =>
    file.WasRead g met filter base p
  | keeping file t | remembering file t =>
    file.WasRead g met filter base p ∧ Loader.outline g file = .ok t
  | done r => RightAnswer g met filter base shelf p r

end

variable {g : Grammar} {met : List UInt8 → Prop} {filter : Filter} {base : FileSystem}
  {l : Loader} {w : Workspace} {p : Path} {file : SourceFile} {t : Tree}

namespace SourceFile.WasRead

/-- What was read is the content that some path has at that time, with its key and fingerprint. -/
theorem exists_content (h : file.WasRead g met filter base p) :
    ∃ fs c, file = .ofContent fs p c ∧ (Language.ofPath? p).isSome ∧ met c ∧
      met (fs.key p).toUTF8.toList := by
  obtain ⟨haccepts, fs, hfs, hread⟩ := h
  unfold SourceFile.read at hread
  split at hread
  · rename_i c hc
    cases hread
    have hsource := ofPath?_isSome_of_accepts haccepts
    obtain ⟨hmet, hkey⟩ := hfs.tidy.met_of_read hsource hc
    exact ⟨fs, c, rfl, hsource, hmet, hkey⟩
  · cases hread

/-- The key of the file is among the texts that were met. -/
theorem key_met (h : file.WasRead g met filter base p) : met file.key.toUTF8.toList := by
  obtain ⟨fs, c, rfl, -, -, hkey⟩ := h.exists_content
  exact hkey

/-- What is right for the file is its outline. -/
theorem outline_of_right (h : file.WasRead g met filter base p)
    (ht : RightFor g met file.key file.fingerprint t) : Loader.outline g file = .ok t := by
  obtain ⟨fs, c, rfl, hsource, hmet, -⟩ := h.exists_content
  exact ht fs p c hmet hsource rfl rfl

/-- And its outline is right for it. -/
theorem right_of_outline (h : file.WasRead g met filter base p) (hash : Distinct met)
    (ht : Loader.outline g file = .ok t) : RightFor g met file.key file.fingerprint t := by
  obtain ⟨fs, c, rfl, -, hmet, -⟩ := h.exists_content
  exact rightFor_of_outline hash hmet ht

/-- The bytes of its outline are fit for the file. -/
theorem fit_encode (h : file.WasRead g met filter base p) (hash : Distinct met)
    (size : Numbered g met) (ht : Loader.outline g file = .ok t) :
    Fit g met file.key (t.encode file.fingerprint) := by
  obtain ⟨fs, c, hfile, -, hmet, -⟩ := h.exists_content
  obtain ⟨es, -, hes⟩ := exists_listing_of_outline ht
  have hsize : t.size ≤ Nat.pow 2 32 := size file t (by rw [hfile]; exact hmet) ht
  refine ⟨h.key_met, fun f u hdecode => ?_⟩
  rw [Tree.decode_encode_of_preorder _ hsize (Tree.preorder_of_ofEntries hes)] at hdecode
  cases hdecode
  exact h.right_of_outline hash ht

/-- To answer with the outline of the file is to answer rightly. -/
theorem answer (h : file.WasRead g met filter base p) {shelf : Shelf} {r : Except LoadError Nat}
    (hr : r.map shelf.tree? = (Loader.outline g file).map some) :
    RightAnswer g met filter base shelf p r := by
  obtain ⟨haccepts, fs, hfs, hread⟩ := h
  refine ⟨fs, hfs, hr.trans ?_⟩
  rw [Loader.meaning, if_pos haccepts, hread]
  rfl

end SourceFile.WasRead

/-! ### One stage

The cases are the stages, in the order of work. Where the store or the memory has a tree, it is
right and therefore the outline; where a tree is made, it is the outline and therefore right. -/

/-- The trees on a shelf stay there. -/
def Shelf.Grows (s s' : Shelf) : Prop := ∀ n t, s.tree? n = some t → s'.tree? n = some t

theorem Shelf.Grows.refl (s : Shelf) : s.Grows s := fun _ _ h => h

theorem Shelf.Grows.trans {s s' s'' : Shelf} (h : s.Grows s') (h' : s'.Grows s'') : s.Grows s'' :=
  fun n t ht => h' n t (h n t ht)

/-- A right answer stays right when the shelf grows. -/
theorem RightAnswer.mono {shelf shelf' : Shelf} {r : Except LoadError Nat}
    (h : RightAnswer g met filter base shelf p r) (hgrows : shelf.Grows shelf') :
    RightAnswer g met filter base shelf' p r := by
  obtain ⟨fs, hfs, hr⟩ := h
  refine ⟨fs, hfs, ?_⟩
  cases r with
  | error e => exact hr
  | ok n =>
      cases hm : Loader.meaning g filter fs p with
      | error e =>
          rw [hm] at hr
          cases hr
      | ok t =>
          rw [hm] at hr
          exact congrArg Except.ok (hgrows n t (Except.ok.inj hr))

/-- What a worker knows stays true when the shelf grows. -/
theorem Stage.Holds.mono {s : Stage} {shelf shelf' : Shelf}
    (h : s.Holds g met filter base shelf p) (hgrows : shelf.Grows shelf') :
    s.Holds g met filter base shelf' p := by
  cases s with
  | done r => exact RightAnswer.mono h hgrows
  | _ => exact h

namespace Loader.Tidy

/-- All loaders of the run accept the same paths. -/
theorem accepts_eq (h : l.Tidy g met filter base w) (p : Path) :
    l.accepts p = ({ filter := filter } : Loader).accepts p := by
  unfold Loader.accepts
  rw [h.filter]

/-- What is remembered for a file is its outline. -/
theorem outline_of_remembered (h : l.Tidy g met filter base w)
    (hfile : file.WasRead g met filter base p) {n : Nat} (hn : l.remembered? file = some n) :
    RightAnswer g met filter base w.shelf p (.ok n) := by
  obtain ⟨t, ht, hright⟩ := h.loader.remembered hn
  refine hfile.answer ?_
  rw [hfile.outline_of_right hright]
  exact congrArg Except.ok ht

/-- To remember the outline keeps everything tidy and is a right answer. -/
theorem remember (h : l.Tidy g met filter base w) (hash : Distinct met)
    (hfile : file.WasRead g met filter base p) (ht : outline g file = .ok t) :
    let r := l.remember w file t
    r.2.1.Tidy g met filter base r.2.2 ∧ w.shelf.Grows r.2.2.shelf ∧
      RightAnswer g met filter base r.2.2.shelf p (.ok r.1) := by
  refine ⟨⟨h.loader.remember (hfile.right_of_outline hash ht), h.filter,
    ⟨h.workspace.files, h.workspace.store⟩, h.keeps⟩,
    fun n u hu => Shelf.tree?_add_of_some hu t, hfile.answer ?_⟩
  rw [ht]
  exact congrArg Except.ok (w.shelf.tree?_add t)

end Loader.Tidy

/-- The work of one stage. -/
theorem Stage.step_spec (hash : Distinct met) (size : Numbered g met) {s : Stage}
    (h : l.Tidy g met filter base w) (hs : s.Holds g met filter base w.shelf p) :
    let r := s.step g l w p
    r.2.1.Tidy g met filter base r.2.2 ∧ w.shelf.Grows r.2.2.shelf ∧
      r.1.Holds g met filter base r.2.2.shelf p := by
  have haccepts := h.accepts_eq p
  have hnow : FileSystem.Meanwhile g met base w.files := ⟨h.workspace.files, h.keeps⟩
  cases s with
  | waiting =>
      simp only [step]
      rw [haccepts]
      by_cases hp : ({ filter := filter } : Loader).accepts p = true
      · rw [if_pos hp]
        cases hread : SourceFile.read w.files p with
        | ok file => exact ⟨h, .refl _, hp, w.files, hnow, hread⟩
        | error e =>
            refine ⟨h, .refl _, w.files, hnow, ?_⟩
            rw [Loader.meaning, if_pos hp, hread]
            rfl
      · rw [if_neg hp]
        refine ⟨h, .refl _, w.files, hnow, ?_⟩
        rw [Loader.meaning, if_neg hp]
        rfl
  | looking file | lookingAgain file =>
      simp only [step]
      cases hn : l.remembered? file with
      | some n => exact ⟨h, .refl _, h.outline_of_remembered hs hn⟩
      | none => exact ⟨h, .refl _, hs⟩
  | locking file => exact ⟨h, .refl _, hs⟩
  -- the store: what it has for the file is right, so it is the outline
  | fetching file =>
      have hfile : file.WasRead g met filter base p := hs
      simp only [step]
      cases hp : w.persisted file with
      | fresh t =>
          exact ⟨h, .refl _, hfile,
            hfile.outline_of_right (h.workspace.persisted_right hfile.key_met hp)⟩
      | _ => exact ⟨h, .refl _, hs⟩
  | making file =>
      have hfile : file.WasRead g met filter base p := hs
      simp only [step]
      cases ht : Loader.outline g file with
      | ok t => exact ⟨h, .refl _, hfile, ht⟩
      | error e =>
          refine ⟨h, .refl _, hfile.answer ?_⟩
          rw [ht]
          rfl
  -- the files change, but only by a file of the store, and no tree leaves the shelf
  | keeping file t =>
      obtain ⟨hfile, ht⟩ := hs
      obtain ⟨htidy, hkeeps⟩ := h.workspace.keep hash (hfile.fit_encode hash size ht)
      have hshelf := w.shelf_keep file.key (t.encode file.fingerprint)
      refine ⟨⟨?_, h.filter, htidy, h.keeps.trans hkeeps⟩, ?_, hfile, ht⟩
      · show l.Sound _ (w.keep file.key (t.encode file.fingerprint)).shelf
        rw [hshelf]
        exact h.loader
      · show w.shelf.Grows (w.keep file.key (t.encode file.fingerprint)).shelf
        rw [hshelf]
        exact .refl _
  | remembering file t => exact h.remember hash hs.1 hs.2
  | done r => exact ⟨h, .refl _, hs⟩

/-! ### A crew

What one worker does is seen by the others as a shelf that grows and a workspace that stays tidy,
and that is all that they need. -/

namespace Crew

/-- What is true of a crew that loads files. -/
structure Tidy (g : Grammar) (met : List UInt8 → Prop) (filter : Filter) (base : FileSystem)
    (files : List Path) (c : Crew) : Prop where
  loader : c.loader.Tidy g met filter base c.workspace
  jobs : ∀ job ∈ c.jobs, job.2.Holds g met filter base c.workspace.shelf job.1
  paths : c.jobs.map (·.1) = files

variable {files : List Path} {c : Crew}

/-- A crew that begins knows nothing yet. -/
theorem tidy_start (h : l.Tidy g met filter base w) (files : List Path) :
    (start l w files).Tidy g met filter base files where
  loader := h
  jobs job hjob := by
    obtain ⟨q, -, rfl⟩ := List.mem_map.1 hjob
    trivial
  paths := paths_start l w files

section

variable (hash : Distinct met) (size : Numbered g met)

include hash size

/-- The turn of one worker leaves what the others know true. -/
theorem Tidy.turn (h : c.Tidy g met filter base files) (i : Nat) :
    (c.turn g i).Tidy g met filter base files ∧
      c.workspace.shelf.Grows (c.turn g i).workspace.shelf := by
  have hpaths := (c.paths_turn g i).trans h.paths
  rcases c.turn_cases g i with hturn | ⟨p, s, hjob, -, hturn⟩
  · rw [hturn]
    exact ⟨h, .refl _⟩
  · have hholds := h.jobs _ (List.mem_of_getElem? hjob)
    obtain ⟨htidy, hgrows, hnext⟩ := Stage.step_spec hash size h.loader hholds
    rw [hturn] at hpaths ⊢
    refine ⟨⟨htidy, fun job hmem => ?_, hpaths⟩, hgrows⟩
    -- the worker whose turn it was is one stage further, the others stay where they are
    rcases List.mem_or_eq_of_mem_set hmem with hmem | rfl
    · exact (h.jobs job hmem).mono hgrows
    · exact hnext

/-- When all are done, what the workers know is true. -/
theorem Tidy.settle (h : c.Tidy g met filter base files) (turns : List Nat) :
    ((c.run g turns).settle g).Tidy g met filter base files ∧
      c.workspace.shelf.Grows ((c.run g turns).settle g).workspace.shelf := by
  refine induction (motive := fun c' => c'.Tidy g met filter base files ∧
    c.workspace.shelf.Grows c'.workspace.shelf) (fun c' i hc' => ?_) turns ⟨h, .refl _⟩
  obtain ⟨htidy, hgrows⟩ := hc'.1.turn hash size i
  exact ⟨htidy, hc'.2.trans hgrows⟩

end

end Crew

section

variable (hash : Distinct met) (size : Numbered g met)

include hash size

/-- **Files are answered rightly at any pace.** -/
theorem Loader.Tidy.loadFiles (h : l.Tidy g met filter base w) (pace : Pace) (files : List Path) :
    let r := l.loadFiles g pace w files
    r.2.1.Tidy g met filter base r.2.2 ∧ w.shelf.Grows r.2.2.shelf ∧ r.1.map (·.1) = files ∧
      ∀ x ∈ r.1, RightAnswer g met filter base r.2.2.shelf x.1 x.2 := by
  rw [Loader.loadFiles_eq]
  obtain ⟨hsettled, hgrows⟩ := (Crew.tidy_start h files).settle hash size pace.turns
  obtain ⟨hpaths, hjobs⟩ := Crew.answers_spec (Crew.done_of_next? (Crew.next?_settle g _))
  exact ⟨hsettled.loader, hgrows, hpaths.trans hsettled.paths,
    fun x hx => hsettled.jobs _ (hjobs x hx)⟩

/-- One file is a list of one. -/
theorem Loader.Tidy.load (h : l.Tidy g met filter base w) (p : Path) :
    let r := l.load g w p
    r.2.1.Tidy g met filter base r.2.2 ∧ w.shelf.Grows r.2.2.shelf ∧
      RightAnswer g met filter base r.2.2.shelf p r.1 := by
  obtain ⟨htidy, hgrows, -, hright⟩ := h.loadFiles hash size .oneByOne [p]
  exact ⟨htidy, hgrows, hright _ List.mem_cons_self⟩

end

end Outline
