import Outline.Proofs.Loader.Crew

/-!
# Outline.Proofs.Loader.Answers

**Every answer of a loader says something.** To those who see no numbers of trees, an answer is a
tree or a message (`Shelf.says?`). At any pace each file has one answer, and it is a message or the
number of a tree on the shelf, whatever the store gives (`Loader.isSome_says?_loadFiles`). A loader
that remembers nothing says of a file what the store keeps for its content, or else what is made of
it (`Loader.says?_of_isRead`).

The numbers of trees depend on the pace of the workers, and no output shows them. What is shown here
of an answer is therefore shown of what it says, and holds whichever worker came first.
-/

namespace Outline

variable {g : Grammar} {filter : Filter} {files : List Path} {base : Workspace} {l : Loader}
  {w : Workspace} {p : Path} {file file' : SourceFile} {t : Tree}

/-! ### What answers say

An answer is a number, and says something only if a tree has it. The shelf grows while others work,
and a tree keeps its number; so an answer that says something once says it for good. Nothing is
asked of the trees themselves, so here a loader is sound for the answers that are always right. -/

/-- What an answer says to those who see trees and messages only. -/
def Shelf.says? (s : Shelf) : Except LoadError Nat → Option (Except String Tree)
  | .ok n => (s.tree? n).map .ok
  | .error e => some (.error e.message)

/-- What a loader says that loads one file. -/
def Loader.says? (g : Grammar) (l : Loader) (w : Workspace) (p : Path) :
    Option (Except String Tree) :=
  (l.load g w p).2.2.shelf.says? (l.load g w p).1

/-- What an answer says stays when the shelf grows. -/
theorem Shelf.Grows.says? {s s' : Shelf} (h : s.Grows s') {r : Except LoadError Nat}
    {x : Except String Tree} (hx : s.says? r = some x) : s'.says? r = some x := by
  cases r with
  | error e => exact hx
  | ok n =>
      obtain ⟨t, ht, rfl⟩ := Option.map_eq_some_iff.1 hx
      rw [Shelf.says?, h n t ht]
      rfl

/-- Each worker of a crew who is done has an answer that says something. -/
structure Crew.Telling (c : Crew) : Prop where
  loader : c.loader.Sound (fun _ _ _ => True) c.workspace.shelf
  answers : ∀ job ∈ c.jobs, ∀ r, job.2.answer? = some r →
    (c.workspace.shelf.says? r).isSome

/-- The work of one stage: the shelf grows, and an answer that is new says something. A number is
answered where it is remembered, which soundness covers, and where a tree is put on the shelf; all
other new answers are messages. -/
theorem Stage.step_telling (s : Stage) (hl : l.Sound (fun _ _ _ => True) w.shelf) :
    let r := s.step g l w p
    r.2.1.Sound (fun _ _ _ => True) r.2.2.shelf ∧ w.shelf.Grows r.2.2.shelf ∧
      (s.answer? = none → ∀ a, r.1.answer? = some a → (r.2.2.shelf.says? a).isSome) := by
  have hfound : ∀ file n, l.remembered? file = some n → (w.shelf.says? (.ok n)).isSome := by
    intro file n hn
    obtain ⟨t, ht, -⟩ := hl.remembered hn
    rw [Shelf.says?, ht]
    rfl
  cases s with
  | waiting =>
      simp only [step]
      split
      · split
        · exact ⟨hl, .refl _, fun _ a ha => by cases ha⟩
        · refine ⟨hl, .refl _, fun _ a ha => ?_⟩
          cases ha
          rfl
      · refine ⟨hl, .refl _, fun _ a ha => ?_⟩
        cases ha
        rfl
  | looking file | lookingAgain file =>
      simp only [step]
      split
      · rename_i n hn
        refine ⟨hl, .refl _, fun _ a ha => ?_⟩
        cases ha
        exact hfound file n hn
      · exact ⟨hl, .refl _, fun _ a ha => by cases ha⟩
  | locking file => exact ⟨hl, .refl _, fun _ a ha => by cases ha⟩
  | fetching file =>
      simp only [step]
      split
      · exact ⟨hl, .refl _, fun _ a ha => by cases ha⟩
      · exact ⟨hl, .refl _, fun _ a ha => by cases ha⟩
  | making file =>
      simp only [step]
      split
      · exact ⟨hl, .refl _, fun _ a ha => by cases ha⟩
      · refine ⟨hl, .refl _, fun _ a ha => ?_⟩
        cases ha
        rfl
  -- Keeping may change files and store, and leaves the shelf alone.
  | keeping file t =>
      have hshelf := w.shelf_keep file.key (t.encode file.fingerprint)
      refine ⟨?_, ?_, fun _ a ha => by cases ha⟩
      · show l.Sound _ (w.keep file.key (t.encode file.fingerprint)).shelf
        rw [hshelf]
        exact hl
      · show w.shelf.Grows (w.keep file.key (t.encode file.fingerprint)).shelf
        rw [hshelf]
        exact .refl _
  -- The tree gets its number and is answered with it.
  | remembering file t =>
      refine ⟨hl.remember trivial, fun n u hu => Shelf.tree?_add_of_some hu t, fun _ a ha => ?_⟩
      cases ha
      show ((w.shelf.add t).2.says? (.ok (w.shelf.add t).1)).isSome = true
      rw [Shelf.says?, Shelf.tree?_add]
      rfl
  | done r => exact ⟨hl, .refl _, fun hopen => by cases hopen⟩

/-- One turn of any worker. The answers of the others say what they said, on a larger shelf. -/
theorem Crew.Telling.turn {c : Crew} (h : c.Telling) (i : Nat) : (c.turn g i).Telling := by
  rcases c.turn_cases g i with hturn | ⟨p, s, hjob, hmoves, hturn⟩
  · rw [hturn]
    exact h
  · obtain ⟨hl, hgrows, hnew⟩ := s.step_telling (g := g) (p := p) h.loader
    rw [hturn]
    refine ⟨hl, fun job hmem r hr => ?_⟩
    -- A job of the others, and then the one of this worker.
    rcases List.mem_or_eq_of_mem_set hmem with hmem | rfl
    · obtain ⟨x, hx⟩ := Option.isSome_iff_exists.1 (h.answers job hmem r hr)
      rw [hgrows.says? hx]
      rfl
    · have hopen : s.answer?.isNone = true := (Bool.and_eq_true_iff.1 hmoves).1
      exact hnew (Option.isNone_iff_eq_none.1 hopen) r hr

/-- At any pace, each file has one answer, and every answer says something. The pace decides on
turns only, so both hold by induction over the turns, the last ones included, in which the crew
comes to an end. -/
theorem Loader.isSome_says?_loadFiles (g : Grammar) (pace : Pace)
    (hl : l.Sound (fun _ _ _ => True) w.shelf) (files : List Path) :
    let r := l.loadFiles g pace w files
    r.1.map (·.1) = files ∧ ∀ x ∈ r.1, (r.2.2.shelf.says? x.2).isSome := by
  rw [loadFiles_eq]
  let c := ((Crew.start l w files).run g pace.turns).settle g
  have htelling : c.Telling := by
    refine Crew.induction (motive := Crew.Telling) (fun c i hc => hc.turn i) _ ⟨hl, ?_⟩
    intro job hjob r hr
    obtain ⟨p, -, rfl⟩ := List.mem_map.1 hjob
    cases hr
  have hpaths : c.jobs.map (·.1) = files :=
    Crew.induction (motive := fun c => c.jobs.map (·.1) = files)
      (fun c i hc => (c.paths_turn g i).trans hc) _ (Crew.paths_start l w files)
  obtain ⟨hanswers, hjobs⟩ :=
    Crew.answers_spec (Crew.done_of_next? (c := c) (Crew.next?_settle g _))
  exact ⟨hanswers.trans hpaths, fun x hx => htelling.answers _ (hjobs x hx) _ rfl⟩

/-- One file alone is a crew of one. -/
theorem Loader.isSome_says? (g : Grammar) (hl : l.Sound (fun _ _ _ => True) w.shelf) (p : Path) :
    (l.says? g w p).isSome :=
  (isSome_says?_loadFiles g .oneByOne hl [p]).2 _ List.mem_cons_self

/-! ### What a file comes to

A loader that remembers nothing looks into the store, and if what is kept there is for the content,
it believes it. Whether what is kept is right is another matter, which the store has to answer for;
so the tree of a file is defined with the store in it. -/

/-- The tree of a file: the one that the store keeps for its content, or else its outline. -/
def Workspace.treeOf (g : Grammar) (w : Workspace) (file : SourceFile) : Except LoadError Tree :=
  match w.persisted file with
  | .fresh t => .ok t
  | _ => Loader.outline g file

/-- A file is what is read from a path that is accepted. -/
def SourceFile.IsRead (filter : Filter) (fs : FileSystem) (p : Path) (file : SourceFile) : Prop :=
  ({ filter := filter } : Loader).accepts p = true ∧ SourceFile.read fs p = .ok file

/-- A file is read from one of some paths. -/
def SourceFile.Among (filter : Filter) (files : List Path) (fs : FileSystem) (file : SourceFile) :
    Prop :=
  ∃ p ∈ files, file.IsRead filter fs p

/-- What is read is a content seen under its path. -/
theorem SourceFile.IsRead.exists_content {fs : FileSystem} (h : file.IsRead filter fs p) :
    ∃ c, file = .ofContent fs p c := by
  obtain ⟨-, h⟩ := h
  unfold SourceFile.read at h
  split at h
  · cases h
    exact ⟨_, rfl⟩
  · cases h

/-- The message tells the path and not the cause, so it is the same for all causes. -/
theorem SourceFile.message_of_read {fs : FileSystem} {e : LoadError}
    (h : SourceFile.read fs p = .error e) : e.message = "failed to read " ++ p.text := by
  unfold SourceFile.read at h
  split at h
  · cases h
  · cases h
    rfl

/-- A tree is fresh exactly if bytes are kept for the key that make this tree with the fingerprint
of the file. -/
theorem Workspace.persisted_eq_fresh_iff : w.persisted file = .fresh t ↔
    ∃ bytes, w.store.get w.files file.key = .ok (some bytes) ∧
      Tree.decode bytes = .ok (file.fingerprint, t) := by
  unfold persisted
  constructor
  · intro h
    split at h
    · cases h
    · cases h
    · rename_i bytes hbytes
      refine ⟨bytes, hbytes, ?_⟩
      split at h
      · rename_i f u hdecode
        split at h
        · rename_i hf
          cases h
          rw [hdecode, hf]
        · cases h
      · cases h
      · cases h
  · rintro ⟨bytes, hbytes, hdecode⟩
    rw [hbytes]
    dsimp only
    rw [hdecode]
    exact if_pos rfl

/-- A fresh tree is the answer. -/
theorem Workspace.treeOf_of_fresh (h : w.persisted file = .fresh t) : w.treeOf g file = .ok t := by
  rw [treeOf, h]

/-- Whatever else is kept, or nothing, or an error: the outline is made. -/
theorem Workspace.treeOf_of_not_fresh (h : ∀ t, w.persisted file ≠ .fresh t) :
    w.treeOf g file = Loader.outline g file := by
  unfold treeOf
  split
  · rename_i t ht
    exact absurd ht (h t)
  · rfl

/-- Files that differ in nothing but the way to them have one tree. The key and the fingerprint
decide what is found in the store; the name and the content decide the outline. -/
theorem Workspace.treeOf_congr (hkey : file.key = file'.key)
    (hcontent : file.content = file'.content) (hprint : file.fingerprint = file'.fingerprint)
    (hname : file.path.fileName? = file'.path.fileName?) (h : w.treeOf g file = .ok t) :
    w.treeOf g file' = .ok t := by
  have hpersisted : ∀ u, w.persisted file' = .fresh u ↔ w.persisted file = .fresh u := by
    intro u
    rw [persisted_eq_fresh_iff, persisted_eq_fresh_iff, hkey, hprint]
  by_cases hfresh : ∃ u, w.persisted file = .fresh u
  · obtain ⟨u, hu⟩ := hfresh
    rw [treeOf_of_fresh hu] at h
    rw [treeOf_of_fresh ((hpersisted u).2 hu)]
    exact h
  · rw [treeOf_of_not_fresh fun u hu => hfresh ⟨u, hu⟩] at h
    rw [treeOf_of_not_fresh fun u hu => hfresh ⟨u, (hpersisted u).1 hu⟩]
    obtain ⟨es, hes, ht⟩ := exists_listing_of_outline h
    rw [Loader.outline, ← listingOf?_congr hname, ← hcontent, hes]
    show (Tree.ofEntries es).mapError LoadError.build = _
    rw [ht]
    rfl

namespace Loader

/-- A file that can be read is answered with its tree, or with why it has none. -/
theorem says?_of_isRead (h : file.IsRead filter base.files p) :
    ({ filter := filter } : Loader).says? g base p =
      some ((base.treeOf g file).mapError LoadError.message) := by
  obtain ⟨haccepts, hread⟩ := h
  have hload : ({ filter := filter } : Loader).load g base p =
      ({ filter := filter } : Loader).loadFile g base file := by
    rw [load, if_pos haccepts, hread]
  have hempty : ({ filter := filter } : Loader).remembered? file = none := by
    unfold remembered?
    rw [Table.get?_empty]
  rw [says?, hload, loadFile, readOr, readPersisted, hempty]
  cases hp : base.persisted file with
  | fresh t =>
      rw [Workspace.treeOf_of_fresh hp]
      exact congrArg (Option.map Except.ok) (base.shelf.tree?_add t)
  | _ =>
      rw [Workspace.treeOf, hp]
      dsimp only
      cases outline g file with
      | error e => rfl
      | ok t =>
          exact congrArg (Option.map Except.ok)
            ((base.keep file.key (t.encode file.fingerprint)).shelf.tree?_add t)

/-- A file that cannot be read is answered with the message on reading. -/
theorem says?_of_unread {e : LoadError}
    (haccepts : ({ filter := filter } : Loader).accepts p = true)
    (h : SourceFile.read base.files p = .error e) :
    ({ filter := filter } : Loader).says? g base p = some (.error e.message) := by
  rw [says?, load, if_pos haccepts, h]
  rfl

/-- A file that is not accepted is answered with the refusal, and not looked at. -/
theorem says?_of_refused (h : ¬ ({ filter := filter } : Loader).accepts p = true) :
    ({ filter := filter } : Loader).says? g base p =
      some (.error (LoadError.unsupported p).message) := by
  rw [says?, load, if_neg h]
  rfl

end Loader

end Outline
