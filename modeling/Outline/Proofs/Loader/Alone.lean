import Outline.Proofs.FileSystem.Undisturbed
import Outline.Proofs.Loader.Answers
import Outline.Proofs.Loader.OneKey

/-!
# Outline.Proofs.Loader.Alone

**Each file is answered as if it were loaded alone.** Workers share what is remembered and what is
kept. But a worker that has taken a lock and found nothing remembered of its file finds in the store
what was kept at first (`Loader.Faithful`), for no two workers hold one lock. So whatever turns the
workers take, each comes to the tree that a loader without memory would find or make, or to the
same message (`Loader.says?_loadFiles`). This needs that sources stay as they are, that keys have
files of their own in the store, and that files with one key say the same (`Workspace.Steady`).

The proof follows one invariant through the stages of a worker. It says of each file one of three
things: its tree is remembered; or nothing is remembered, and the store has what it had at first; or
nothing is remembered yet, but a worker who holds the lock is about to. In the third state the store
may have new bytes already, and this is why that state has to be named (`ready?`).
-/

namespace Outline

open FileSystem (OfStore pathOf)

variable {g : Grammar} {filter : Filter} {files : List Path} {base : Workspace} {l : Loader}
  {w : Workspace} {p : Path} {file file' : SourceFile} {t : Tree}

/-! ### One stage

A worker waits, reads its file, looks whether it is remembered, takes the lock, looks again, fetches
from the store, makes the outline, keeps it and remembers it. What it has found out by then goes
with its stage (`Stage.Faithful`); what all workers share goes with the loader (`Loader.Faithful`).
A step lemma is then shown for each stage. -/

/-- While stores work, accepted files are read as before; keys have places of their own in the
store; and files with one key say the same. -/
structure Workspace.Steady (filter : Filter) (files : List Path) (base : Workspace) : Prop where
  direct : base.store.Direct base.files
  source : ∀ p ∈ files, ∀ fs, base.files.LeftBy base.store fs → ∀ file : SourceFile,
    file.IsRead filter fs p ↔ file.IsRead filter base.files p
  own : ∀ file file' : SourceFile, file.Among filter files base.files →
    file'.Among filter files base.files → base.store.Shares file.key file'.key →
    file.key = file'.key
  same : ∀ file file' : SourceFile, file.Among filter files base.files →
    file'.Among filter files base.files → file.key = file'.key →
    file.content = file'.content ∧ file.path.fileName? = file'.path.fileName?

/-- Files with one key have one tree. -/
theorem Workspace.Steady.treeOf_eq (h : base.Steady filter files)
    (hfile : file.Among filter files base.files) (hfile' : file'.Among filter files base.files)
    (hkey : file.key = file'.key) : file.fingerprint = file'.fingerprint ∧
      ∀ t, base.treeOf g file = .ok t → base.treeOf g file' = .ok t := by
  obtain ⟨hcontent, hname⟩ := h.same file file' hfile hfile' hkey
  have hprint : file.fingerprint = file'.fingerprint := by
    obtain ⟨p, -, hread⟩ := hfile
    obtain ⟨q, -, hread'⟩ := hfile'
    obtain ⟨c, rfl⟩ := hread.exists_content
    obtain ⟨c', rfl⟩ := hread'.exists_content
    exact congrArg Fingerprint.ofContent hcontent
  exact ⟨hprint, fun t ht => Workspace.treeOf_congr hkey hcontent hprint hname ht⟩

/-- What is true of the loader and the workspace while files are loaded. What is remembered of a
file is its tree. Of a file of which nothing is remembered the store keeps what it kept at first,
unless a worker is about to remember its tree. -/
structure Loader.Faithful (g : Grammar) (filter : Filter) (files : List Path) (base : Workspace)
    (ready : String → Prop) (l : Loader) (w : Workspace) : Prop where
  accepts : l.filter = filter
  left : base.files.LeftBy base.store w.files
  direct : w.store.Direct w.files
  bare : w.store.bare = base.store.bare
  remembered : ∀ file : SourceFile, file.Among filter files base.files →
    ∀ m, l.memory.get? file.key = some m → m.fingerprint = file.fingerprint ∧
      ∃ t, w.shelf.tree? m.tree = some t ∧ base.treeOf g file = .ok t
  kept : ∀ file : SourceFile, file.Among filter files base.files → l.memory.get? file.key = none →
    ¬ ready file.key → w.store.bytes? w.files file.key = base.store.bytes? base.files file.key

namespace Stage

/-- The key of a file of which a worker knows that nothing is remembered. -/
def unknown? : Stage → Option String
  | fetching file | making file | keeping file _ | remembering file _ => some file.key
  | _ => none

/-- The key of a file whose tree a worker is about to remember. -/
def ready? : Stage → Option String
  | remembering file _ => some file.key
  | _ => none

/-- Whoever knows this holds the lock, which is why it stays true. -/
theorem held?_of_unknown? {s : Stage} {key : String} (h : s.unknown? = some key) :
    s.held? = some key := by
  cases s <;> first | exact h | cases h

/-- Whoever is about to remember a tree has found nothing remembered. -/
theorem unknown?_of_ready? {s : Stage} {key : String} (h : s.ready? = some key) :
    s.unknown? = some key := by
  cases s <;> first | exact h | cases h

/-- What a worker has found out about its file, who has come to a stage. -/
def Faithful (g : Grammar) (filter : Filter) (base : Workspace) (shelf : Shelf) (p : Path) :
    Stage → Prop
  | waiting => True
  | looking file | locking file | lookingAgain file | fetching file =>
    file.IsRead filter base.files p
  | making file =>
    file.IsRead filter base.files p ∧ base.treeOf g file = Loader.outline g file
  | keeping file t | remembering file t =>
    file.IsRead filter base.files p ∧ base.treeOf g file = .ok t
  | done r => shelf.says? r = ({ filter := filter } : Loader).says? g base p

end Stage

namespace Loader.Faithful

variable {ready ready' : String → Prop}

/-- The more workers are about to remember something, the less is said. -/
theorem mono (h : l.Faithful g filter files base ready w) (himp : ∀ key, ready key → ready' key) :
    l.Faithful g filter files base ready' w :=
  ⟨h.accepts, h.left, h.direct, h.bare, h.remembered,
    fun file hfile hnone hready => h.kept file hfile hnone fun hkey => hready (himp _ hkey)⟩

/-- A loader accepts what a new one with its filter does. -/
theorem accepts_eq (h : l.Faithful g filter files base ready w) (p : Path) :
    l.accepts p = ({ filter := filter } : Loader).accepts p := by
  unfold Loader.accepts
  rw [h.accepts]

/-- What is remembered of a file is for its content. -/
theorem remembered?_eq_none (h : l.Faithful g filter files base ready w)
    (hfile : file.Among filter files base.files) (hn : l.remembered? file = none) :
    l.memory.get? file.key = none := by
  cases hm : l.memory.get? file.key with
  | none => rfl
  | some m =>
      unfold Loader.remembered? at hn
      rw [hm] at hn
      dsimp only at hn
      rw [if_pos (h.remembered file hfile m hm).1] at hn
      cases hn

/-- What is remembered of a file is its tree. -/
theorem says?_remembered (h : l.Faithful g filter files base ready w) (hp : p ∈ files)
    (hfile : file.IsRead filter base.files p) {n : Nat} (hn : l.remembered? file = some n) :
    w.shelf.says? (.ok n) = ({ filter := filter } : Loader).says? g base p := by
  obtain ⟨-, t, ht, htree⟩ := h.remembered file ⟨p, hp, hfile⟩ _ (Loader.get?_of_remembered? hn)
  rw [Loader.says?_of_isRead hfile, htree, Shelf.says?, ht]
  rfl

/-- What cannot be read now could not be read at first. -/
theorem says?_unread (h : l.Faithful g filter files base ready w)
    (hsteady : base.Steady filter files) (hp : p ∈ files)
    (haccepts : ({ filter := filter } : Loader).accepts p = true) {e : LoadError}
    (hread : SourceFile.read w.files p = .error e) :
    w.shelf.says? (.error e) = ({ filter := filter } : Loader).says? g base p := by
  cases hread' : SourceFile.read base.files p with
  | ok file =>
      obtain ⟨-, hfile⟩ :=
        (hsteady.source p hp w.files h.left file).2 ⟨haccepts, hread'⟩
      rw [hread] at hfile
      cases hfile
  | error e' =>
      rw [Loader.says?_of_unread haccepts hread', SourceFile.message_of_read hread',
        ← SourceFile.message_of_read hread]
      rfl

/-- A worker that holds the lock of a file of which nothing is remembered finds what was kept at
first. -/
theorem persisted_iff (h : l.Faithful g filter files base ready w)
    (hfile : file.Among filter files base.files) (hnone : l.memory.get? file.key = none)
    (hready : ¬ ready file.key) (t : Tree) :
    w.persisted file = .fresh t ↔ base.persisted file = .fresh t := by
  have hbytes := h.kept file hfile hnone hready
  simp only [Workspace.persisted_eq_fresh_iff, Store.get_congr h.bare hbytes]

/-- To keep bytes for a file disturbs only what is kept for it. -/
theorem keep (h : l.Faithful g filter files base ready w) (hsteady : base.Steady filter files)
    (hfile : file.Among filter files base.files) (bytes : List UInt8) :
    l.Faithful g filter files base (fun key => ready key ∨ file.key = key)
      (w.keep file.key bytes) := by
  obtain ⟨hdirect, hapart⟩ := Workspace.keep_spec h.direct file.key bytes
  refine ⟨h.accepts, h.left.trans (FileSystem.leftBy_keep h.direct file.key bytes) h.bare,
    hdirect, hapart.bare.trans h.bare, ?_, fun file' hfile' hnone hready => ?_⟩
  · rw [w.shelf_keep]
    exact h.remembered
  -- Other files have places of their own in the store.
  · rw [not_or] at hready
    rw [hapart.bytes file'.key, h.kept file' hfile' hnone hready.1]
    rw [Store.shares_congr h.bare]
    exact fun hshares => hready.2 (hsteady.own file file' hfile hfile' hshares)

/-- When the tree of a file is remembered, the store may keep anything for it. -/
theorem remember (h : l.Faithful g filter files base (fun key => ready key ∨ file.key = key) w)
    (hsteady : base.Steady filter files) (hfile : file.Among filter files base.files)
    (ht : base.treeOf g file = .ok t) :
    (l.remember w file t).2.1.Faithful g filter files base ready (l.remember w file t).2.2 := by
  have hmemory : ∀ key, (l.remember w file t).2.1.memory.get? key =
      if key = file.key then some ⟨file.fingerprint, (w.shelf.add t).1⟩ else l.memory.get? key :=
    fun key => Table.get?_insert l.memory file.key _ key
  refine ⟨h.accepts, h.left, h.direct, h.bare, fun file' hfile' m hm => ?_,
    fun file' hfile' hnone hready => ?_⟩
  -- What is remembered now: the new tree for all files with this key, and all else as before.
  · rw [hmemory] at hm
    split at hm
    · rename_i hkey
      cases hm
      obtain ⟨hprint, htree⟩ := hsteady.treeOf_eq hfile hfile' hkey.symm
      exact ⟨hprint, t, w.shelf.tree?_add t, htree t ht⟩
    · obtain ⟨hprint, u, hu, htree⟩ := h.remembered file' hfile' m hm
      exact ⟨hprint, u, Shelf.tree?_add_of_some hu t, htree⟩
  -- Of the others nothing is remembered as before, so the store still has what it had of them.
  · rw [hmemory] at hnone
    split at hnone
    · cases hnone
    · rename_i hkey
      exact h.kept file' hfile' hnone (not_or.2 ⟨hready, fun heq => hkey heq.symm⟩)

end Loader.Faithful

/-- An answer still says the same when the shelf has grown. -/
theorem Stage.Faithful.mono {s : Stage} {shelf shelf' : Shelf}
    (h : s.Faithful g filter base shelf p) (hgrows : shelf.Grows shelf') :
    s.Faithful g filter base shelf' p := by
  cases s with
  | done r =>
      obtain ⟨x, hx⟩ := Option.isSome_iff_exists.1 (Loader.isSome_says? g (.fresh filter _) p)
      exact (hgrows.says? ((show shelf.says? r = _ from h).trans hx)).trans hx.symm
  | _ => exact h

/-- The work of one stage. Nobody else is to be about to remember the file whose lock is held. -/
theorem Stage.step_faithful (hsteady : base.Steady filter files) (hp : p ∈ files) {s : Stage}
    {others : String → Prop}
    (h : l.Faithful g filter files base (fun key => others key ∨ s.ready? = some key) w)
    (hs : s.Faithful g filter base w.shelf p)
    (hunknown : ∀ key, s.unknown? = some key → l.memory.get? key = none)
    (hfree : ∀ key, s.held? = some key → ¬ others key) :
    let r := s.step g l w p
    r.2.1.Faithful g filter files base (fun key => others key ∨ r.1.ready? = some key) r.2.2 ∧
      w.shelf.Grows r.2.2.shelf ∧ r.1.Faithful g filter base r.2.2.shelf p ∧
      (∀ key, r.1.unknown? = some key → r.2.1.memory.get? key = none) ∧
      ∀ key, s.held? ≠ some key → r.2.1.memory.get? key = l.memory.get? key := by
  -- as long as no tree is about to be remembered, there is nothing to say about the store
  have hsame : s.ready? = none → ∀ s' : Stage,
      l.Faithful g filter files base (fun key => others key ∨ s'.ready? = some key) w := by
    intro hready s'
    refine h.mono fun key hkey => ?_
    rw [hready] at hkey
    exact .inl (hkey.resolve_right (Option.some_ne_none _).symm)
  have hknown : ∀ key, (none : Option String) = some key → l.memory.get? key = none :=
    fun key hkey => by cases hkey
  cases s with
  -- The file is read, or it is refused or cannot be read, which is answered at once.
  | waiting =>
      have haccepts := h.accepts_eq p
      simp only [step]
      rw [haccepts]
      by_cases hp' : ({ filter := filter } : Loader).accepts p = true
      · rw [if_pos hp']
        cases hread : SourceFile.read w.files p with
        | ok file =>
            have hfile : file.IsRead filter base.files p :=
              (hsteady.source p hp w.files h.left file).1 ⟨hp', hread⟩
            exact ⟨hsame rfl _, .refl _, hfile, hknown, fun _ _ => rfl⟩
        | error e =>
            exact ⟨hsame rfl _, .refl _, h.says?_unread hsteady hp hp' hread, hknown,
              fun _ _ => rfl⟩
      · rw [if_neg hp']
        refine ⟨hsame rfl _, .refl _, ?_, hknown, fun _ _ => rfl⟩
        exact (Loader.says?_of_refused hp').symm
  -- A remembered tree is the answer. If there is none, someone else may still remember one before
  -- the lock is taken, so nothing is known yet.
  | looking file =>
      have hfile : file.IsRead filter base.files p := hs
      simp only [step]
      cases hn : l.remembered? file with
      | some n =>
          exact ⟨hsame rfl _, .refl _, h.says?_remembered hp hfile hn, hknown, fun _ _ => rfl⟩
      | none => exact ⟨hsame rfl _, .refl _, hfile, hknown, fun _ _ => rfl⟩
  | locking file => exact ⟨hsame rfl _, .refl _, hs, hknown, fun _ _ => rfl⟩
  -- Now that the lock is held, nobody else will remember a tree of this file.
  | lookingAgain file =>
      have hfile : file.IsRead filter base.files p := hs
      simp only [step]
      cases hn : l.remembered? file with
      | some n =>
          exact ⟨hsame rfl _, .refl _, h.says?_remembered hp hfile hn, hknown, fun _ _ => rfl⟩
      | none =>
          refine ⟨hsame rfl _, .refl _, hfile, fun key hkey => ?_, fun _ _ => rfl⟩
          cases hkey
          exact h.remembered?_eq_none ⟨p, hp, hfile⟩ hn
  -- So the store has what it had at first, and that decides.
  | fetching file =>
      have hfile : file.IsRead filter base.files p := hs
      have hnone : l.memory.get? file.key = none := hunknown _ rfl
      have hpersisted := (hsame rfl .waiting).persisted_iff ⟨p, hp, hfile⟩ hnone
        (not_or.2 ⟨hfree _ rfl, (Option.some_ne_none _).symm⟩)
      simp only [step]
      split
      · rename_i t ht
        refine ⟨hsame rfl _, .refl _, ⟨hfile, ?_⟩, fun key hkey => ?_, fun _ _ => rfl⟩
        · exact Workspace.treeOf_of_fresh ((hpersisted t).1 ht)
        · cases hkey
          exact hnone
      · rename_i hstale
        refine ⟨hsame rfl _, .refl _, ⟨hfile, ?_⟩, fun key hkey => ?_, fun _ _ => rfl⟩
        · exact Workspace.treeOf_of_not_fresh fun t ht => hstale t ((hpersisted t).2 ht)
        · cases hkey
          exact hnone
  -- The outline is made where the store had no tree for the content.
  | making file =>
      obtain ⟨hfile, htree⟩ := hs
      have hnone : l.memory.get? file.key = none := hunknown _ rfl
      simp only [step]
      cases ht : Loader.outline g file with
      | ok t =>
          refine ⟨hsame rfl _, .refl _, ⟨hfile, htree.trans ht⟩, fun key hkey => ?_, fun _ _ => rfl⟩
          cases hkey
          exact hnone
      | error e =>
          refine ⟨hsame rfl _, .refl _, ?_, hknown, fun _ _ => rfl⟩
          show w.shelf.says? (.error e) = _
          rw [Loader.says?_of_isRead hfile, htree, ht]
          rfl
  -- The new bytes are in the store from here on, and the tree is about to be remembered.
  | keeping file t =>
      obtain ⟨hfile, htree⟩ := hs
      have hshelf := w.shelf_keep file.key (t.encode file.fingerprint)
      refine ⟨?_, ?_, ⟨hfile, htree⟩, fun key hkey => ?_, fun _ _ => rfl⟩
      · refine (h.keep hsteady ⟨p, hp, hfile⟩ (t.encode file.fingerprint)).mono fun key hkey => ?_
        rcases hkey with (hkey | hkey) | hkey
        · exact .inl hkey
        · cases hkey
        · exact .inr (congrArg some hkey)
      · show w.shelf.Grows (w.keep file.key (t.encode file.fingerprint)).shelf
        rw [hshelf]
        exact .refl _
      · cases hkey
        exact hunknown _ rfl
  -- Remembering ends this, and answers with the number that the tree gets.
  | remembering file t =>
      obtain ⟨hfile, htree⟩ := hs
      refine ⟨?_, fun n u hu => Shelf.tree?_add_of_some hu t, ?_,
        (fun key hkey => by cases hkey), fun key hkey => ?_⟩
      · have hready : l.Faithful g filter files base (fun key => others key ∨ file.key = key) w :=
          h.mono fun key hkey => hkey.imp_right Option.some.inj
        exact (hready.remember hsteady ⟨p, hp, hfile⟩ htree).mono fun _ => .inl
      · show (w.shelf.add t).2.says? (.ok (w.shelf.add t).1) = _
        rw [Loader.says?_of_isRead hfile, htree, Shelf.says?, Shelf.tree?_add]
        rfl
      · refine (Table.get?_insert l.memory file.key _ key).trans (if_neg ?_)
        rintro rfl
        exact hkey rfl
  | done r => exact ⟨h, .refl _, hs, hknown, fun _ _ => rfl⟩

/-! ### A crew

Between the turns of one worker the others work. What its stage knows does not suffer from this: the
shelf only grows, and of a file whose lock it holds nobody else remembers anything, since no lock is
held twice (`Exclusive`). -/

namespace Crew

/-- Some worker is about to remember the tree of a file with this key. -/
def Ready (c : Crew) (key : String) : Prop := ∃ job ∈ c.jobs, job.2.ready? = some key

/-- What is true of a crew that loads files. Whoever has looked again with the lock taken still
knows that nothing is remembered. -/
structure Faithful (g : Grammar) (filter : Filter) (files : List Path) (base : Workspace)
    (c : Crew) : Prop where
  loader : c.loader.Faithful g filter files base c.Ready c.workspace
  stages : ∀ job ∈ c.jobs, job.2.Faithful g filter base c.workspace.shelf job.1
  unknown : ∀ job ∈ c.jobs, ∀ key, job.2.unknown? = some key → c.loader.memory.get? key = none
  exclusive : c.Exclusive
  paths : c.jobs.map (·.1) = files

variable {c : Crew}

/-- The turn of one worker leaves the files of all others to them. -/
theorem Faithful.turn (h : c.Faithful g filter files base) (hsteady : base.Steady filter files)
    (i : Nat) : (c.turn g i).Faithful g filter files base := by
  have hpaths := (c.paths_turn g i).trans h.paths
  have hexclusive := h.exclusive.turn (g := g) i
  rcases c.turn_cases g i with hturn | ⟨p, s, hjob, -, hturn⟩
  · rw [hturn]
    exact h
  have hmem : (p, s) ∈ c.jobs := List.mem_of_getElem? hjob
  have hp : p ∈ files := h.paths ▸ List.mem_map_of_mem hmem
  obtain ⟨hi, -⟩ := List.getElem?_eq_some_iff.1 hjob
  -- what the others are about to remember
  let others : String → Prop := fun key => ∃ j b, i ≠ j ∧ c.jobs[j]? = some b ∧
    b.2.ready? = some key
  -- Those who are about to remember something are this worker and others.
  have hloader : c.loader.Faithful g filter files base
      (fun key => others key ∨ s.ready? = some key) c.workspace := by
    refine h.loader.mono fun key ⟨b, hb, hkey⟩ => ?_
    obtain ⟨j, hj⟩ := List.getElem?_of_mem hb
    by_cases hij : i = j
    · subst hij
      cases hjob.symm.trans hj
      exact .inr hkey
    · exact .inl ⟨j, b, hij, hj, hkey⟩
  -- The others are not about to remember the file of this worker, for they would hold its lock.
  have hfree : ∀ key, s.held? = some key → ¬ others key := by
    rintro key hheld ⟨j, b, hij, hb, hkey⟩
    exact hij (h.exclusive i j _ b key hjob hb hheld
      (Stage.held?_of_unknown? (Stage.unknown?_of_ready? hkey)))
  obtain ⟨hafter, hgrows, hstage, hunknown, hmemory⟩ :=
    Stage.step_faithful hsteady hp hloader (h.stages _ hmem) (h.unknown _ hmem) hfree
  rw [hturn] at hpaths hexclusive ⊢
  refine ⟨hafter.mono fun key hkey => ?_, fun job hjob' => ?_, fun job hjob' key hkey => ?_,
    hexclusive, hpaths⟩
  · rcases hkey with ⟨j, b, hij, hb, hkey⟩ | hkey
    · refine ⟨b, List.mem_of_getElem? (i := j) ?_, hkey⟩
      rw [List.getElem?_set_ne hij]
      exact hb
    · exact ⟨_, List.mem_set hi _, hkey⟩
  · rcases List.mem_or_eq_of_mem_set hjob' with hjob' | rfl
    · exact (h.stages job hjob').mono hgrows
    · exact hstage
  -- What another worker has found not to be remembered is another file, and memory changes only for
  -- the file of this worker.
  · obtain ⟨j, hj⟩ := List.getElem?_of_mem hjob'
    rcases getElem?_set_cases hj with ⟨-, rfl⟩ | ⟨hij, hj⟩
    · exact hunknown key hkey
    · have hfar : s.held? ≠ some key := fun hheld =>
        hij (h.exclusive i j _ job key hjob hj hheld (Stage.held?_of_unknown? hkey))
      exact (hmemory key hfar).trans (h.unknown job (List.mem_of_getElem? hj) key hkey)

end Crew

end Outline
