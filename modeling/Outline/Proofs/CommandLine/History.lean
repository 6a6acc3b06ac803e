import Outline.CommandLine.Run
import Outline.Proofs.Loader.Crew

/-!
# Outline.Proofs.CommandLine.History

**No history of use leaves anything wrong among the files.** Files come about by use (`Used`) if
users change them as they like, but forge no outlines, and command lines run in between, with any
settings and any turns of their workers. A command line leaves tidy files tidy and changes no files
but those of stores (`Invocation.tidy_runAlong`); so after any such history all that is kept is
right (`Used.tidy`).

Users may do anything with sources. What they may not do is to put a file where a store would look
for it that holds an outline of their own making; a store has no means to tell such a file from its
own.
-/

namespace Outline

open FileSystem (pathOf OfStore)

variable {g : Grammar} {met : List UInt8 → Prop} {fs : FileSystem} {filter : Filter}
  {base : FileSystem} {l : Loader} {w : Workspace}

/-! ### Commands

The invariant is `FileSystem.Tidy`: plain files, sources that were met, and in files of stores
nothing wrong. A command makes directories, lets loaders work and may drop a key; that each of them
keeps files tidy is known, and here they are put one behind the other as the command does. -/

/-- The loader that settings describe knows nothing yet, and its store is no store in memory. -/
theorem Settings.open_spec (s : Settings) (user : User) (hash : Distinct met)
    (h : fs.Tidy g met) :
    (s.open user fs).2.Tidy g met ∧ fs.Keeps (s.open user fs).2 ∧
      ∀ l store, (s.open user fs).1 = .ok (l, store) →
        l.Tidy g met l.filter (s.open user fs).2 { files := (s.open user fs).2, store := store } ∧
          s.filter = .ok l.filter := by
  -- whichever store is made, the loader is new, so that it knows nothing is all there is to show
  have hloader : ∀ (files : FileSystem) (made store : Store) (l : Loader), files.Tidy g met →
      (∀ entries failing, made ≠ .memory entries failing) →
      ((s.filter.mapError SetupError.glob).map fun f => (({ filter := f } : Loader), made)) =
        .ok (l, store) →
      l.Tidy g met l.filter files { files := files, store := store } ∧ s.filter = .ok l.filter := by
    intro files made store l hfiles hmade heq
    cases hfilter : s.filter with
    | error e =>
        rw [hfilter] at heq
        cases heq
    | ok f =>
        rw [hfilter] at heq
        cases heq
        exact ⟨⟨Loader.Sound.fresh f _, rfl, ⟨hfiles, hmade⟩, .refl files⟩, rfl⟩
  unfold Settings.open
  cases s.cacheDir? user.outlinesDir? with
  | none =>
      exact ⟨h, .refl fs, fun l store => hloader fs .null store l h fun _ _ => Store.noConfusion⟩
  | some dir =>
      dsimp only
      rw [Store.openDisk]
      cases hdirs : fs.makeDirs dir with
      | error e => exact ⟨h, .refl fs, fun l store heq => by cases heq⟩
      | ok files =>
          obtain ⟨hfiles, hkeeps⟩ := h.makeDirs hash hdirs
          exact ⟨hfiles, hkeeps, fun l store =>
            hloader files (.disk dir) store l hfiles fun _ _ => Store.noConfusion⟩

section

variable (hash : Distinct met) (size : Numbered g met)

include hash size

/-- A task leaves files tidy, and changes no files but those of stores. -/
theorem Task.tidy_run (h : l.Tidy g met filter base w) (t : Task) (ink : Ink) (pace : Pace) :
    (t.run g ink pace l w).2.files.Tidy g met ∧ base.Keeps (t.run g ink pace l w).2.files := by
  cases t with
  | index p f =>
      rw [Task.run, runIndex]
      split
      · exact ⟨h.workspace.files, h.keeps⟩
      · exact ⟨h.workspace.files, h.keeps⟩
      · rename_i root files _ _
        obtain ⟨htidy, -⟩ := h.loadFiles hash size pace files
        exact ⟨htidy.workspace.files, htidy.keeps⟩
  | showFile p f =>
      obtain ⟨htidy, -⟩ := h.load hash size p
      rw [Task.run, runShow]
      split
      · rename_i hload
        rw [hload] at htidy
        exact ⟨htidy.workspace.files, htidy.keeps⟩
      · rename_i hload
        rw [hload] at htidy
        exact ⟨htidy.workspace.files, htidy.keeps⟩
  | find p plan f =>
      rw [Task.run, runFind]
      split
      · exact ⟨h.workspace.files, h.keeps⟩
      · rename_i root files _
        obtain ⟨htidy, -⟩ := h.loadFiles hash size pace files
        exact ⟨htidy.workspace.files, htidy.keeps⟩
  -- nothing is loaded: one key is dropped, and with it at most a file of the store
  | invalidate p =>
      obtain ⟨htidy, hkeeps⟩ := h.workspace.drop hash (w.files.key p)
      have hafter : (l.invalidate w p).2.2 = (w.drop (w.files.key p)).2 := rfl
      rw [← hafter] at htidy hkeeps
      rw [Task.run, runInvalidate]
      split
      · rename_i hdrop
        rw [hdrop] at htidy hkeeps
        exact ⟨htidy.files, h.keeps.trans hkeeps⟩
      · rename_i hdrop
        rw [hdrop] at htidy hkeeps
        exact ⟨htidy.files, h.keeps.trans hkeeps⟩

/-- A command line leaves files tidy, and changes no files but those of stores. -/
theorem Invocation.tidy_runAlong (h : fs.Tidy g met) (i : Invocation) (ink : Ink) (user : User)
    (turns : List Nat) :
    (i.runAlong g ink user turns fs).2.Tidy g met ∧
      fs.Keeps (i.runAlong g ink user turns fs).2 := by
  -- what the attempt leaves is what the command leaves, whether it fails or not
  have hattempt : (i.attempt g ink user turns fs).2.Tidy g met ∧
      fs.Keeps (i.attempt g ink user turns fs).2 := by
    unfold attempt
    dsimp only
    split
    · exact ⟨h, .refl fs⟩
    · rename_i t s _
      obtain ⟨hfiles, hkeeps, hopen⟩ := s.open_spec user hash h
      split
      · rename_i heq
        rw [heq] at hfiles hkeeps
        exact ⟨hfiles, hkeeps⟩
      · rename_i l store files heq
        rw [heq] at hfiles hkeeps hopen
        obtain ⟨hloader, -⟩ := hopen l store rfl
        obtain ⟨htidy, hkeeps'⟩ := t.tidy_run hash size hloader ink (s.pace turns)
        exact ⟨htidy, hkeeps.trans hkeeps'⟩
  unfold runAlong
  split
  · rename_i heq
    rw [heq] at hattempt
    exact hattempt
  · rename_i heq
    rw [heq] at hattempt
    exact hattempt

end

/-! ### Use

`Used` is the least set of file systems that has those at first and is closed under edits and
command lines. So what is to be shown of all histories is shown by induction on this one. -/

namespace FileSystem

/-- Somewhere a file that a store could have named so holds an outline, of whatever. -/
def HoldsOutline (fs : FileSystem) (n : String) (c : List UInt8) : Prop :=
  OfStore n ∧ (∃ r, Tree.decode c = .ok r) ∧ ∃ l, fs.entry? (l ++ [n]) = some (.file c)

end FileSystem

/-- Files that come about by use: at first no store holds an outline; then users change what they
like, but bring in no outlines that were not there under the same name, and command lines run. -/
inductive Used (g : Grammar) (ink : Ink) (met : List UInt8 → Prop) : FileSystem → Prop
  | start {fs : FileSystem} (plain : fs.Plain) (sources : fs.AllMet met)
    (clean : ∀ n c, ¬ fs.HoldsOutline n c) : Used g ink met fs
  | edit {fs fs' : FileSystem} (before : Used g ink met fs) (plain : fs'.Plain)
    (sources : fs'.AllMet met)
    (unforged : ∀ n c, fs'.HoldsOutline n c → fs.HoldsOutline n c) : Used g ink met fs'
  | run {fs : FileSystem} (before : Used g ink met fs) (user : User) (turns : List Nat)
    (i : Invocation) : Used g ink met (i.runAlong g ink user turns fs).2

/-- After any history of use the files are tidy. -/
theorem Used.tidy {ink : Ink} (hash : Distinct met) (size : Numbered g met)
    (h : Used g ink met fs) : fs.Tidy g met := by
  induction h with
  | start plain sources clean =>
      refine ⟨plain, sources, fun l key c f t _ he hdecode => ?_⟩
      exact absurd ⟨⟨key, rfl⟩, ⟨_, hdecode⟩, l, he⟩ (clean _ c)
  -- an outline that a store may read now stood under the same name before the edit, and was right
  | edit before plain sources unforged ih =>
      refine ⟨plain, sources, fun l key c f t hkey he hdecode => ?_⟩
      obtain ⟨-, -, k, hk⟩ := unforged _ c ⟨⟨key, rfl⟩, ⟨_, hdecode⟩, l, he⟩
      exact ih.stored k key c f t hkey hk hdecode
  | run before user turns i ih => exact (i.tidy_runAlong hash size ih ink user turns).1

/-- To write a source file is to use the files. -/
theorem Used.write {ink : Ink} (hash : Distinct met) (size : Numbered g met)
    (h : Used g ink met fs) {d : Location} {n : String} (hd : fs.isDirAt d = true) (hn : IsName n)
    (hfile : fs.isDirAt (d ++ [n]) = false)
    (hsource : (Language.ofPath? (pathOf (d ++ [n]))).isSome) {c : List UInt8} (hc : met c)
    (hkey : met (pathOf (d ++ [n])).text.toUTF8.toList) :
    Used g ink met (fs.set (d ++ [n]) (.file c)) := by
  have htidy := h.tidy hash size
  have hentry := fun k => FileSystem.entry?_set fs (FileSystem.append_singleton_ne_nil d n)
    (.file c) k
  have hplain := htidy.plain.set hd hn (.inr ⟨⟨c, rfl⟩, hfile⟩)
  refine h.edit hplain (fun l k b hlang he => ?_) fun k b hk => ?_
  · rw [hentry] at he
    split at he
    · rename_i heq
      cases he
      rw [heq]
      exact ⟨hc, hkey⟩
    · exact htidy.sources l k b hlang he
  · obtain ⟨hstore, houtline, l, he⟩ := hk
    refine ⟨hstore, houtline, l, ?_⟩
    rw [hentry] at he
    split at he
    · -- A source file is no file of a store.
      rename_i heq
      have hlocation : IsLocation (d ++ [n]) := hplain.names _ (by rw [hentry, if_pos rfl]; rfl)
      rw [FileSystem.eq_of_append_singleton heq] at hstore
      exact absurd hstore
        (FileSystem.not_ofStore_of_ofPath? (FileSystem.fileName?_pathOf_append hlocation) hsource)
    · exact he

end Outline
