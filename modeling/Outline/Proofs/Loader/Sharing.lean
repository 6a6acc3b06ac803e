import Outline.Proofs.Loader.History

/-!
# Outline.Proofs.Loader.Sharing

**For one content of a file a loader answers with one tree.** As long as a loader is not told to
forget a file, and gives no tree for another content of it, it remembers the tree that it gave
(`History.recalls_step`), whatever happens to the store, which may be any store here. On the shelf
the tree stays, and so do the live nodes that were made in it (`Shelf.Keeps`): one step of a run
changes the shelf in one of three ways (`History.shelf_step`).

Two things have to last through the events between the first call and the later one, and they last
for different reasons. What the loader remembers may be lost, so the events have to leave it alone;
this is the hypothesis on them (`History.AllSpare`). What stands on the shelf is never lost,
whatever the events are. Both are shown for one event, and then for any number of them.
-/

namespace Outline

/-! ### Calls about one content

A call tells its content, or reads it; in either case the call is about one key and one content
(`TreeCall.About`), and about no others. -/

namespace TreeCall

variable {g : Grammar} {l : Loader} {w : Workspace} {c : TreeCall} {file : SourceFile}
  {key : String} {content : List UInt8}

/-- The call is for the file with a key, and for a content that the file is said to have or has. -/
def About (files : FileSystem) (key : String) (content : List UInt8) : TreeCall → Prop
  | readOrBuild s _ | loadFile s | readPersisted s => s.file.key = key ∧ s.content = content
  | load p => files.key p = key ∧ files.read p = .ok content

/-- A call with a file is about the key and the content of the file. -/
theorem about_of_file? (h : c.file? l w = .ok file) :
    c.About w.files file.key file.content ∧ file.fingerprint = .ofContent file.content := by
  cases c with
  | load p =>
      rw [file?] at h
      split at h
      · unfold SourceFile.read at h
        split at h
        · rename_i content hread
          cases h
          exact ⟨⟨rfl, hread⟩, rfl⟩
        · cases h
      · cases h
  | _ =>
      cases h
      exact ⟨⟨rfl, rfl⟩, rfl⟩

/-- So what a call is about can be compared. -/
theorem About.unique {files : FileSystem} {key' : String} {content' : List UInt8}
    (h : c.About files key content) (h' : c.About files key' content') :
    key = key' ∧ content = content' := by
  cases c with
  | load p => exact ⟨h.1.symm.trans h'.1, Except.ok.inj (h.2.symm.trans h'.2)⟩
  | _ => exact ⟨h.1.symm.trans h'.1, h.2.symm.trans h'.2⟩

/-- A call that is about something has a file, unless it loads by a path that is refused. -/
theorem About.exists_file (h : c.About w.files key content)
    (haccepts : ∀ p, c = .load p → l.accepts p = true) : ∃ file, c.file? l w = .ok file := by
  cases c with
  | load p =>
      refine ⟨.ofContent w.files p content, (if_pos (haccepts p rfl)).trans ?_⟩
      unfold SourceFile.read
      rw [h.2]
  | _ => exact ⟨_, rfl⟩

end TreeCall

/-! ### What is remembered

Only a call with a new answer changes what is remembered, and it does so for its own key. If that is
the key in question, the call either has found what was remembered for the content, and then its
answer is no new one; or it is about another content, which is what is excluded. -/

/-- A loader remembers a tree for a content of the file with a key. -/
def Loader.Recalls (l : Loader) (key : String) (content : List UInt8) (n : Nat) : Prop :=
  l.memory.get? key = some ⟨.ofContent content, n⟩

namespace Loader.Recalls

variable {g : Grammar} {l : Loader} {w : Workspace} {c : TreeCall} {file : SourceFile}
  {key : String} {content : List UInt8} {n : Nat}

/-- To remember a tree for a content is to find it for a file that has this content. -/
theorem iff_remembered? (hfile : file.fingerprint = .ofContent file.content) :
    l.Recalls file.key file.content n ↔ l.remembered? file = some n := by
  unfold Recalls Loader.remembered?
  rw [← hfile]
  cases l.memory.get? file.key with
  | none => exact iff_of_false (Option.some_ne_none _).symm (Option.some_ne_none _).symm
  | some m =>
      obtain ⟨f, k⟩ := m
      dsimp only
      rw [Option.some.injEq, Memo.mk.injEq, Option.ite_none_right_eq_some, Option.some.injEq]

/-- What a loader remembers is the answer, and answering changes nothing. -/
theorem run_eq (h : l.Recalls key content n) (hc : c.About w.files key content)
    (haccepts : ∀ p, c = .load p → l.accepts p = true) : c.run g l w = (.ok (some n), l, w) := by
  obtain ⟨file, hfile⟩ := hc.exists_file haccepts
  obtain ⟨habout, hf⟩ := TreeCall.about_of_file? hfile
  obtain ⟨rfl, rfl⟩ := hc.unique habout
  refine (TreeCall.run_of_found hfile ?_).1
  unfold Loader.readPersisted
  rw [(iff_remembered? hf).1 h]

/-- What is remembered of a file is found for its content. -/
theorem remember (hf : file.fingerprint = .ofContent file.content) (w : Workspace) (t : Tree) :
    (l.remember w file t).2.1.Recalls file.key file.content (l.remember w file t).1 := by
  show (l.memory.insert _ _).get? _ = _
  rw [Table.get?_insert, if_pos rfl, hf]
  rfl

/-- What a loader answers with, it remembers. -/
theorem of_answer (hn : (c.run g l w).1 = .ok (some n)) (hc : c.About w.files key content) :
    (c.run g l w).2.1.Recalls key content n := by
  have hcame := c.came g l w
  generalize c.run g l w = r at hcame hn ⊢
  generalize c.built? g l w = b at hcame
  -- A tree that was remembered already, one from the store, or one that was built.
  cases hcame with
  | nothing h => exact absurd hn (h n)
  | remembered hfile hm =>
      cases hn
      obtain ⟨habout, hf⟩ := TreeCall.about_of_file? hfile
      obtain ⟨rfl, rfl⟩ := hc.unique habout
      exact (iff_remembered? hf).2 hm
  | kept hfile hforgot ht =>
      cases hn
      obtain ⟨habout, hf⟩ := TreeCall.about_of_file? hfile
      obtain ⟨rfl, rfl⟩ := hc.unique habout
      exact remember hf w _
  | built hfile hforgot hlost ht =>
      cases hn
      obtain ⟨habout, hf⟩ := TreeCall.about_of_file? hfile
      obtain ⟨rfl, rfl⟩ := hc.unique habout
      exact remember hf _ _

/-- What a loader remembers is not changed by a call that gives no tree for another content. -/
theorem run (h : l.Recalls key content n)
    (hc : ∀ m, (c.run g l w).1 = .ok (some m) →
      ∀ content', c.About w.files key content' → content' = content) :
    (c.run g l w).2.1.Recalls key content n := by
  -- A call that takes the place of what was remembered would have found it.
  have hother : ∀ file m, c.file? l w = .ok file → (c.run g l w).1 = .ok (some m) →
      l.remembered? file = none → key ≠ file.key := by
    rintro file m hfile hm hforgot rfl
    obtain ⟨habout, hf⟩ := TreeCall.about_of_file? hfile
    obtain rfl := hc m hm _ habout
    rw [(iff_remembered? hf).1 h] at hforgot
    cases hforgot
  have hcame := c.came g l w
  generalize c.run g l w = r at hcame hother ⊢
  generalize c.built? g l w = b at hcame
  cases hcame with
  | nothing => exact h
  | remembered => exact h
  | kept hfile hforgot ht =>
      exact (Table.get?_insert _ _ _ _).trans
        ((if_neg (hother _ _ hfile rfl hforgot)).trans h)
  | built hfile hforgot hlost ht =>
      exact (Table.get?_insert _ _ _ _).trans
        ((if_neg (hother _ _ hfile rfl hforgot)).trans h)

end Loader.Recalls

/-- What a loader remembers after it has been given a tree it remembered before, or it is the
tree. -/
theorem Loader.remembered_remember {l : Loader} {w : Workspace} {file : SourceFile} {t : Tree}
    {key : String} {m : Memo} (hm : (l.remember w file t).2.1.memory.get? key = some m) :
    l.memory.get? key = some m ∨ ∃ u, (l.remember w file t).2.2.shelf.tree? m.tree = some u := by
  replace hm : (l.memory.insert file.key ⟨file.fingerprint, (w.shelf.add t).1⟩).get? key =
    some m := hm
  rw [Table.get?_insert] at hm
  split at hm
  · cases hm
    exact .inr ⟨t, w.shelf.tree?_add t⟩
  · exact .inl hm

/-! ### The shelf

Nothing is ever taken from the shelf. A tree that is put there gets the next number; a call for live
nodes fills slots of one tree and empties none. For this the slots have to fit their tree, which is
why the two properties are proved together. -/

namespace Shelf

/-- The trees of one shelf stand on another under the same numbers, with at least the same live
nodes, and for those no factory has run since. -/
def Keeps (s s' : Shelf) : Prop :=
  ∀ (n : Nat) (t : Tree) (slots : Slots), s.trees[n]? = some (t, slots) →
    ∃ slots' : Slots, s'.trees[n]? = some (t, slots') ∧ ∀ j x, slots.live? j = some x →
      slots'.live? j = some x ∧ slots'.runs.count j = slots.runs.count j

/-- Every tree on a shelf has one slot for each node. -/
def Fits (s : Shelf) : Prop :=
  ∀ (n : Nat) (t : Tree) (slots : Slots), s.trees[n]? = some (t, slots) →
    slots.nodes.size = t.size

variable {s s' s'' : Shelf}

theorem Keeps.refl (s : Shelf) : s.Keeps s := fun _ _ slots h => ⟨slots, h, fun _ _ hj => ⟨hj, rfl⟩⟩

/-- What is kept twice is kept. -/
theorem Keeps.trans (h : s.Keeps s') (h' : s'.Keeps s'') : s.Keeps s'' := by
  intro n t slots hn
  obtain ⟨slots', hn', hlive⟩ := h n t slots hn
  obtain ⟨slots'', hn'', hlive'⟩ := h' n t slots' hn'
  refine ⟨slots'', hn'', fun j x hj => ?_⟩
  obtain ⟨hj', hruns⟩ := hlive j x hj
  obtain ⟨hj'', hruns'⟩ := hlive' j x hj'
  exact ⟨hj'', hruns'.trans hruns⟩

/-- A number stands for the same tree as before. -/
theorem Keeps.tree? (h : s.Keeps s') {n : Nat} {t : Tree} (ht : s.tree? n = some t) :
    s'.tree? n = some t := by
  obtain ⟨⟨u, slots⟩, hn, rfl⟩ := Option.map_eq_some_iff.1 ht
  obtain ⟨slots', hn', -⟩ := h n u slots hn
  rw [Shelf.tree?, hn']
  rfl

/-- On the empty shelf there is nothing to fit. -/
theorem fits_empty : ({} : Shelf).Fits := fun _ _ _ h => nomatch h

/-- The new tree stands behind all others, with empty slots. -/
theorem getElem?_add (s : Shelf) (t : Tree) (n : Nat) : (s.add t).2.trees[n]? =
    if n = s.trees.size then some (t, .forTree t) else s.trees[n]? := Array.getElem?_push

/-- A tree that is put behind the others changes nothing about them. -/
theorem keeps_add (s : Shelf) (t : Tree) : s.Keeps (s.add t).2 := by
  intro n u slots hn
  have hlt := (Array.getElem?_eq_some_iff.1 hn).1
  refine ⟨slots, ?_, fun _ _ hj => ⟨hj, rfl⟩⟩
  rw [getElem?_add, if_neg (Nat.ne_of_lt hlt), hn]

/-- A tree comes with a slot for each of its nodes. -/
theorem Fits.add (h : s.Fits) (t : Tree) : (s.add t).2.Fits := by
  intro n u slots hn
  rw [getElem?_add] at hn
  split at hn
  · cases hn
    exact Array.size_replicate
  · exact h n u slots hn

/-- A call for live nodes keeps those that are there, and runs no factory for them. -/
theorem keeps_asked (h : s.Fits) (n : Nat) (c : LiveCall) : s.Keeps (s.asked n c) := by
  intro m t slots hm
  rw [trees_asked]
  split
  · rename_i hmn
    obtain rfl := hmn
    rw [hm]
    have hgained := c.run_gained (h m t slots hm)
    exact ⟨_, rfl, fun j x hj => ⟨hgained.kept hj, hgained.runs j x hj⟩⟩
  · exact ⟨slots, hm, fun _ _ hj => ⟨hj, rfl⟩⟩

/-- And it makes no slots. -/
theorem Fits.asked (h : s.Fits) (n : Nat) (c : LiveCall) : (s.asked n c).Fits := by
  intro m t slots hm
  rw [trees_asked] at hm
  split at hm
  · obtain ⟨⟨u, before⟩, hn, heq⟩ := Option.map_eq_some_iff.1 hm
    cases heq
    exact (c.run_gained (h n u before hn)).size.trans (h n u before hn)
  · exact h m t slots hm

end Shelf

/-- What a loader remembers after a call it remembered before, or it is a tree on the shelf. -/
theorem TreeCall.remembered_run {g : Grammar} {l : Loader} {w : Workspace} (c : TreeCall)
    {key : String} {m : Memo} (hm : (c.run g l w).2.1.memory.get? key = some m) :
    l.memory.get? key = some m ∨ ∃ t, (c.run g l w).2.2.shelf.tree? m.tree = some t := by
  have hcame := c.came g l w
  generalize c.run g l w = r at hcame hm ⊢
  generalize c.built? g l w = b at hcame
  cases hcame with
  | nothing => exact .inl hm
  | remembered => exact .inl hm
  | @kept _ t => exact Loader.remembered_remember hm
  | @built _ t => exact Loader.remembered_remember hm

/-- A call puts at most one tree on the shelf. -/
theorem TreeCall.shelf_run (g : Grammar) (l : Loader) (w : Workspace) (c : TreeCall) :
    (c.run g l w).2.2.shelf = w.shelf ∨ ∃ t, (c.run g l w).2.2.shelf = (w.shelf.add t).2 := by
  have hcame := c.came g l w
  generalize c.run g l w = r at hcame ⊢
  generalize c.built? g l w = b at hcame
  cases hcame with
  | nothing => exact .inl rfl
  | remembered => exact .inl rfl
  | @kept _ t => exact .inr ⟨t, rfl⟩
  | @built file t =>
      refine .inr ⟨t, ?_⟩
      rw [← w.shelf_keep file.key (t.encode file.fingerprint)]
      rfl

namespace History

variable {g : Grammar} {h : History}

/-- The trees that were handed out. -/
def shelf (h : History) : Shelf := h.session.workspace.shelf

/-- An event puts a tree on the shelf, or fills slots of one that stands there, or does neither. -/
theorem shelf_step (g : Grammar) (h : History) (e : Event) :
    (h.step g e).shelf = h.shelf ∨ (∃ t, (h.step g e).shelf = (h.shelf.add t).2) ∨
      ∃ n c, (h.step g e).shelf = h.shelf.asked n c := by
  cases e with
  | call i c =>
      rcases c.shelf_run g (h.session.loaders i) h.session.workspace with hs | hs
      · exact .inl hs
      · exact .inr (.inl hs)
  | invalidate i p => exact .inl (Workspace.shelf_drop _ _)
  | live n c => exact .inr (.inr ⟨n, c, rfl⟩)
  | _ => exact .inl rfl

/-- Every tree on the shelf has one slot for each node, and what loaders remember is there. -/
structure Orderly (h : History) : Prop where
  fits : h.shelf.Fits
  remembered : ∀ i key m, (h.session.loaders i).memory.get? key = some m →
    ∃ t, h.shelf.tree? m.tree = some t

/-- At the start the shelf is empty and nothing is remembered. -/
theorem orderly_start (store : Store) (files : FileSystem) : (start store files).Orderly where
  fits := Shelf.fits_empty
  remembered i key m hm := by
    rw [show ((start store files).session.loaders i).memory = .empty from rfl,
      Table.get?_empty] at hm
    cases hm

/-- One event, as far as the shelf goes: the three ways in which it may change. -/
theorem fits_step (hf : h.shelf.Fits) (e : Event) :
    (h.step g e).shelf.Fits ∧ h.shelf.Keeps (h.step g e).shelf := by
  rcases shelf_step g h e with hs | ⟨t, hs⟩ | ⟨n, c, hs⟩
  · rw [hs]
    exact ⟨hf, .refl _⟩
  · rw [hs]
    exact ⟨hf.add t, Shelf.keeps_add _ t⟩
  · rw [hs]
    exact ⟨hf.asked n c, Shelf.keeps_asked hf n c⟩

/-- What a loader remembers after an event it remembered before, or it is a tree on the shelf. -/
theorem remembered_step (g : Grammar) (h : History) (e : Event) {i : Nat} {key : String} {m : Memo}
    (hm : ((h.step g e).session.loaders i).memory.get? key = some m) :
    (h.session.loaders i).memory.get? key = some m ∨
      ∃ t, (h.step g e).shelf.tree? m.tree = some t := by
  cases e with
  -- Only the loader that the event is about remembers anything else afterwards; the others see
  -- their memory as it was.
  | call j c =>
      by_cases hj : i = j
      · obtain rfl := hj
        unfold step at hm
        rw [Session.loaders_after_self] at hm
        exact c.remembered_run hm
      · exact .inl ((Session.loaders_after_of_ne hj ..) ▸ hm)
  | invalidate j p =>
      by_cases hj : i = j
      · obtain rfl := hj
        unfold step at hm
        rw [Session.loaders_after_self] at hm
        replace hm : (Table.erase _ _).get? key = some m := hm
        rw [Table.get?_erase] at hm
        split at hm
        · cases hm
        · exact .inl hm
      · exact .inl ((Session.loaders_after_of_ne hj ..) ▸ hm)
  | renew j filter =>
      by_cases hj : i = j
      · obtain rfl := hj
        unfold step at hm
        rw [Session.loaders_after_self] at hm
        replace hm : Table.empty.get? key = some m := hm
        rw [Table.get?_empty] at hm
        cases hm
      · exact .inl ((Session.loaders_after_of_ne hj ..) ▸ hm)
  | _ => exact .inl hm

/-- One event keeps the order: numbers that were remembered still stand for trees. -/
theorem Orderly.step (ho : h.Orderly) (e : Event) :
    (h.step g e).Orderly ∧ h.shelf.Keeps (h.step g e).shelf := by
  obtain ⟨hfits, hkeeps⟩ := fits_step (g := g) ho.fits e
  refine ⟨⟨hfits, fun i key m hm => ?_⟩, hkeeps⟩
  rcases remembered_step g h e hm with hold | hnew
  · obtain ⟨t, ht⟩ := ho.remembered i key m hold
    exact ⟨t, hkeeps.tree? ht⟩
  · exact hnew

/-- Over any events the shelf keeps what is on it. -/
theorem Orderly.foldl (ho : h.Orderly) (events : List Event) :
    (events.foldl (History.step g) h).Orderly ∧
      h.shelf.Keeps (events.foldl (History.step g) h).shelf := by
  induction events generalizing h with
  | nil => exact ⟨ho, .refl _⟩
  | cons e events ih =>
      obtain ⟨ho', hkeeps⟩ := ho.step (g := g) e
      obtain ⟨ho'', hkeeps'⟩ := ih ho'
      exact ⟨ho'', hkeeps.trans hkeeps'⟩

/-- A run is orderly from its start. -/
theorem orderly_run (g : Grammar) (store : Store) (files : FileSystem) (events : List Event) :
    (run g store files events).Orderly :=
  ((orderly_start store files).foldl events).1

/-! ### Runs that leave a content alone -/

/-- An event is no reason for a loader to forget what it remembers for a content: it is no
invalidation of the key by this loader, and no call of it that gives a tree for another content. -/
def Spares (g : Grammar) (h : History) (i : Nat) (key : String) (content : List UInt8) :
    Event → Prop
  | .call j c => j = i → ∀ n,
      (c.run g (h.session.loaders j) h.session.workspace).1 = .ok (some n) →
      ∀ content', c.About h.session.workspace.files key content' → content' = content
  | .invalidate j p => j = i → h.session.workspace.files.key p ≠ key
  | .renew j _ => j ≠ i
  | _ => True

/-- None of some events is a reason for a loader to forget. -/
def AllSpare (g : Grammar) (i : Nat) (key : String) (content : List UInt8) :
    History → List Event → Prop
  | _, [] => True
  | h, e :: events => h.Spares g i key content e ∧ AllSpare g i key content (h.step g e) events

variable {i : Nat} {key : String} {content : List UInt8} {n : Nat}

/-- One event that spares the content. For another loader it does nothing to this memory. -/
theorem recalls_step (hr : (h.session.loaders i).Recalls key content n) {e : Event}
    (he : h.Spares g i key content e) :
    ((h.step g e).session.loaders i).Recalls key content n := by
  cases e with
  | call j c =>
      unfold step
      by_cases hj : i = j
      · obtain rfl := hj
        rw [Session.loaders_after_self]
        exact hr.run (he rfl)
      · rw [Session.loaders_after_of_ne hj]
        exact hr
  | invalidate j p =>
      unfold step
      by_cases hj : i = j
      · obtain rfl := hj
        rw [Session.loaders_after_self]
        exact (Table.get?_erase _ _ _).trans ((if_neg (he rfl).symm).trans hr)
      · rw [Session.loaders_after_of_ne hj]
        exact hr
  | renew j filter =>
      unfold step
      rw [Session.loaders_after_of_ne (Ne.symm he)]
      exact hr
  | _ => exact hr

/-- Any number of events, each of which spares the content in the state that it meets. -/
theorem recalls_foldl {events : List Event} (hr : (h.session.loaders i).Recalls key content n)
    (he : AllSpare g i key content h events) :
    ((events.foldl (step g) h).session.loaders i).Recalls key content n := by
  induction events generalizing h with
  | nil => exact hr
  | cons e events ih => exact ih (recalls_step hr he.1) he.2

end History

/-- **For one content of a file a loader answers with one tree.** A loader has answered with a tree
for a content of a file. Then, as long as it is not told to forget the file and gives no tree for
another content of it, every call for this content is answered with the same tree, whatever else
happens; only loading by a path that the loader does not accept is refused. In this tree every live
node that was made at any time is still in its slot, answers, and no factory runs for it again. -/
theorem same_content_same_tree (g : Grammar) (store : Store) (files : FileSystem)
    (before : List Event) (i : Nat) (first : TreeCall) (between : List Event) (later : TreeCall)
    (key : String) (content : List UInt8) (n : Nat) :
    let h := History.run g store files before
    let h' := h.step g (.call i first)
    let final := between.foldl (History.step g) h'
    let l := final.session.loaders i
    let w := final.session.workspace
    first.About h.session.workspace.files key content →
    (first.run g (h.session.loaders i) h.session.workspace).1 = .ok (some n) →
    History.AllSpare g i key content h' between →
    later.About w.files key content →
    ((∀ p, later = .load p → l.accepts p = true) → later.run g l w = (.ok (some n), l, w)) ∧
    (∀ p, later = .load p → l.accepts p = false →
      later.run g l w = (.error (.unsupported p), l, w)) ∧
    (∃ t, h'.shelf.tree? n = some t ∧ final.shelf.tree? n = some t) ∧
    ∀ early late, between = early ++ late →
      ∀ t slots, (early.foldl (History.step g) h').shelf.trees[n]? = some (t, slots) →
      ∀ j x, slots.live? j = some x →
        ∃ slots', final.shelf.trees[n]? = some (t, slots') ∧
          slots'.runs.count j = slots.runs.count j ∧
          (LiveCall.cached j).run t slots' = (.ok [x], slots') ∧
          ∀ r, (LiveCall.live r j).run t slots' = (.ok [x], slots') := by
  intro h h' final l w hfirst hn hbetween hlater
  have ho : h.Orderly := History.orderly_run g store files before
  -- Whichever call was the first, it leaves its answer in the memory of the loader.
  have hrecalls : (h'.session.loaders i).Recalls key content n := by
    rw [show h'.session.loaders i = _ from Session.loaders_after_self ..]
    exact .of_answer hn hfirst
  obtain ⟨ho', -⟩ := ho.step (g := g) (.call i first)
  obtain ⟨t, ht⟩ := ho'.remembered i key _ hrecalls
  refine ⟨(History.recalls_foldl hrecalls hbetween).run_eq hlater, ?_,
    ⟨t, ht, (ho'.foldl between).2.tree? ht⟩, ?_⟩
  · rintro p rfl hrefuses
    exact TreeCall.run_of_no_file (TreeCall.file?_of_refuses hrefuses)
  -- The live node is in its slot after the early events; the late ones keep it there.
  · rintro early late rfl t slots hslots j x hj
    have hkeeps := ((ho'.foldl (g := g) early).1.foldl (g := g) late).2
    rw [← List.foldl_append] at hkeeps
    obtain ⟨slots', hslots', hlive⟩ := hkeeps n t slots hslots
    obtain ⟨hj', hruns⟩ := hlive j x hj
    refine ⟨slots', hslots', hruns, ?_, fun r => ?_⟩
    · rw [LiveCall.run_cached, hj']
      rfl
    · rw [LiveCall.run_live, Tree.on_live_of_some hj']
      rfl

/-- A file is loaded and the live node of its function made. The store refuses everything and what
it kept is spoiled; another loader loads the file with another content, and is told to forget it.
Now there are no declarations, but the tree is still there with its live node. -/
theorem same_content_same_tree_live :
    let g := Grammar.naming
    let seen (content : List UInt8) : Sighting := ⟨{}, ⟨"/a.py"⟩, content⟩
    let first : TreeCall := .loadFile (seen [97])
    let early : List Event := [.refuse [.load, .store, .remove], .live 0 (.live .standard 1)]
    let late : List Event := [.overwrite (seen [97]).file.key [], .call 1 (.loadFile (seen [98])),
      .invalidate 1 ⟨"/a.py"⟩]
    let h' := (History.run g .inMemory {} []).step g (.call 0 first)
    let final := (early ++ late).foldl (History.step g) h'
    let l := final.session.loaders 0
    let w := final.session.workspace
    (TreeCall.readOrBuild (seen [97]) []).run g l w = (.ok (some 0), l, w) ∧
      ∃ t slots x, final.shelf.trees[0]? = some (t, slots) ∧ x.element = .callable "a" none none ∧
        (LiveCall.cached 1).run t slots = (.ok [x], slots) := by
  intro g seen first early late h' final l w
  obtain ⟨t, -, ht, -, -, -⟩ := exists_tree_naming "a.py" "a" (by decide)
  have hlisting : listingOf? g ⟨"/a.py"⟩ [97] = some (namingEntries "a.py" "a") :=
    listing_naming (by decide) (by decide) (by decide +kernel) (by decide)
  have hmakes : first.made? g (seen [97]).file = some (.ok t) :=
    congrArg some (outline_of_listing hlisting ht)
  have hrun := TreeCall.run_of_not_found (g := g) (l := {}) (w := { store := .inMemory })
    (c := first) rfl rfl
  rw [hmakes] at hrun
  obtain ⟨hrun, -⟩ := Prod.mk.inj hrun
  have hn : (first.run g {} { store := .inMemory }).1 = .ok (some 0) := by
    rw [hrun]
    rfl
  have hshelf : h'.shelf.trees[0]? = some (t, .forTree t) := by
    show (first.run g {} { store := .inMemory }).2.2.shelf.trees[0]? = _
    rw [hrun]
    rfl
  obtain ⟨⟨kind, payload, parent, below⟩, hnode, rfl, rfl⟩ :=
    (describes_of_ofEntries ht).node 1 _ rfl
  let x : LiveNode := ⟨1, parent, .function, .callable "a" none none⟩
  have hmade : Registry.standard.materialize t 1 = .ok x := by
    rw [Registry.materialize, hnode]
    rfl
  have hslots : (early.foldl (History.step g) h').shelf.trees[0]? =
      some (t, ((LiveCall.live .standard 1).run t (.forTree t)).2) := by
    show (h'.shelf.asked 0 (.live .standard 1)).trees[0]? = _
    rw [Shelf.trees_asked, if_pos rfl, hshelf]
    rfl
  have hfilled := (LiveCall.run_live_of_materialize (t.size_after [])
    (Slots.live?_forTree t 1) hmade).2
  -- What the other loader does is about the same key, but that loader is not asked afterwards.
  have hother : ¬ 1 = 0 := by decide
  obtain ⟨hanswer, -, -, hlive⟩ := same_content_same_tree g .inMemory {} [] 0 first (early ++ late)
    (.readOrBuild (seen [97]) []) (seen [97]).file.key [97] 0 ⟨rfl, rfl⟩ hn
    ⟨trivial, trivial, trivial, fun hj => absurd hj hother, fun hj => absurd hj hother, trivial⟩
    ⟨rfl, rfl⟩
  obtain ⟨slots, hfinal, -, hcached, -⟩ := hlive early late rfl t _ hslots 1 x hfilled
  exact ⟨hanswer (fun p hp => by cases hp), t, slots, x, hfinal, rfl, hcached⟩

/-- A call for a content is answered with a tree, and the same loader is asked for the same content
again, but by a path that is none of a source file: this is refused, whatever is remembered. -/
theorem same_content_refused :
    let g := Grammar.naming
    let p : Path := ⟨"/notes.txt"⟩
    let files := ({} : FileSystem).set ["notes.txt"] (.file [120])
    let first : TreeCall :=
      .readOrBuild ⟨files, p, [120]⟩ [⟨.file, ⟨"notes.txt", .empty⟩, 0⟩]
    let later : TreeCall := .load p
    let h := History.run g .inMemory files []
    let h' := h.step g (.call 0 first)
    first.About h.session.workspace.files (files.key p) [120] ∧
      (first.run g (h.session.loaders 0) h.session.workspace).1 = .ok (some 0) ∧
      later.About h'.session.workspace.files (files.key p) [120] ∧
      (later.run g (h'.session.loaders 0) h'.session.workspace).1 = .error (.unsupported p) := by
  intro g p files first later h h'
  obtain ⟨t, ht⟩ : ∃ t, Tree.ofEntries [⟨.file, ⟨"notes.txt", .empty⟩, 0⟩] = .ok t :=
    exists_tree_of_single rfl (by decide)
  have hread : files.read p = .ok [120] :=
    FileSystem.read_root (n := "notes.txt") (by decide) (by decide) rfl
  have hrun := TreeCall.run_of_not_found (g := g) (l := {})
    (w := { files := files, store := .inMemory }) (c := first) rfl rfl
  rw [TreeCall.made?_readOrBuild ht] at hrun
  obtain ⟨hrun, -⟩ := Prod.mk.inj hrun
  have hfiles : h'.session.workspace.files = files := by
    show (first.run g {} { files := files, store := .inMemory }).2.2.files = files
    rw [hrun]
    rfl
  refine ⟨⟨rfl, rfl⟩, ?_, ?_, ?_⟩
  · show (first.run g {} { files := files, store := .inMemory }).1 = _
    rw [hrun]
    rfl
  · rw [hfiles]
    exact ⟨rfl, hread⟩
  · refine congrArg Prod.fst (TreeCall.run_of_no_file (TreeCall.file?_of_refuses ?_))
    unfold Loader.accepts
    rw [show Language.ofPath? p = none by decide]
    exact Bool.and_false _

end Outline
