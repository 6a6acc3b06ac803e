import Outline.Proofs.Loader.History

/-!
# Outline.Proofs.Loader.Origin

**Every tree that is handed out was built in the run.** Any number of loaders work on one store; old
memories stand beside newer bytes in the store, and the store may refuse what it likes and lose or
spoil what it keeps. What is right for a key and a fingerprint is here what was ever built for them
(`Built`), and that all loaders and the store hold nothing else is kept by every event
(`History.Sourced.step`).

The statement is for stores that may do almost anything, so the invariant cannot speak of what the
files say now. It speaks of the notes of the run instead: they only grow, so what is right stays
right whatever the files, the store and the other loaders do.
-/

namespace Outline

/-! ### Reasons to fail

Of the outcomes of a call only those that fail say why; the reasons are read off the code once for
all four calls (`TreeCall.fault_of_run`) and are spelled out here. -/

/-- That a tree cannot be built has no reason but a fault of the declarations. -/
theorem Tree.fault_of_mapError {es : List Entry} {e : LoadError}
    (h : (Tree.ofEntries es).mapError LoadError.build = .error e) :
    ∃ fault, Tree.ofEntries es = .error fault ∧ e = .build fault := by
  cases hes : Tree.ofEntries es with
  | error fault =>
      rw [hes] at h
      exact ⟨fault, rfl, (Except.error.inj h).symm⟩
  | ok t =>
      rw [hes] at h
      cases h

/-- No outline of a text can be had because no language belongs to it, or because its declarations
make no tree. -/
theorem Loader.fault_of_outline {g : Grammar} {file : SourceFile} {e : LoadError}
    (h : Loader.outline g file = .error e) :
    e = .unsupported file.path ∨ ∃ fault, e = .build fault := by
  unfold outline at h
  split at h
  · exact .inl (Except.error.inj h).symm
  · obtain ⟨fault, -, he⟩ := Tree.fault_of_mapError h
    exact .inr ⟨fault, he⟩

/-! ### What was built

`Sound` asks of a loader and a store that they hold only what is right. With `Built` for right, a
tree is sound as soon as it is noted. -/

/-- What was built, as far as it was noted. -/
def Built (notes : List Note) : Answers := fun key f t => .built key f t ∈ notes

/-- A store that loses what it keeps for a key keeps nothing wrong. -/
theorem Workspace.Sound.without {right : Answers} {w : Workspace} (h : w.Sound right)
    (key : String) : ({ w with store := w.store.without key } : Workspace).Sound right := by
  obtain ⟨entries, failing, hstore, hright⟩ := h.store
  refine ⟨entries.erase key, failing, ?_, fun k bs f t hk hd => ?_⟩
  · rw [hstore]
    rfl
  · rw [Table.get?_erase] at hk
    split at hk
    · cases hk
    · exact hright k bs f t hk hd

namespace TreeCall

variable {g : Grammar} {l : Loader} {w : Workspace} {c : TreeCall} {right : Answers}

/-- A call keeps what is right, and answers with nothing else, if what it builds is right. -/
theorem kept_of_sound (hl : l.Sound right w.shelf) (hw : w.Sound right)
    (hbuilt : ∀ file t, c.built? g l w = some (file, t) → right file.key file.fingerprint t ∧
      Tree.decode (t.encode file.fingerprint) = .ok (file.fingerprint, t)) :
    let r := c.run g l w
    Kept right l r.2.1 w r.2.2 ∧ ∀ n, r.1 = .ok (some n) → ∃ file t, c.file? l w = .ok file ∧
      r.2.2.shelf.tree? n = some t ∧ right file.key file.fingerprint t := by
  have hcame := c.came g l w
  generalize c.run g l w = r at hcame ⊢
  generalize c.built? g l w = b at hcame hbuilt
  -- by where the answer came from: the memory, the store, a build, or nowhere
  cases hcame with
  | nothing h => exact ⟨.refl hl hw, fun n hn => absurd hn (h n)⟩
  | @remembered file m hfile hm =>
      obtain ⟨t, ht, hright⟩ := hl.remembered hm
      refine ⟨.refl hl hw, fun n hn => ?_⟩
      cases hn
      exact ⟨file, t, hfile, ht, hright⟩
  | @kept file t hfile hforgot ht =>
      have hright := hw.persisted ht
      obtain ⟨hkept, htree⟩ := Loader.remember_spec hl hw hright
      refine ⟨hkept, fun n hn => ?_⟩
      cases hn
      exact ⟨file, t, hfile, htree, hright⟩
  -- what is built is kept as bytes too, so it has to be what these bytes are read as
  | @built file t hfile hforgot hlost ht =>
      obtain ⟨hright, hdecode⟩ := hbuilt file t rfl
      obtain ⟨hkept, htree⟩ := Loader.keep_remember_spec hl hw hright hdecode
      refine ⟨hkept, fun n hn => ?_⟩
      cases hn
      exact ⟨file, t, hfile, htree, hright⟩

end TreeCall

namespace History

/-- All that is remembered or kept was built in the run. -/
structure Sourced (h : History) : Prop where
  workspace : h.session.workspace.Sound (Built h.notes)
  loader : ∀ i, (h.session.loaders i).Sound (Built h.notes) h.session.workspace.shelf

variable {g : Grammar} {h : History}

/-- Bytes that are put into the store from outside make no tree. -/
def Spoils (e : Event) : Prop :=
  ∀ key bytes, e = .overwrite key bytes → ∃ fault, Tree.decode bytes = .error fault

/-- The operation of one loader. The other loaders see a larger shelf and more notes. -/
theorem Sourced.after (hs : h.Sourced) {notes : List Note} (hnotes : ∀ n ∈ h.notes, n ∈ notes)
    {i : Nat} {l : Loader} {w : Workspace}
    (hkept : Kept (Built notes) (h.session.loaders i) l h.session.workspace w) :
    Sourced ⟨h.session.after i l w, notes⟩ where
  workspace := hkept.workspace
  loader j := by
    by_cases hj : j = i
    · obtain rfl := hj
      rw [Session.loaders_after_self]
      exact hkept.loader
    · rw [Session.loaders_after_of_ne hj]
      exact ((hs.loader j).imp fun _ _ _ ht => hnotes _ ht).mono hkept.shelf

/-- Whoever changes the store, the memories of the loaders stay what they are. -/
theorem Sourced.withStore (hs : h.Sourced) {store : Store}
    (hstore : ({ h.session.workspace with store := store } : Workspace).Sound (Built h.notes)) :
    (h.within { h.session.workspace with store := store }).Sourced where
  workspace := hstore
  loader := hs.loader

/-- At first nothing is remembered and nothing kept. -/
theorem sourced_start (files : FileSystem) : (start .inMemory files).Sourced where
  workspace := ⟨.empty, [], rfl, fun key bytes f t hk _ => by
    rw [Table.get?_empty] at hk
    cases hk⟩
  loader _ := Loader.Sound.fresh {} _

/-- What a call of any of the loaders keeps and answers. -/
theorem Sourced.call (hs : h.Sourced) (i : Nat) (c : TreeCall)
    (size : ∀ key f t, .built key f t ∈ (h.step g (.call i c)).notes → t.size ≤ Nat.pow 2 32) :
    let l := h.session.loaders i
    let r := c.run g l h.session.workspace
    let notes := (h.step g (.call i c)).notes
    Kept (Built notes) l r.2.1 h.session.workspace r.2.2 ∧
      ∀ n, r.1 = .ok (some n) → ∃ file t, c.file? l h.session.workspace = .ok file ∧
        r.2.2.shelf.tree? n = some t ∧ Built notes file.key file.fingerprint t := by
  -- the notes grow before the answer is judged, so what was right is right by them
  have hmore : ∀ key f t, Built h.notes key f t → Built (h.step g (.call i c)).notes key f t :=
    fun _ _ _ ht => mem_notes_step _ ht
  refine TreeCall.kept_of_sound ((hs.loader i).imp hmore) (hs.workspace.imp hmore)
    fun file t hb => ?_
  -- what the call builds is noted by the same event
  have hnote : Built (h.step g (.call i c)).notes file.key file.fingerprint t := by
    unfold Built
    rw [notes_call, hb]
    exact List.mem_cons_self
  exact ⟨hnote, TreeCall.decode_encode_of_made? (TreeCall.made?_of_built? hb).2
    (size _ _ _ hnote) _⟩

/-- One event. -/
theorem Sourced.step (hs : h.Sourced) {e : Event} (he : Spoils e)
    (size : ∀ key f t, .built key f t ∈ (h.step g e).notes → t.size ≤ Nat.pow 2 32) :
    (h.step g e).Sourced := by
  cases e with
  | call i c => exact hs.after (fun _ hn => mem_notes_step (.call i c) hn) (hs.call i c size).1
  | invalidate i p =>
      have hmore : ∀ n ∈ h.notes, n ∈ (h.step g (.invalidate i p)).notes :=
        fun _ hn => mem_notes_step _ hn
      exact hs.after hmore (Loader.invalidate_spec ((hs.loader i).imp fun _ _ _ ht => hmore _ ht)
        (hs.workspace.imp fun _ _ _ ht => hmore _ ht) p)
  -- a new loader remembers nothing; the others are left as they are
  | renew i filter =>
      exact ⟨hs.workspace, fun j => by
        unfold History.step
        by_cases hj : j = i
        · obtain rfl := hj
          rw [Session.loaders_after_self]
          exact Loader.Sound.fresh filter _
        · rw [Session.loaders_after_of_ne hj]
          exact hs.loader j⟩
  | live n c =>
      exact ⟨⟨hs.workspace.store⟩, fun j =>
        (hs.loader j).mono fun m t ht => (Shelf.tree?_asked _ n c m).trans ht⟩
  | files fs => exact ⟨⟨hs.workspace.store⟩, hs.loader⟩
  | refuse ops => exact hs.withStore (hs.workspace.refusing ops)
  -- bytes from outside make no tree, so none that is wrong is read
  | overwrite key bytes =>
      obtain ⟨fault, hfault⟩ := he key bytes rfl
      exact hs.withStore (hs.workspace.overwritten key hfault)
  | lose key => exact hs.withStore (hs.workspace.without key)

/-- Every run keeps it, by induction from the last event. -/
theorem sourced_run (g : Grammar) (files : FileSystem) (events : List Event)
    (spoils : ∀ e ∈ events, Spoils e)
    (size : ∀ key f t, .built key f t ∈ (run g .inMemory files events).notes →
      t.size ≤ Nat.pow 2 32) :
    (run g .inMemory files events).Sourced := by
  induction events using List.reverseRecOn with
  | nil => exact sourced_start files
  | append_singleton events e ih =>
      rw [run_concat] at size ⊢
      refine Sourced.step (ih (fun d hd => spoils d (List.mem_append_left [e] hd)) ?_)
        (spoils e (List.mem_append_right events List.mem_cons_self)) size
      exact fun key f t ht => size key f t (mem_notes_step e ht)

end History

/-- **No stale tree, and no foreign one.** After any run of any loaders over a store that starts
empty, may refuse any operation at any time, and may lose what it keeps or have it replaced by bytes
that make no tree: a tree that a call answers with was built in the run, the call included, for the
key and the fingerprint of the file of that call. And a call fails only if its file cannot be had or
nothing can be made of it; the store is never the reason. -/
theorem answers_were_built (g : Grammar) (files : FileSystem) (events : List Event)
    (spoils : ∀ key bytes, .overwrite key bytes ∈ events →
      ∃ fault, Tree.decode bytes = .error fault)
    (i : Nat) (c : TreeCall)
    (size : ∀ key f t,
      .built key f t ∈ (History.run g .inMemory files (events ++ [.call i c])).notes →
      t.size ≤ Nat.pow 2 32) :
    let h := History.run g .inMemory files events
    let l := h.session.loaders i
    let w := h.session.workspace
    let r := c.run g l w
    let notes := (History.run g .inMemory files (events ++ [.call i c])).notes
    (∀ n, r.1 = .ok (some n) → ∃ file t, c.file? l w = .ok file ∧ r.2.2.shelf.tree? n = some t ∧
      .built file.key file.fingerprint t ∈ notes) ∧
    ∀ e, r.1 = .error e → match c with
      | .readOrBuild _ entries => ∃ fault, Tree.ofEntries entries = .error fault ∧ e = .build fault
      | .loadFile s => Loader.outline g s.file = .error e ∧
          (e = .unsupported s.path ∨ ∃ fault, e = .build fault)
      | .load _ => c.file? l w = .error e ∨
          ∃ file, c.file? l w = .ok file ∧ Loader.outline g file = .error e
      | .readPersisted _ => False := by
  intro h l w r notes
  have hnotes : notes = (h.step g (.call i c)).notes :=
    congrArg History.notes (History.run_concat events (.call i c))
  have size' : ∀ key f t, .built key f t ∈ (h.step g (.call i c)).notes → t.size ≤ Nat.pow 2 32 :=
    fun key f t ht => size key f t (show _ ∈ notes from hnotes ▸ ht)
  -- the invariant holds before the call, and the call adds its own answer
  have hs : h.Sourced := by
    refine History.sourced_run g files events (fun e he key bytes heq => ?_) fun key f t ht =>
      size' key f t (History.mem_notes_step _ ht)
    exact spoils key bytes (heq ▸ he)
  refine ⟨?_, fun e he => ?_⟩
  · rw [hnotes]
    exact (hs.call i c size').2
  · have hfault : c.Fault g l w e := TreeCall.fault_of_run he
    -- each call says in its own words what `Fault` says of all
    cases c with
    | readOrBuild s entries =>
        obtain hfile | ⟨file, -, hmade⟩ := hfault
        · cases hfile
        · exact Tree.fault_of_mapError (Option.some.inj hmade)
    | loadFile s =>
        obtain hfile | ⟨file, hfile, hmade⟩ := hfault
        · cases hfile
        · cases hfile
          exact ⟨Option.some.inj hmade, Loader.fault_of_outline (Option.some.inj hmade)⟩
    | load _ =>
        exact hfault.imp id fun ⟨file, hfile, hmade⟩ => ⟨file, hfile, Option.some.inj hmade⟩
    | readPersisted s =>
        obtain hfile | ⟨file, -, hmade⟩ := hfault
        · cases hfile
        · cases hmade

/-- A file is loaded and then, with another content and by another loader, loaded again while the
store cannot be read; what was kept is spoiled. The first loader still has the tree of the first
content, with the function that it is about. -/
theorem answers_were_built_again :
    let g := Grammar.naming
    let seen (content : List UInt8) : Sighting := ⟨{}, ⟨"/a.py"⟩, content⟩
    let load (content : List UInt8) : TreeCall := .loadFile (seen content)
    let key := (seen [97]).file.key
    let events : List Event :=
      [.call 0 (load [97]), .refuse [.load], .call 1 (load [98]), .overwrite key []]
    let h := History.run g .inMemory {} events
    let r := (load [97]).run g (h.session.loaders 0) h.session.workspace
    r.1 = .ok (some 0) ∧ ∃ t n, r.2.2.shelf.tree? 0 = some t ∧
      .built key (Fingerprint.ofContent [97]) t ∈
        (History.run g .inMemory {} (events ++ [.call 0 (load [97])])).notes ∧
      t.node? 1 = some n ∧ n.payload.name = "a" := by
  intro g seen load key events h r
  obtain ⟨t, n, ht, hn, -, hname⟩ := exists_tree_naming "a.py" "a" (by decide)
  have hlisting : listingOf? g ⟨"/a.py"⟩ [97] = some (namingEntries "a.py" "a") :=
    listing_naming (by decide) (by decide) (by decide +kernel) (by decide)
  have houtline : Loader.outline g (seen [97]).file = .ok t := outline_of_listing hlisting ht
  -- the first loader remembers the tree of the first content, whatever was loaded since
  have hremembered : (h.session.loaders 0).remembered? (seen [97]).file = some 0 := by
    have hmemory : (h.session.loaders 0).memory.get? key =
        some ⟨Fingerprint.ofContent [97], 0⟩ := by
      show (Loader.readOr {} { store := .inMemory } (seen [97]).file
        (Loader.outline g (seen [97]).file)).2.1.memory.get? key = _
      rw [houtline]
      exact (Table.get?_insert _ _ _ _).trans (if_pos rfl)
    unfold Loader.remembered?
    rw [hmemory]
    exact if_pos rfl
  have hread : (h.session.loaders 0).readPersisted h.session.workspace (seen [97]).file =
      (some 0, h.session.loaders 0, h.session.workspace) := by
    unfold Loader.readPersisted
    rw [hremembered]
  have hanswer : r.1 = .ok (some 0) :=
    congrArg Prod.fst (TreeCall.run_of_found (g := g) (c := load [97]) rfl hread).1
  -- Every tree of the run is the outline of the text that its fingerprint is of.
  have hbuilt : ∀ k f u, .built k f u ∈
      (History.run g .inMemory {} (events ++ [.call 0 (load [97])])).notes →
      ∃ content, f = .ofContent content ∧ content ∈ [[97], [98]] ∧
        Loader.outline g (seen content).file = .ok u := by
    intro k f u hu
    obtain ⟨i, c, file, hc, hmade, -, rfl, l, w, hfile⟩ := History.made?_of_mem_notes hu
    simp only [events, List.cons_append, List.nil_append, List.mem_cons, List.not_mem_nil,
      or_false, reduceCtorEq, false_or, Event.call.injEq] at hc
    have hload : ∃ content, content ∈ [[97], [98]] ∧ c = load content := by
      rcases hc with ⟨-, rfl⟩ | ⟨-, rfl⟩ | ⟨-, rfl⟩
      · exact ⟨[97], List.mem_cons_self, rfl⟩
      · exact ⟨[98], List.mem_cons_of_mem _ List.mem_cons_self, rfl⟩
      · exact ⟨[97], List.mem_cons_self, rfl⟩
    obtain ⟨content, hmem, rfl⟩ := hload
    obtain rfl : (seen content).file = file := Except.ok.inj hfile
    exact ⟨content, rfl, hmem, Option.some.inj hmade⟩
  obtain ⟨file, u, hfile, hu, hnoted⟩ := (answers_were_built g {} events
    (fun k bytes hk => by
      simp only [events, List.mem_cons, List.not_mem_nil, or_false, reduceCtorEq, false_or,
        Event.overwrite.injEq] at hk
      exact ⟨_, hk.2 ▸ Tree.decode_nil⟩) 0 (load [97])
    (fun k f u hu => by
      obtain ⟨content, -, -, houtline⟩ := hbuilt k f u hu
      exact size_le_of_outline_naming houtline)).1 0 hanswer
  obtain rfl : (seen [97]).file = file := Except.ok.inj hfile
  obtain ⟨content, hsame, hmem, hu'⟩ := hbuilt _ _ u hnoted
  obtain rfl : content = [97] := by
    have hdifferent : Fingerprint.ofContent [97] ≠ Fingerprint.ofContent [98] := by decide +kernel
    simp only [List.mem_cons, List.not_mem_nil, or_false] at hmem
    exact hmem.resolve_right fun h => hdifferent (h ▸ hsame)
  obtain rfl : t = u := Except.ok.inj (houtline.symm.trans hu')
  exact ⟨hanswer, t, n, hu, hnoted, hn, hname⟩

end Outline
