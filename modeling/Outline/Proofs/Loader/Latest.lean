import Outline.Proofs.Loader.History

/-!
# Outline.Proofs.Loader.Latest

**A loader over a store that works is one map, from keys to the last tree that was built.** Memory
and store are two copies of what this map says, the one of a part of it, the other of all
(`Mirrors`). Whatever is called, and also when the loader is replaced by a new one, the two follow
the map (`History.Mirrored.step`), so that what is answered can be read off it
(`last_build_answers`).

The map is not in the code. It is read off the notes of the run, and an invariant ties memory and
store to it; each operation then has one lemma for what becomes of the map. That a loader is renewed
changes the memory only, so the map stays.
-/

namespace Outline

/-- For each key the fingerprint and the tree of the last build, if there is one. -/
abbrev LastBuilds := String → Option (Fingerprint × Tree)

/-- The tree of the last build for the key of a file, if that build was for its fingerprint. -/
def LastBuilds.tree? (last : LastBuilds) (file : SourceFile) : Option Tree :=
  (last file.key).bind fun x => if x.1 = file.fingerprint then some x.2 else none

theorem LastBuilds.tree?_eq_some_iff {last : LastBuilds} {file : SourceFile} {t : Tree} :
    last.tree? file = some t ↔ last file.key = some (file.fingerprint, t) := by
  unfold tree?
  constructor
  · intro h
    obtain ⟨⟨f, u⟩, hlast, h⟩ := Option.bind_eq_some_iff.1 h
    obtain ⟨rfl, h⟩ := Option.ite_none_right_eq_some.1 h
    cases h
    exact hlast
  · intro h
    rw [h, Option.bind_some, if_pos rfl]

/-- What the store keeps for a file if a build is the last one for its key. -/
def Persisted.ofLast (f : Fingerprint) : Option (Fingerprint × Tree) → Persisted
  | none => .missing
  | some (f', t) => if f' = f then .fresh t else .stale

/-- The store keeps exactly the last builds, and all that the loader remembers is one of them. -/
structure Mirrors (last : LastBuilds) (l : Loader) (w : Workspace) : Prop where
  store : ∃ entries, w.store = .memory entries [] ∧
    ∀ key, (entries.get? key).map Tree.decode = (last key).map Except.ok
  memory : ∀ key m, l.memory.get? key = some m →
    ∃ t, last key = some (m.fingerprint, t) ∧ w.shelf.tree? m.tree = some t

namespace Mirrors

variable {last : LastBuilds} {l : Loader} {w : Workspace} {file : SourceFile}

theorem empty (l : Loader) (h : l.memory = .empty) (files : FileSystem) (shelf : Shelf) :
    Mirrors (fun _ => none) l { files := files, store := .inMemory, shelf := shelf } where
  store := ⟨.empty, rfl, fun _ => rfl⟩
  memory key m hm := by
    rw [h, Table.get?_empty] at hm
    cases hm

/-- The store of a workspace counts, and of its shelf that trees stay. -/
theorem within (h : Mirrors last l w) {w' : Workspace} (hstore : w'.store = w.store)
    (hshelf : ∀ (n : Nat) (t : Tree), w.shelf.tree? n = some t → w'.shelf.tree? n = some t) :
    Mirrors last l w' where
  store := hstore ▸ h.store
  memory key m hm := by
    obtain ⟨t, ht, hn⟩ := h.memory key m hm
    exact ⟨t, ht, hshelf _ t hn⟩

/-- A new loader remembers nothing. -/
theorem renew (h : Mirrors last l w) (filter : Filter) : Mirrors last { filter := filter } w where
  store := h.store
  memory key m hm := by
    rw [show ({ filter := filter } : Loader).memory = .empty from rfl, Table.get?_empty] at hm
    cases hm

/-! ### What is known of a file

The store is asked for a key and answers for a fingerprint: an older build under the same key is no
answer. The map answers in the same way (`LastBuilds.tree?`). -/

theorem persisted (h : Mirrors last l w) (file : SourceFile) :
    w.persisted file = .ofLast file.fingerprint (last file.key) := by
  obtain ⟨entries, hstore, hlast⟩ := h.store
  have hkey := hlast file.key
  unfold Workspace.persisted
  rw [hstore, Store.get_memory, if_neg (by simp)]
  cases hl : last file.key with
  | none =>
      rw [hl, Option.map_none, Option.map_eq_none_iff] at hkey
      rw [hkey]
      rfl
  -- the bytes under the key are those of the last build, which are read back as that build
  | some x =>
      rw [hl, Option.map_some] at hkey
      obtain ⟨bytes, hbytes, hdecode⟩ := Option.map_eq_some_iff.1 hkey
      rw [hbytes]
      dsimp only
      rw [hdecode]
      rfl

/-- The store keeps a tree of a file exactly if the last build made it. -/
theorem persisted_eq_fresh_iff (h : Mirrors last l w) {t : Tree} :
    w.persisted file = .fresh t ↔ last.tree? file = some t := by
  rw [h.persisted, LastBuilds.tree?]
  cases last file.key with
  | none => exact iff_of_false Persisted.noConfusion (Option.some_ne_none t).symm
  | some x =>
      unfold Persisted.ofLast
      rw [Option.bind_some]
      dsimp only
      split
      · rw [Persisted.fresh.injEq, Option.some.injEq]
      · exact iff_of_false Persisted.noConfusion (Option.some_ne_none t).symm

theorem remembered (h : Mirrors last l w) {n : Nat} (hn : l.remembered? file = some n) :
    ∃ t, last.tree? file = some t ∧ w.shelf.tree? n = some t := by
  unfold Loader.remembered? at hn
  split at hn
  · rename_i m hm
    split at hn
    · rename_i hf
      cases hn
      obtain ⟨t, hlast, ht⟩ := h.memory _ m hm
      refine ⟨t, ?_, ht⟩
      rw [LastBuilds.tree?, hlast, Option.bind_some, if_pos hf]
    · cases hn
  · cases hn

/-- Reading finds the tree of the last build, or nothing, and does not change what is kept. -/
theorem readPersisted (h : Mirrors last l w) (file : SourceFile) :
    (∃ n t l' w', l.readPersisted w file = (some n, l', w') ∧ last.tree? file = some t ∧
        w'.shelf.tree? n = some t ∧ w'.store = w.store ∧ w'.files = w.files) ∨
      last.tree? file = none ∧ l.readPersisted w file = (none, l, w) := by
  rcases l.readPersisted_cases w file with ⟨n, hn, hread⟩ | ⟨t, -, ht, hread⟩ | ⟨-, hlost, hread⟩
  -- remembered, or kept, or neither; the map agrees with the first two and has nothing for the last
  · obtain ⟨t, hlast, ht⟩ := h.remembered hn
    exact .inl ⟨n, t, l, w, hread, hlast, ht, rfl, rfl⟩
  · exact .inl ⟨_, t, _, _, hread, h.persisted_eq_fresh_iff.1 ht, w.shelf.tree?_add t, rfl, rfl⟩
  · refine .inr ⟨Option.eq_none_iff_forall_ne_some.2 fun t ht => ?_, hread⟩
    exact hlost t (h.persisted_eq_fresh_iff.2 ht)

/-! ### What calls do

A build is the only thing that changes the map, and forgetting a file the only thing that takes from
it. -/

/-- What is remembered when a tree was given for a file is the last build of another map, if that
has the tree for the file and is else the same. -/
theorem memory_remember (h : Mirrors last l w) {last' : LastBuilds} {t : Tree}
    (hfile : last' file.key = some (file.fingerprint, t))
    (hother : ∀ key, key ≠ file.key → last' key = last key) {key : String} {m : Memo}
    (hm : (l.remember w file t).2.1.memory.get? key = some m) :
    ∃ u, last' key = some (m.fingerprint, u) ∧
      (l.remember w file t).2.2.shelf.tree? m.tree = some u := by
  replace hm : (l.memory.insert file.key ⟨file.fingerprint, (w.shelf.add t).1⟩).get? key =
    some m := hm
  rw [Table.get?_insert] at hm
  split at hm
  · rename_i hkey
    cases hm
    exact ⟨t, hkey ▸ hfile, w.shelf.tree?_add t⟩
  -- another key: what was remembered for it is still there, on a shelf that has grown
  · rename_i hkey
    obtain ⟨u, hu, hn⟩ := h.memory key m hm
    exact ⟨u, (hother key hkey).trans hu, Shelf.tree?_add_of_some hn t⟩

/-- Remembering a tree that the store keeps. -/
theorem remember (h : Mirrors last l w) {t : Tree} (ht : last.tree? file = some t) :
    Mirrors last (l.remember w file t).2.1 (l.remember w file t).2.2 where
  store := h.store
  memory _ _ hm := h.memory_remember (LastBuilds.tree?_eq_some_iff.1 ht) (fun _ _ => rfl) hm

/-- Keeping and remembering a tree that was built, which is now the last one for its key. -/
theorem build (h : Mirrors last l w) {t : Tree}
    (hdecode : Tree.decode (t.encode file.fingerprint) = .ok (file.fingerprint, t)) :
    let r := l.remember (w.keep file.key (t.encode file.fingerprint)) file t
    Mirrors (fun key => if key = file.key then some (file.fingerprint, t) else last key)
      r.2.1 r.2.2 := by
  obtain ⟨entries, hstore, hlast⟩ := h.store
  have hkeep : w.keep file.key (t.encode file.fingerprint) =
      { w with store := .memory (entries.insert file.key (t.encode file.fingerprint)) [] } := by
    unfold Workspace.keep
    rw [hstore, Store.put_memory, if_neg (by simp)]
  rw [hkeep]
  refine ⟨⟨_, rfl, fun key => ?_⟩, fun key m hm => ?_⟩
  -- the store has the bytes of the tree under the key, and under others what it had
  · rw [Table.get?_insert]
    split
    · exact congrArg some hdecode
    · exact hlast key
  · exact h.memory_remember (if_pos rfl) (fun key hkey => if_neg hkey) hm

theorem invalidate (h : Mirrors last l w) (p : Path) :
    Mirrors (fun key => if key = w.files.key p then none else last key)
      (l.invalidate w p).2.1 (l.invalidate w p).2.2 := by
  obtain ⟨entries, hstore, hlast⟩ := h.store
  have hdrop : w.drop (w.files.key p) =
      (.ok (), { w with store := .memory (entries.erase (w.files.key p)) [] }) := by
    unfold Workspace.drop
    rw [hstore, Store.remove_memory, if_neg (by simp)]
  unfold Loader.invalidate
  dsimp only
  rw [hdrop]
  refine ⟨⟨_, rfl, fun key => ?_⟩, fun key m hm => ?_⟩
  · rw [Table.get?_erase]
    split
    · rfl
    · exact hlast key
  · rw [Table.get?_erase] at hm
    split at hm
    · cases hm
    · rename_i hkey
      obtain ⟨t, ht, hn⟩ := h.memory key m hm
      exact ⟨t, (if_neg hkey).trans ht, hn⟩

end Mirrors

/-! ### Runs

The invariant is kept by every event that can happen while one loader at a time works on a store
that does not fail; the others are excluded by `Event.Sole`. -/

/-- What a call comes to: the tree that it answers with, or that there is none, or the error. -/
def TreeCall.outcome (r : Except LoadError (Option Nat) × Loader × Workspace) :
    Except LoadError (Option Tree) :=
  r.1.map fun n => n.bind r.2.2.shelf.tree?

/-- What can happen while one loader, replaced at any time by a new one, is the only one that works
on a store, and nothing goes wrong in the store. -/
def Event.Sole (i : Nat) : Event → Prop
  | .call j _ | .invalidate j _ | .renew j _ => j = i
  | .live _ _ | .files _ => True
  | .refuse _ | .overwrite _ _ | .lose _ => False

namespace History

/-- What the store keeps and the loader remembers follows the notes. -/
def Mirrored (i : Nat) (h : History) : Prop :=
  Mirrors h.last? (h.session.loaders i) h.session.workspace

variable {g : Grammar} {i : Nat} {h : History}

/-- One event. -/
theorem Mirrored.step (hm : h.Mirrored i) {e : Event} (he : e.Sole i)
    (size : ∀ key f t, .built key f t ∈ (h.step g e).notes → t.size ≤ Nat.pow 2 32) :
    (h.step g e).Mirrored i := by
  cases e with
  | call j c =>
      obtain rfl := he
      unfold Mirrored
      unfold History.step at size ⊢
      dsimp only at size ⊢
      rw [Session.loaders_after_self, Session.workspace_after]
      have hcame := c.came g (h.session.loaders j) h.session.workspace
      generalize c.run g (h.session.loaders j) h.session.workspace = r at hcame
      generalize c.built? g (h.session.loaders j) h.session.workspace = b at hcame size
      -- by where the answer came from: only a build is noted, and only it changes the map
      cases hcame with
      | nothing => exact hm
      | remembered => exact hm
      | kept hfile hforgot ht => exact hm.remember (hm.persisted_eq_fresh_iff.1 ht)
      | built hfile hforgot hlost ht =>
          exact hm.build
            (TreeCall.decode_encode_of_made? ht (size _ _ _ List.mem_cons_self) _)
  | invalidate j p =>
      obtain rfl := he
      unfold Mirrored History.step
      dsimp only
      rw [Session.loaders_after_self, Session.workspace_after]
      exact hm.invalidate p
  | renew j filter =>
      obtain rfl := he
      unfold Mirrored History.step
      dsimp only
      rw [Session.loaders_after_self, Session.workspace_after]
      exact hm.renew filter
  | live n c => exact hm.within rfl fun m t ht => (Shelf.tree?_asked _ n c m).trans ht
  | files fs => exact hm.within rfl fun _ _ ht => ht
  | _ => exact he.elim

theorem mirrored_run (g : Grammar) (files : FileSystem) (events : List Event)
    (sole : ∀ e ∈ events, e.Sole i)
    (size : ∀ key f t, .built key f t ∈ (run g .inMemory files events).notes →
      t.size ≤ Nat.pow 2 32) :
    (run g .inMemory files events).Mirrored i := by
  induction events using List.reverseRecOn with
  | nil => exact Mirrors.empty {} rfl files {}
  | append_singleton events e ih =>
      rw [run_concat] at size ⊢
      refine Mirrored.step (ih (fun d hd => sole d (List.mem_append_left [e] hd)) ?_)
        (sole e (List.mem_append_right events List.mem_cons_self)) size
      exact fun key f t ht => size key f t (mem_notes_step e ht)

end History

/-- **A loader over a store that works is one map, from keys to the last build.** After any run with
one loader at a time, starting with an empty store, the last builds say all about a file: what the
store keeps for it; what reading it answers, which neither builds nor keeps anything; and what it
answers if it is to be made from declarations. That is the tree of the last build, without a look at
the declarations, if the fingerprint agrees, and else the tree of the declarations, which is from
then on the last build, or their fault. Trees that are built have no more nodes than can be
numbered. -/
theorem last_build_answers (g : Grammar) (files : FileSystem) (events : List Event) (i : Nat)
    (sole : ∀ e ∈ events, e.Sole i)
    (size : ∀ key f t, .built key f t ∈ (History.run g .inMemory files events).notes →
      t.size ≤ Nat.pow 2 32)
    (s : Sighting) :
    let h := History.run g .inMemory files events
    let l := h.session.loaders i
    let w := h.session.workspace
    let known := LastBuilds.tree? h.last? s.file
    let read := (TreeCall.readPersisted s).run g l w
    w.persisted s.file = .ofLast s.file.fingerprint (h.last? s.file.key) ∧
    (TreeCall.outcome read = .ok known ∧ (h.step g (.call i (.readPersisted s))).notes = h.notes ∧
      read.2.2.store = w.store ∧ read.2.2.files = w.files) ∧
    ∀ entries,
      let r := (TreeCall.readOrBuild s entries).run g l w
      let next := h.step g (.call i (.readOrBuild s entries))
      match known, Tree.ofEntries entries with
      | some t, _ => TreeCall.outcome r = .ok (some t) ∧ r = read ∧ next.notes = h.notes
      | none, .ok t => TreeCall.outcome r = .ok (some t) ∧
          ∀ key, next.last? key =
            if key = s.file.key then some (s.file.fingerprint, t) else h.last? key
      | none, .error e => TreeCall.outcome r = .error (.build e) ∧ next.notes = h.notes := by
  intro h l w known read
  have hm : Mirrors h.last? l w := History.mirrored_run g files events sole size
  refine ⟨hm.persisted s.file, ?_⟩
  rcases hm.readPersisted s.file with
    ⟨n, t, l', w', hread, hknown, ht, hstore, hfiles⟩ | ⟨hknown, hread⟩
  · obtain ⟨hr, hb⟩ := TreeCall.run_of_found (g := g) (c := .readPersisted s) rfl hread
    have hr : read = (.ok (some n), l', w') := hr
    have hknown : known = some t := hknown
    rw [hr, hknown]
    refine ⟨⟨congrArg Except.ok ht, History.notes_call_of_none hb, hstore, hfiles⟩,
      fun entries => ?_⟩
    obtain ⟨hr, hb⟩ := TreeCall.run_of_found (g := g) (c := .readOrBuild s entries) rfl hread
    dsimp only
    rw [hr]
    exact ⟨congrArg Except.ok ht, rfl, History.notes_call_of_none hb⟩
  · obtain ⟨hr, hb⟩ := Prod.mk.inj
      (TreeCall.run_of_not_found (g := g) (c := .readPersisted s) rfl hread)
    have hr : read = (.ok none, l, w) := hr
    have hknown : known = none := hknown
    rw [hr, hknown]
    refine ⟨⟨rfl, History.notes_call_of_none hb, rfl, rfl⟩, fun entries => ?_⟩
    have hmade := TreeCall.run_of_not_found (g := g) (c := .readOrBuild s entries) rfl hread
    dsimp only
    -- nothing is known, so the declarations decide
    cases hentries : Tree.ofEntries entries with
    | error e =>
        rw [TreeCall.made?_readOrBuild hentries] at hmade
        obtain ⟨hr, hb⟩ := Prod.mk.inj hmade
        rw [hr]
        exact ⟨rfl, History.notes_call_of_none hb⟩
    | ok t =>
        rw [TreeCall.made?_readOrBuild hentries] at hmade
        obtain ⟨hr, hb⟩ := Prod.mk.inj hmade
        rw [hr]
        refine ⟨congrArg Except.ok (Shelf.tree?_add _ t), fun key => ?_⟩
        unfold History.last?
        rw [History.notes_call, hb]
        rfl

/-- A file is built, and the loader replaced. The tree is still the answer for the content, though
now there are no declarations. For another content they decide: it has a tree of its own if there
are some, and their fault is the answer if there are none. -/
theorem last_build_answers_renewed :
    let g := Grammar.naming
    let seen (content : List UInt8) : Sighting := ⟨{}, ⟨"/a.py"⟩, content⟩
    let events : List Event :=
      [.call 0 (.readOrBuild (seen [97]) (namingEntries "a.py" "a")), .renew 0 {}]
    let h := History.run g .inMemory {} events
    let outcome (c : TreeCall) :=
      TreeCall.outcome (c.run g (h.session.loaders 0) h.session.workspace)
    let Answers (c : TreeCall) (name : String) : Prop :=
      ∃ t n, outcome c = .ok (some t) ∧ t.node? 1 = some n ∧ n.payload.name = name
    Answers (.readOrBuild (seen [97]) []) "a" ∧
      Answers (.readOrBuild (seen [98]) (namingEntries "a.py" "b")) "b" ∧
      outcome (.readOrBuild (seen [98]) []) = .error (.build .empty) := by
  intro g seen events h outcome Answers
  obtain ⟨t, n, ht, hn, -, hname⟩ := exists_tree_naming "a.py" "a" (by decide)
  obtain ⟨u, m, hu, hm, -, hname'⟩ := exists_tree_naming "a.py" "b" (by decide)
  have hsole : ∀ e ∈ events, e.Sole 0 := by
    intro e he
    simp only [events, List.mem_cons, List.not_mem_nil, or_false] at he
    rcases he with rfl | rfl <;> rfl
  have hsize : ∀ key f u, .built key f u ∈ h.notes → u.size ≤ Nat.pow 2 32 := by
    intro key f u hu
    obtain ⟨i, c, file, hc, hmade, -⟩ := History.made?_of_mem_notes hu
    simp only [events, List.mem_cons, List.not_mem_nil, or_false, Event.call.injEq,
      reduceCtorEq] at hc
    obtain ⟨-, rfl⟩ := hc
    have hu : Tree.ofEntries (namingEntries "a.py" "a") = .ok u :=
      eq_ok_of_mapError_eq_ok (Option.some.inj hmade)
    rw [(describes_of_ofEntries hu).size]
    decide
  have hnotes : h.notes = [.built (seen [97]).file.key (seen [97]).file.fingerprint t] := by
    show ((TreeCall.readOrBuild (seen [97]) (namingEntries "a.py" "a")).built? g {} _ |>.map
      _).toList ++ [] = _
    unfold TreeCall.built? TreeCall.made? TreeCall.file?
    dsimp only
    rw [ht]
    rfl
  have hlast : h.last? (seen [97]).file.key = some ((seen [97]).file.fingerprint, t) := by
    unfold History.last?
    rw [hnotes]
    exact if_pos rfl
  -- What is known of the file is its tree for the first content, and nothing for the second.
  have hdifferent : Fingerprint.ofContent [97] ≠ Fingerprint.ofContent [98] := by decide +kernel
  have hknown : LastBuilds.tree? h.last? (seen [97]).file = some t :=
    LastBuilds.tree?_eq_some_iff.2 hlast
  have hunknown : LastBuilds.tree? h.last? (seen [98]).file = none := by
    show (h.last? (seen [97]).file.key).bind _ = none
    rw [hlast]
    exact if_neg hdifferent
  have hsame := (last_build_answers g {} events 0 hsole hsize (seen [97])).2.2 []
  have hother := (last_build_answers g {} events 0 hsole hsize (seen [98])).2.2
  have hbuilt := hother (namingEntries "a.py" "b")
  have hempty := hother []
  rw [show LastBuilds.tree? _ _ = some t from hknown] at hsame
  rw [show LastBuilds.tree? _ _ = none from hunknown] at hbuilt hempty
  rw [hu] at hbuilt
  exact ⟨⟨t, n, hsame.1, hn, hname⟩, ⟨u, m, hbuilt.1, hm, hname'⟩, hempty.1⟩

end Outline
