import Outline.Proofs.Loader.Transparency

/-!
# Outline.Proofs.Loader.Calls

**What a call of a loader comes to.** The calls that may answer with a tree differ in the file that
they work on (`TreeCall.file?`) and in what they make if no tree is known (`TreeCall.made?`); the
rest they have in common (`TreeCall.run_of_file`). So there are only four things that a call can
come to (`TreeCall.Came`), and what holds over runs of calls is shown by going through these four.
-/

namespace Outline

/-- A content that a file had at some time, with the files of that time: on them the key depends. -/
structure Sighting where
  files : FileSystem
  path : Path
  content : List UInt8

/-- The file as it was seen. -/
def Sighting.file (s : Sighting) : SourceFile := .ofContent s.files s.path s.content

/-- A call of a loader that may answer with a tree. -/
inductive TreeCall where
  | readOrBuild (s : Sighting) (entries : List Entry)
  | loadFile (s : Sighting)
  | load (p : Path)
  | readPersisted (s : Sighting)

theorem eq_ok_of_mapError_eq_ok {ε ε' α : Type} {x : Except ε α} {f : ε → ε'} {a : α}
    (h : x.mapError f = .ok a) : x = .ok a := by
  cases x with
  | error e => cases h
  | ok b => exact congrArg Except.ok (Except.ok.inj h)

namespace Loader

variable (l : Loader) (w : Workspace) (file : SourceFile)

/-! ### Reading and making

Reading tries the memory, then the store. The store is asked only if nothing is remembered, and
something is made only if nothing was found; so the three outcomes of reading leave one place where
making matters. -/

/-- Reading without making finds a tree in memory, or else in the store, or none. -/
theorem readPersisted_cases :
    (∃ n, l.remembered? file = some n ∧ l.readPersisted w file = (some n, l, w)) ∨
      (∃ t, l.remembered? file = none ∧ w.persisted file = .fresh t ∧
        l.readPersisted w file = (some (l.remember w file t).1, (l.remember w file t).2)) ∨
      l.remembered? file = none ∧ (∀ t, w.persisted file ≠ .fresh t) ∧
        l.readPersisted w file = (none, l, w) := by
  unfold readPersisted
  cases hm : l.remembered? file with
  | some n => exact .inl ⟨n, rfl, rfl⟩
  | none =>
      cases hp : w.persisted file with
      | fresh t => exact .inr (.inl ⟨t, rfl, rfl, rfl⟩)
      | _ => exact .inr (.inr ⟨rfl, fun t ht => Persisted.noConfusion ht, rfl⟩)

/-- What would be made does not matter if a tree is found. -/
theorem readOr_of_found {n : Nat} {r : Loader × Workspace}
    (h : l.readPersisted w file = (some n, r)) (made : Except LoadError Tree) :
    l.readOr w file made = (.ok n, r) := by
  rw [readOr, h]

/-- If no tree is found, what is made is the answer, and it is kept and remembered. -/
theorem readOr_of_not_found (h : l.readPersisted w file = (none, l, w))
    (made : Except LoadError Tree) :
    l.readOr w file made = match made with
      | .error e => (.error e, l, w)
      | .ok t =>
        let r := l.remember (w.keep file.key (t.encode file.fingerprint)) file t
        (.ok r.1, r.2) := by
  unfold readOr
  split
  · rename_i hread
    cases h.symm.trans hread
  · rename_i hread
    cases h.symm.trans hread
    cases made <;> rfl

end Loader

namespace TreeCall

/-- The file that a call works on, or why there is none. -/
def file? (l : Loader) (w : Workspace) : TreeCall → Except LoadError SourceFile
  | readOrBuild s _ | loadFile s | readPersisted s => .ok s.file
  | load p => if l.accepts p then SourceFile.read w.files p else .error (.unsupported p)

/-- What a call makes of its file if no tree is known; a call that only reads makes nothing. -/
def made? (g : Grammar) (file : SourceFile) : TreeCall → Option (Except LoadError Tree)
  | readOrBuild _ entries => some ((Tree.ofEntries entries).mapError .build)
  | loadFile _ | load _ => some (Loader.outline g file)
  | readPersisted _ => none

/-- An answer that is a tree, if it is no error. -/
def answered (r : Except LoadError Nat × Loader × Workspace) :
    Except LoadError (Option Nat) × Loader × Workspace :=
  (r.1.map some, r.2)

/-- An answer that is a tree or nothing. -/
def found (r : Option Nat × Loader × Workspace) :
    Except LoadError (Option Nat) × Loader × Workspace :=
  (.ok r.1, r.2)

/-- What a call answers, and the loader and the workspace after it. -/
def run (g : Grammar) (l : Loader) (w : Workspace) :
    TreeCall → Except LoadError (Option Nat) × Loader × Workspace
  | readOrBuild s entries => answered (l.readOrBuild w s.file entries)
  | loadFile s => answered (l.loadFile g w s.file)
  | load p => answered (l.load g w p)
  | readPersisted s => found (l.readPersisted w s.file)

/-- The tree that a call builds, with its file: no tree is known, and one can be made. -/
def built? (g : Grammar) (l : Loader) (w : Workspace) (c : TreeCall) : Option (SourceFile × Tree) :=
  match c.file? l w with
  | .error _ => none
  | .ok file => match (l.readPersisted w file).1, c.made? g file with
    | none, some (.ok t) => some (file, t)
    | _, _ => none

/-- Why a call may fail: it has no file, or nothing can be made of its file. -/
def Fault (g : Grammar) (l : Loader) (w : Workspace) (c : TreeCall) (e : LoadError) : Prop :=
  c.file? l w = .error e ∨ ∃ file, c.file? l w = .ok file ∧ c.made? g file = some (.error e)

/-- What a call comes to: the tree that it builds, if it builds one, and then its answer with the
loader and the workspace after it. -/
inductive Came (g : Grammar) (l : Loader) (w : Workspace) (c : TreeCall) :
    Option (SourceFile × Tree) → Except LoadError (Option Nat) × Loader × Workspace → Prop where
  /-- There is no tree, and nothing changes. -/
  | nothing {answer : Except LoadError (Option Nat)} (h : ∀ n, answer ≠ .ok (some n))
      (hfault : ∀ e, answer = .error e → c.Fault g l w e) : Came g l w c none (answer, l, w)
  /-- A tree is remembered, and nothing changes. -/
  | remembered {file : SourceFile} {n : Nat} (hfile : c.file? l w = .ok file)
      (hn : l.remembered? file = some n) : Came g l w c none (.ok (some n), l, w)
  /-- A tree is kept in the store, and remembered from now on. -/
  | kept {file : SourceFile} {t : Tree} (hfile : c.file? l w = .ok file)
      (hforgot : l.remembered? file = none) (ht : w.persisted file = .fresh t) :
      Came g l w c none (answered (.ok (l.remember w file t).1, (l.remember w file t).2))
  /-- No tree is known; one is made, kept, and remembered from now on. -/
  | built {file : SourceFile} {t : Tree} (hfile : c.file? l w = .ok file)
      (hforgot : l.remembered? file = none) (hlost : ∀ t, w.persisted file ≠ .fresh t)
      (ht : c.made? g file = some (.ok t)) :
      Came g l w c (some (file, t))
        (let r := l.remember (w.keep file.key (t.encode file.fingerprint)) file t
        answered (.ok r.1, r.2))

variable {g : Grammar} {l : Loader} {w : Workspace} {c : TreeCall} {file : SourceFile}

/-! ### The four things that a call comes to

Each call is brought to its file and to reading or making there; the sort of the call matters no
more after that. -/

/-- A tree that is made is the tree of some listing. -/
theorem exists_entries_of_made? {t : Tree} (h : c.made? g file = some (.ok t)) :
    ∃ es, Tree.ofEntries es = .ok t := by
  cases c with
  | readOrBuild s entries =>
      exact ⟨entries, eq_ok_of_mapError_eq_ok (Option.some.inj h)⟩
  | readPersisted s => cases h
  | _ =>
      obtain ⟨es, -, hes⟩ := exists_listing_of_outline (Option.some.inj h)
      exact ⟨es, hes⟩

/-- A call that is given entries makes the tree of these. -/
theorem made?_readOrBuild {s : Sighting} {es : List Entry} {made : Except BuildError Tree}
    (h : Tree.ofEntries es = made) :
    (readOrBuild s es).made? g file = some (made.mapError .build) := by
  rw [made?, h]

/-- Loading has no file if the path is not accepted. -/
theorem file?_of_refuses {p : Path} (h : l.accepts p = false) :
    (load p).file? l w = .error (.unsupported p) := by
  rw [file?, if_neg (by rw [h]; exact Bool.false_ne_true)]

/-- Without a file nothing changes, and the reason is the answer. -/
theorem run_of_no_file {e : LoadError} (h : c.file? l w = .error e) :
    c.run g l w = (.error e, l, w) := by
  cases c with
  | load p =>
      rw [run, Loader.load]
      rw [file?] at h
      split at h
      · rename_i haccepts
        rw [if_pos haccepts, h]
        rfl
      · rename_i haccepts
        cases h
        rw [if_neg haccepts]
        rfl
  | _ => cases h

/-- On their files all calls do the same: they read, and those that make something make it if
nothing is found. -/
theorem run_of_file (h : c.file? l w = .ok file) :
    c.run g l w = match c.made? g file with
      | some made => answered (l.readOr w file made)
      | none => found (l.readPersisted w file) := by
  cases c with
  | load p =>
      rw [run, Loader.load]
      rw [file?] at h
      split at h
      · rename_i haccepts
        rw [if_pos haccepts, h]
        rfl
      · cases h
  | _ =>
      cases h
      rfl

/-- If a tree is found, that is the answer, and none is built. -/
theorem run_of_found (hfile : c.file? l w = .ok file) {n : Nat} {r : Loader × Workspace}
    (hread : l.readPersisted w file = (some n, r)) :
    c.run g l w = (.ok (some n), r) ∧ c.built? g l w = none := by
  constructor
  · rw [run_of_file hfile]
    cases c.made? g file with
    | none => exact congrArg found hread
    | some made => exact congrArg answered (l.readOr_of_found w file hread made)
  · unfold built?
    rw [hfile]
    dsimp only
    rw [hread]

/-- If no tree is found, the answer is what is made. -/
theorem run_of_not_found (hfile : c.file? l w = .ok file)
    (hread : l.readPersisted w file = (none, l, w)) :
    (c.run g l w, c.built? g l w) = match c.made? g file with
      | none => ((.ok none, l, w), none)
      | some (.error e) => ((.error e, l, w), none)
      | some (.ok t) =>
        let r := l.remember (w.keep file.key (t.encode file.fingerprint)) file t
        (answered (.ok r.1, r.2), some (file, t)) := by
  unfold built?
  rw [run_of_file hfile, hfile]
  dsimp only
  rw [hread]
  cases c.made? g file with
  | none => rfl
  | some made =>
      dsimp only
      rw [l.readOr_of_not_found w file hread]
      cases made <;> rfl

/-- A call comes to one of four things. -/
theorem came (g : Grammar) (l : Loader) (w : Workspace) (c : TreeCall) :
    c.Came g l w (c.built? g l w) (c.run g l w) := by
  cases hfile : c.file? l w with
  | error e =>
      have hbuilt : c.built? g l w = none := by
        unfold built?
        rw [hfile]
      rw [run_of_no_file hfile, hbuilt]
      exact .nothing (fun n h => nomatch h) fun e' h => .inl (hfile.trans <|
        congrArg Except.error (Except.error.inj h))
  | ok file =>
      -- What is found decides first; only if nothing is found, what is made matters.
      rcases l.readPersisted_cases w file with ⟨n, hn, hread⟩ | ⟨t, hforgot, ht, hread⟩ |
        ⟨hforgot, hlost, hread⟩
      · obtain ⟨hrun, hbuilt⟩ := run_of_found (g := g) hfile hread
        rw [hrun, hbuilt]
        exact .remembered hfile hn
      · obtain ⟨hrun, hbuilt⟩ := run_of_found (g := g) hfile hread
        rw [hrun, hbuilt]
        exact .kept hfile hforgot ht
      · have hrun := run_of_not_found (g := g) hfile hread
        cases hmade : c.made? g file with
        | none =>
            rw [hmade] at hrun
            obtain ⟨hrun, hbuilt⟩ := Prod.mk.inj hrun
            rw [hrun, hbuilt]
            exact .nothing (fun n h => nomatch h) fun e h => nomatch h
        | some made =>
            rw [hmade] at hrun
            cases made with
            | error e =>
                obtain ⟨hrun, hbuilt⟩ := Prod.mk.inj hrun
                rw [hrun, hbuilt]
                refine .nothing (fun n h => nomatch h) fun e' h => .inr ⟨file, hfile, ?_⟩
                rw [hmade, Except.error.inj h]
            | ok t =>
                obtain ⟨hrun, hbuilt⟩ := Prod.mk.inj hrun
                rw [hrun, hbuilt]
                exact .built hfile hforgot hlost hmade

/-- A call fails only for these reasons. -/
theorem fault_of_run {e : LoadError} (h : (c.run g l w).1 = .error e) : c.Fault g l w e := by
  have hcame := c.came g l w
  generalize c.run g l w = r at hcame h
  generalize c.built? g l w = b at hcame
  cases hcame with
  | nothing hnone hfault => exact hfault e h
  | _ => cases h

/-- What is built was made of the file of the call. -/
theorem made?_of_built? {t : Tree} (h : c.built? g l w = some (file, t)) :
    c.file? l w = .ok file ∧ c.made? g file = some (.ok t) := by
  have hcame := c.came g l w
  rw [h] at hcame
  generalize c.run g l w = r at hcame
  cases hcame with
  | built hfile hforgot hlost ht => exact ⟨hfile, ht⟩

/-- What is made has its nodes in the order in which they are kept. -/
theorem decode_encode_of_made? {t : Tree} (h : c.made? g file = some (.ok t))
    (size : t.size ≤ Nat.pow 2 32) (f : Fingerprint) : Tree.decode (t.encode f) = .ok (f, t) := by
  obtain ⟨es, hes⟩ := exists_entries_of_made? h
  exact Tree.decode_encode_of_preorder f size (Tree.preorder_of_ofEntries hes)

end TreeCall

end Outline
