import Outline.Proofs.FileSystem.Contents
import Outline.Proofs.FileSystem.Key
import Outline.Proofs.Loader.Soundness
import Outline.Proofs.Syntax.Naming
import Outline.Proofs.Tree.RoundTrip

/-!
# Outline.Proofs.Loader.Transparency

**Memory and store never show in what is loaded.** A run is any list of actions of any number of
loaders over one store, mixed with changes of the source files, refused operations of the store and
entries that are overwritten by bytes that cannot be decoded. After any run, loading a file gives
what a new loader without a store gives for the file as it is then (`load_transparent`).

What is right for a key and a fingerprint (`RightFor`) is the outline of every content that was met
with this fingerprint, in every file with this key. That it does not matter which file is meant is
where two facts come in: contents with one fingerprint are the same, and files with one key have the
same name, on which the outline depends besides the content.
-/

namespace Outline

/-! ### Runs

### Runs

Files change under the loaders, and a loader may be given a file that was seen earlier, with a key
that the files of now would not give it. Both are part of a run, so that nothing has to be supposed
of the order in which things happen. -/

/-- Loaders, by number, with the workspace that they share. -/
structure Session where
  workspace : Workspace
  loaders : Nat → Loader

/-- One step of a run. -/
inductive Action where
  /-- Give a source file new content. -/
  | write (p : Path) (content : List UInt8)
  /-- Take a source file away. -/
  | delete (p : Path)
  | load (i : Nat) (p : Path)
  /-- Load a content that is known already; its key was made when the files were `seen`. -/
  | loadFile (i : Nat) (seen : FileSystem) (p : Path) (content : List UInt8)
  | readPersisted (i : Nat) (seen : FileSystem) (p : Path) (content : List UInt8)
  | invalidate (i : Nat) (p : Path)
  /-- Drop a loader and make a new one in its place. -/
  | renew (i : Nat)
  /-- From now on the store refuses these operations and no others. -/
  | refuse (ops : List StoreOp)
  /-- Bytes that cannot be decoded take the place of what the store keeps for a key. -/
  | spoil (key : String) (bytes : List UInt8) (e : DecodeError) (h : Tree.decode bytes = .error e)

/-- The content that an action brings in. -/
def Action.content? : Action → Option (List UInt8)
  | write _ content | loadFile _ _ _ content | readPersisted _ _ _ content => some content
  | _ => none

/-- The files after an action: only to write and to delete changes them. -/
def Action.files (files : FileSystem) : Action → FileSystem
  | .write p content => (files.write p content).toOption.getD files
  | .delete p => (files.remove p).toOption.getD files
  | _ => files

/-- The store in which other operations are refused. -/
def Store.refusing (ops : List StoreOp) : Store → Store
  | .memory entries _ => .memory entries ops
  | s => s

/-- The store with other bytes for a key, whatever operations it refuses. -/
def Store.overwritten (key : String) (bytes : List UInt8) : Store → Store
  | .memory entries failing => .memory (entries.insert key bytes) failing
  | s => s

namespace Session

/-- The session after the operation of a loader. -/
def after (s : Session) (i : Nat) (l : Loader) (w : Workspace) : Session :=
  ⟨w, fun j => if j = i then l else s.loaders j⟩

/-- The session with other files. -/
def withFiles (s : Session) : Except IoFault FileSystem → Session
  | .ok files => { s with workspace := { s.workspace with files := files } }
  | .error _ => s

/-- One step of a run, with loaders of the given filter. -/
def step (g : Grammar) (filter : Filter) (s : Session) : Action → Session
  | .write p content => s.withFiles (s.workspace.files.write p content)
  | .delete p => s.withFiles (s.workspace.files.remove p)
  | .load i p =>
    let r := (s.loaders i).load g s.workspace p
    s.after i r.2.1 r.2.2
  | .loadFile i seen p content =>
    let r := (s.loaders i).loadFile g s.workspace (.ofContent seen p content)
    s.after i r.2.1 r.2.2
  | .readPersisted i seen p content =>
    let r := (s.loaders i).readPersisted s.workspace (.ofContent seen p content)
    s.after i r.2.1 r.2.2
  | .invalidate i p =>
    let r := (s.loaders i).invalidate s.workspace p
    s.after i r.2.1 r.2.2
  | .renew i => s.after i { filter := filter } s.workspace
  | .refuse ops =>
    { s with workspace := { s.workspace with store := s.workspace.store.refusing ops } }
  | .spoil key bytes _ _ =>
    { s with workspace := { s.workspace with store := s.workspace.store.overwritten key bytes } }

/-- The session at the start of a run: no loader remembers anything, and the store is empty. -/
def start (filter : Filter) (files : FileSystem) : Session :=
  ⟨{ files := files, store := .inMemory }, fun _ => { filter := filter }⟩

/-- The session after a run. -/
def run (g : Grammar) (filter : Filter) (files : FileSystem) (actions : List Action) : Session :=
  actions.foldl (step g filter) (start filter files)

end Session

/-- The contents that are met in a run: those of the files at its start, and those that actions
bring in. -/
def Met (files : FileSystem) (actions : List Action) (content : List UInt8) : Prop :=
  files.Holds content ∨ ∃ a ∈ actions, a.content? = some content

namespace Loader

/-- What an operation of a loader comes to: the tree that it answers with, or the error. -/
def outcome (r : Except LoadError Nat × Loader × Workspace) : Except LoadError (Option Tree) :=
  r.1.map r.2.2.shelf.tree?

/-- What loading comes to for a loader that neither remembers nor keeps anything. -/
def meaning (g : Grammar) (filter : Filter) (files : FileSystem) (p : Path) :
    Except LoadError Tree :=
  if ({ filter := filter } : Loader).accepts p then SourceFile.read files p >>= outline g
  else .error (.unsupported p)

/-- A new loader without a store makes the outline of the file. -/
theorem outcome_load_new (g : Grammar) (filter : Filter) (files : FileSystem) (p : Path) :
    outcome (({ filter := filter } : Loader).load g { files := files } p) =
      (meaning g filter files p).map some := by
  unfold load meaning
  by_cases haccepts : ({ filter := filter } : Loader).accepts p = true
  · rw [if_pos haccepts, if_pos haccepts]
    cases SourceFile.read files p with
    | error e => rfl
    | ok file =>
        show outcome (loadFile g _ _ file) = (outline g file).map some
        unfold loadFile readOr
        rw [show ({ filter := filter } : Loader).readPersisted { files := files } file =
          (none, { filter := filter }, { files := files }) from rfl]
        cases outline g file with
        | error e => rfl
        | ok t =>
            show Except.ok _ = Except.ok _
            exact congrArg Except.ok (Shelf.tree?_add {} t)
  · rw [if_neg haccepts, if_neg haccepts]
    rfl

end Loader

/-! ### What is right

### What is right

A tree that is remembered or kept is known by a key and a fingerprint only. So it has to be right
for every file and every content that may be meant by the two. -/

/-- The tree is the outline of every content that was met with the fingerprint, in every file with
the key, if it is a source file. -/
def RightFor (g : Grammar) (met : List UInt8 → Prop) : Answers := fun key f t =>
  ∀ fs p content, met content → (Language.ofPath? p).isSome → fs.key p = key →
    Fingerprint.ofContent content = f → Loader.outline g (.ofContent fs p content) = .ok t

theorem exists_fileName_of_ofPath? {p : Path} (h : (Language.ofPath? p).isSome) :
    ∃ n, p.fileName? = some n := by
  unfold Language.ofPath? Path.extension? at h
  cases hn : p.fileName? with
  | some n => exact ⟨n, rfl⟩
  | none =>
      rw [hn] at h
      cases h

theorem ofPath?_isSome_of_listingOf? {g : Grammar} {p : Path} {content : List UInt8}
    {es : List Entry} (h : listingOf? g p content = some es) : (Language.ofPath? p).isSome := by
  unfold listingOf? at h
  obtain ⟨x, hx, h⟩ := Option.bind_eq_some_iff.1 h
  obtain ⟨l, hl, -⟩ := Option.bind_eq_some_iff.1 h
  rw [Language.ofPath?, hx, Option.bind_some, hl]
  rfl

/-- The listing of a file depends on its name and its content. -/
theorem listingOf?_congr {g : Grammar} {p q : Path} (h : p.fileName? = q.fileName?)
    (content : List UInt8) : listingOf? g p content = listingOf? g q content := by
  unfold listingOf? Path.extension?
  rw [h]

/-- An outline is the tree of the listing. -/
theorem outline_of_listing {g : Grammar} {file : SourceFile} {es : List Entry} {t : Tree}
    (hes : listingOf? g file.path file.content = some es) (ht : Tree.ofEntries es = .ok t) :
    Loader.outline g file = .ok t := by
  unfold Loader.outline
  rw [hes]
  show (Tree.ofEntries es).mapError LoadError.build = .ok t
  rw [ht]
  rfl

theorem ofPath?_isSome_of_accepts {l : Loader} {p : Path} (h : l.accepts p = true) :
    (Language.ofPath? p).isSome := by
  unfold Loader.accepts at h
  obtain ⟨-, h⟩ := Bool.and_eq_true_iff.1 h
  obtain ⟨language, hlanguage, -⟩ := Option.any_eq_true _ _ |>.1 h
  rw [hlanguage]
  rfl

/-- What can be outlined has a listing, and the outline is its tree. -/
theorem exists_listing_of_outline {g : Grammar} {file : SourceFile} {t : Tree}
    (h : Loader.outline g file = .ok t) :
    ∃ es, listingOf? g file.path file.content = some es ∧ Tree.ofEntries es = .ok t := by
  unfold Loader.outline at h
  split at h
  · cases h
  · rename_i es hes
    refine ⟨es, hes, ?_⟩
    cases ht : Tree.ofEntries es with
    | error e =>
        rw [ht] at h
        cases h
    | ok u =>
        rw [ht] at h
        cases h
        rfl

/-- A text that is taken for a name has a tree of a few nodes. -/
theorem size_le_of_outline_naming {file : SourceFile} {t : Tree}
    (h : Loader.outline .naming file = .ok t) : t.size ≤ Nat.pow 2 32 := by
  obtain ⟨es, hes, ht⟩ := exists_listing_of_outline h
  rw [(describes_of_ofEntries ht).size]
  exact Nat.le_trans (length_listing_naming hes) (by decide)

/-- The outline of a content that was met is right for its key and its fingerprint. -/
theorem rightFor_of_outline {g : Grammar} {met : List UInt8 → Prop}
    (hash : ∀ c c', met c → met c' → Fingerprint.ofContent c = Fingerprint.ofContent c' → c = c')
    {fs : FileSystem} {p : Path} {content : List UInt8} (hmet : met content) {t : Tree}
    (h : Loader.outline g (.ofContent fs p content) = .ok t) :
    RightFor g met (fs.key p) (Fingerprint.ofContent content) t := by
  intro fs' q content' hmet' hq hkey hf
  obtain rfl := hash content' content hmet' hmet hf
  obtain ⟨es, hes, ht⟩ := exists_listing_of_outline h
  have hes : listingOf? g p content' = some es := hes
  obtain ⟨n, hn⟩ := exists_fileName_of_ofPath? (ofPath?_isSome_of_listingOf? hes)
  obtain ⟨m, hm⟩ := exists_fileName_of_ofPath? hq
  -- Besides its content, all that an outline shows of a file is its name.
  have hname : q.fileName? = p.fileName? := by
    rw [hm, hn, FileSystem.fileName?_eq_of_key_eq hm hn hkey]
  exact outline_of_listing ((listingOf?_congr hname content').trans hes) ht

/-! ### What one step keeps

### What one step keeps

Steps that touch the store or the files keep what is right because they make nothing new that could
be decoded; steps of a loader, because what they make is the outline of a content that was met. -/

section

variable {right : Answers} {w : Workspace}

/-- What the store refuses does not matter to what it keeps. -/
theorem Workspace.Sound.refusing (h : w.Sound right) (ops : List StoreOp) :
    ({ w with store := w.store.refusing ops } : Workspace).Sound right := by
  obtain ⟨entries, failing, hstore, hright⟩ := h.store
  refine ⟨entries, ops, ?_, hright⟩
  rw [hstore]
  rfl

/-- Bytes that cannot be decoded may stand in the store. -/
theorem Workspace.Sound.overwritten (h : w.Sound right) (key : String) {bytes : List UInt8}
    {e : DecodeError} (hbytes : Tree.decode bytes = .error e) :
    ({ w with store := w.store.overwritten key bytes } : Workspace).Sound right := by
  obtain ⟨entries, failing, hstore, hright⟩ := h.store
  refine ⟨entries.insert key bytes, failing, ?_, fun k bs f t hk hd => ?_⟩
  · rw [hstore]
    rfl
  · -- The bytes that were put there say nothing, and the others are as they were.
    rw [Table.get?_insert] at hk
    split at hk
    · cases hk
      rw [hbytes] at hd
      cases hd
    · exact hright k bs f t hk hd

end

namespace Session

/-- What stays true in a run: everything that is remembered or kept is right, all loaders have the
filter, and no file holds a content that was not met. -/
structure Good (g : Grammar) (met : List UInt8 → Prop) (filter : Filter) (s : Session) :
    Prop where
  workspace : s.workspace.Sound (RightFor g met)
  loader : ∀ i, (s.loaders i).Sound (RightFor g met) s.workspace.shelf
  filter : ∀ i, (s.loaders i).filter = filter
  files : ∀ c, s.workspace.files.Holds c → met c

variable {g : Grammar} {met : List UInt8 → Prop} {filter : Filter} {s : Session}

theorem good_start {files : FileSystem} (h : ∀ c, files.Holds c → met c) :
    (start filter files).Good g met filter where
  workspace := ⟨.empty, [], rfl, fun key bytes f t hk _ => by
    rw [Table.get?_empty] at hk
    cases hk⟩
  loader _ := Loader.Sound.fresh filter _
  filter _ := rfl
  files := h

/-- The operation of one loader. The other loaders see a larger shelf. -/
theorem Good.after (h : s.Good g met filter) {i : Nat} {l : Loader} {w : Workspace}
    (hkept : Kept (RightFor g met) (s.loaders i) l s.workspace w) :
    (s.after i l w).Good g met filter where
  workspace := hkept.workspace
  loader j := by
    unfold Session.after
    dsimp only
    split
    · exact hkept.loader
    · exact (h.loader j).mono hkept.shelf
  filter j := by
    unfold Session.after
    dsimp only
    split
    · exact hkept.filter.trans (h.filter i)
    · exact h.filter j
  files c hc := h.files c (hkept.files ▸ hc)

theorem Good.withStore (h : s.Good g met filter) {store : Store}
    (hstore : ({ s.workspace with store := store } : Workspace).Sound (RightFor g met)) :
    ({ s with workspace := { s.workspace with store := store } } : Session).Good g met filter where
  workspace := hstore
  loader := h.loader
  filter := h.filter
  files := h.files

theorem Good.withFiles (h : s.Good g met filter) {r : Except IoFault FileSystem}
    (hr : ∀ files, r = .ok files → ∀ c, files.Holds c → met c) :
    (s.withFiles r).Good g met filter := by
  cases r with
  | error e => exact h
  | ok files => exact ⟨⟨h.workspace.store⟩, h.loader, h.filter, hr files rfl⟩

section

variable
  (hash : ∀ c c', met c → met c' → Fingerprint.ofContent c = Fingerprint.ofContent c' → c = c')
  (size : ∀ file t, met file.content → Loader.outline g file = .ok t → t.size ≤ Nat.pow 2 32)

include hash size

theorem Good.loadFile (h : s.Good g met filter) (i : Nat) (fs : FileSystem) (p : Path)
    {content : List UInt8} (hmet : met content) :
    let r := (s.loaders i).loadFile g s.workspace (.ofContent fs p content)
    Kept (RightFor g met) (s.loaders i) r.2.1 s.workspace r.2.2 ∧
      ((∃ n t, r.1 = .ok n ∧ r.2.2.shelf.tree? n = some t ∧
          RightFor g met (fs.key p) (Fingerprint.ofContent content) t) ∨
        ∃ e, r.1 = .error e ∧ Loader.outline g (.ofContent fs p content) = .error e) := by
  have hmade : ∀ t, Loader.outline g (.ofContent fs p content) = .ok t →
      RightFor g met (fs.key p) (Fingerprint.ofContent content) t ∧
        Tree.decode (t.encode (Fingerprint.ofContent content)) =
          .ok (Fingerprint.ofContent content, t) := by
    intro t ht
    obtain ⟨es, -, hes⟩ := exists_listing_of_outline ht
    exact ⟨rightFor_of_outline hash hmet ht,
      Tree.decode_encode_of_preorder _ (size _ t hmet ht) (Tree.preorder_of_ofEntries hes)⟩
  obtain ⟨answer, l, w, hload, hkept, hanswer⟩ :=
    Loader.readOr_spec (h.loader i) h.workspace (.ofContent fs p content) hmade
  unfold Loader.loadFile
  rw [hload]
  exact ⟨hkept, hanswer⟩

/-- What is loaded for a source file is its outline, or the fault of making one. -/
theorem Good.outcome_loadFile (h : s.Good g met filter) (i : Nat) (fs : FileSystem) {p : Path}
    (hsource : (Language.ofPath? p).isSome) {content : List UInt8} (hmet : met content) :
    Loader.outcome ((s.loaders i).loadFile g s.workspace (.ofContent fs p content)) =
      (Loader.outline g (.ofContent fs p content)).map some := by
  unfold Loader.outcome
  obtain ⟨-, ⟨n, t, hn, ht, hright⟩ | ⟨e, hn, he⟩⟩ := h.loadFile hash size i fs p hmet
  · rw [hright fs p content hmet hsource rfl rfl, hn]
    exact congrArg Except.ok ht
  · rw [he, hn]
    rfl

theorem Good.load (h : s.Good g met filter) (i : Nat) (p : Path) :
    let r := (s.loaders i).load g s.workspace p
    Kept (RightFor g met) (s.loaders i) r.2.1 s.workspace r.2.2 ∧
      Loader.outcome r = (Loader.meaning g filter s.workspace.files p).map some := by
  have hstay := Kept.refl (h.loader i) h.workspace
  have hsame : (s.loaders i).accepts p = ({ filter := filter } : Loader).accepts p := by
    unfold Loader.accepts
    rw [h.filter i]
  unfold Loader.load Loader.meaning
  rw [hsame]
  by_cases haccepts : ({ filter := filter } : Loader).accepts p = true
  · rw [if_pos haccepts, if_pos haccepts]
    cases hread : s.workspace.files.read p with
    | error e =>
        unfold SourceFile.read
        rw [hread]
        exact ⟨hstay, rfl⟩
    | ok content =>
        unfold SourceFile.read
        rw [hread]
        have hmet := h.files content (FileSystem.holds_of_read hread)
        have hsource := ofPath?_isSome_of_accepts haccepts
        exact ⟨(h.loadFile hash size i s.workspace.files p hmet).1,
          h.outcome_loadFile hash size i s.workspace.files hsource hmet⟩
  · rw [if_neg haccepts, if_neg haccepts]
    exact ⟨hstay, rfl⟩

/-- One step of a run. -/
theorem Good.step (h : s.Good g met filter) (a : Action) (ha : ∀ c, a.content? = some c → met c) :
    (s.step g filter a).Good g met filter := by
  cases a with
  | write p content =>
      refine h.withFiles fun files hfiles c hc => ?_
      rcases FileSystem.holds_of_write hfiles hc with rfl | hheld
      · exact ha c rfl
      · exact h.files c hheld
  | delete p =>
      exact h.withFiles fun files hfiles c hc => h.files c (FileSystem.holds_of_remove hfiles hc)
  -- What an operation of a loader comes to does not matter here, only what it keeps.
  | load i p => exact h.after (h.load hash size i p).1
  | loadFile i seen p content => exact h.after (h.loadFile hash size i seen p (ha content rfl)).1
  | readPersisted i seen p content =>
      exact h.after (Loader.readPersisted_kept (h.loader i) h.workspace (.ofContent seen p content))
  | invalidate i p => exact h.after (Loader.invalidate_spec (h.loader i) h.workspace p)
  | renew i =>
      exact h.after ⟨h.workspace, Loader.Sound.fresh filter _, fun _ _ ht => ht,
        (h.filter i).symm, rfl⟩
  | refuse ops => exact h.withStore (h.workspace.refusing ops)
  | spoil key bytes e hbytes => exact h.withStore (h.workspace.overwritten key hbytes)

/-- What loaders do does not show in the files, for their store is in memory. -/
theorem Good.files_step (h : s.Good g met filter) (a : Action)
    (ha : ∀ c, a.content? = some c → met c) :
    (s.step g filter a).workspace.files = a.files s.workspace.files := by
  have hwith : ∀ r : Except IoFault FileSystem,
      (s.withFiles r).workspace.files = r.toOption.getD s.workspace.files := by
    intro r
    cases r <;> rfl
  cases a with
  | write p content => exact hwith _
  | delete p => exact hwith _
  | load i p => exact (h.load hash size i p).1.files
  | loadFile i seen p content => exact (h.loadFile hash size i seen p (ha content rfl)).1.files
  | readPersisted i seen p content =>
      exact (Loader.readPersisted_kept (h.loader i) h.workspace (.ofContent seen p content)).files
  | invalidate i p => exact (Loader.invalidate_spec (h.loader i) h.workspace p).files
  | renew i => rfl
  | refuse ops => rfl
  | spoil key bytes e hbytes => rfl

theorem Good.files_foldl (h : s.Good g met filter) (actions : List Action)
    (hactions : ∀ a ∈ actions, ∀ c, a.content? = some c → met c) :
    (actions.foldl (Session.step g filter) s).workspace.files =
      actions.foldl Action.files s.workspace.files := by
  induction actions generalizing s with
  | nil => rfl
  | cons a actions ih =>
      have ha := hactions a List.mem_cons_self
      rw [List.foldl_cons, List.foldl_cons, ← h.files_step hash size a ha]
      exact ih (h.step hash size a ha) fun b hb => hactions b (List.mem_cons_of_mem a hb)

theorem Good.foldl (h : s.Good g met filter) (actions : List Action)
    (hactions : ∀ a ∈ actions, ∀ c, a.content? = some c → met c) :
    (actions.foldl (Session.step g filter) s).Good g met filter := by
  induction actions generalizing s with
  | nil => exact h
  | cons a actions ih =>
      exact ih (h.step hash size a (hactions a List.mem_cons_self))
        fun b hb => hactions b (List.mem_cons_of_mem a hb)

end

end Session

/-- **What is loaded depends on the file alone.** After any run, loading a file with any of the
loaders comes to what it comes to for a new loader without a store: to the same error, or to the
same tree. Contents that are met have different fingerprints if they differ, and their outlines have
no more nodes than can be numbered. -/
theorem load_transparent (g : Grammar) (filter : Filter) (files : FileSystem)
    (actions : List Action)
    (hash : ∀ c c', Met files actions c → Met files actions c' →
      Fingerprint.ofContent c = Fingerprint.ofContent c' → c = c')
    (size : ∀ file t, Met files actions file.content → Loader.outline g file = .ok t →
      t.size ≤ Nat.pow 2 32)
    (i : Nat) (p : Path) :
    let s := Session.run g filter files actions
    ∃ r : Except LoadError Tree,
      Loader.outcome ((s.loaders i).load g s.workspace p) = r.map some ∧
      Loader.outcome (({ filter := filter } : Loader).load g { files := s.workspace.files } p) =
        r.map some := by
  intro s
  have hstart : (Session.start filter files).Good g (Met files actions) filter :=
    Session.good_start fun c hc => .inl hc
  have hrun : s.Good g (Met files actions) filter :=
    hstart.foldl hash size actions fun a ha c hc => .inr ⟨a, ha, hc⟩
  exact ⟨_, (hrun.load hash size i p).2, Loader.outcome_load_new g filter s.workspace.files p⟩

theorem Tree.decode_nil : Tree.decode [] = .error (.format .truncated) := by
  rw [Tree.decode, Document.read, Json.Reader.run, Json.tokens]
  rfl

/-- The file changes after one loader has seen it, another loader cannot read the store, and what
was kept is lost before that loader is made anew. It answers with the function of the new content,
and so does a loader without a store. -/
theorem load_transparent_changed :
    let g := Grammar.naming
    let p : Path := ⟨"/a.py"⟩
    let actions : List Action := [.write p [97], .load 0 p, .write p [98], .refuse [.load],
      .load 1 p, .spoil "/a.py" [] _ Tree.decode_nil, .renew 1, .refuse []]
    let s := Session.run g {} {} actions
    Fingerprint.ofContent [97] ≠ Fingerprint.ofContent [98] ∧
      ∃ t n, Loader.outcome ((s.loaders 1).load g s.workspace p) = .ok (some t) ∧
        Loader.outcome (({} : Loader).load g { files := s.workspace.files } p) = .ok (some t) ∧
        t.node? 1 = some n ∧ n.kind = .function ∧ n.payload.name = "b" := by
  intro g p actions s
  have hdifferent : Fingerprint.ofContent [97] ≠ Fingerprint.ofContent [98] := by decide +kernel
  have hmet : ∀ c, Met {} actions c → c = [97] ∨ c = [98] := by
    rintro c (⟨l, hl⟩ | ⟨a, ha, hc⟩)
    · cases hl
    · simp only [actions, List.mem_cons, List.not_mem_nil, or_false] at ha
      rcases ha with rfl | rfl | rfl | rfl | rfl | rfl | rfl | rfl <;> cases hc
      · exact .inl rfl
      · exact .inr rfl
  have hash : ∀ c c', Met {} actions c → Met {} actions c' →
      Fingerprint.ofContent c = Fingerprint.ofContent c' → c = c' := by
    intro c c' hc hc' heq
    rcases hmet c hc with rfl | rfl <;> rcases hmet c' hc' with rfl | rfl
    · rfl
    · exact absurd heq hdifferent
    · exact absurd heq.symm hdifferent
    · rfl
  have size : ∀ file t, Met {} actions file.content → Loader.outline g file = .ok t →
      t.size ≤ Nat.pow 2 32 := fun _ _ _ ht => size_le_of_outline_naming ht
  -- The files are those that the two writes leave.
  have hread : s.workspace.files.read p = .ok [98] := by
    have hstart : (Session.start {} {}).Good g (Met {} actions) {} :=
      Session.good_start fun c hc => .inl hc
    let before := ({} : FileSystem).set ["a.py"] (.file [97])
    have hfirst : ({} : FileSystem).write p [97] = .ok before :=
      FileSystem.write_root (by decide) (by decide) fun e he => by cases he
    have hsecond : before.write p [98] = .ok (before.set ["a.py"] (.file [98])) :=
      FileSystem.write_root (by decide) (by decide) fun e he => ⟨[97], (Option.some.inj he).symm⟩
    rw [show s.workspace.files = _ from hstart.files_foldl hash size actions fun a ha c hc =>
      .inr ⟨a, ha, hc⟩]
    show FileSystem.read (Action.files (Action.files {} (.write p [97])) (.write p [98])) p = _
    rw [Action.files, Action.files, hfirst]
    show FileSystem.read ((before.write p [98]).toOption.getD _) p = _
    rw [hsecond]
    exact FileSystem.read_root (n := "a.py") (by decide) (by decide) rfl
  obtain ⟨t, n, ht, hn, hkind, hname⟩ := exists_tree_naming "a.py" "b" (by decide)
  have hlisting : listingOf? g p [98] = some (namingEntries "a.py" "b") :=
    listing_naming (by decide) (by decide) (by decide +kernel) (by decide)
  have hmeaning : Loader.meaning g {} s.workspace.files p = .ok t := by
    rw [Loader.meaning, if_pos (by decide), SourceFile.read, hread]
    exact outline_of_listing hlisting ht
  obtain ⟨r, hr, hfresh⟩ := load_transparent g {} {} actions hash size 1 p
  have hr' : r.map some = .ok (some t) := by
    rw [← hfresh]
    exact (Loader.outcome_load_new g {} s.workspace.files p).trans (congrArg _ hmeaning)
  exact ⟨hdifferent, t, n, hr.trans hr', hfresh.trans hr', hn, hkind, hname⟩

end Outline
