import Outline.Proofs.Live.Calls
import Outline.Proofs.Loader.Calls

/-!
# Outline.Proofs.Loader.History

**Runs of loaders, with a note of every tree that is built.** A run is any list of events: calls of
any number of loaders over one store, calls for live nodes of the trees that were handed out, and
what happens around them to the files and to the store. A history is the session after a run
together with the notes of the run, the latest first: which trees were built, for which key and
fingerprint, and which keys were forgotten. The notes are not read by any loader; they are what
statements about "the last tree that was built" and "some tree that was built" refer to.
-/

namespace Outline

/-- What can happen in a run. -/
inductive Event where
  | call (i : Nat) (c : TreeCall)
  | invalidate (i : Nat) (p : Path)
  /-- Drop a loader and make a new one in its place. -/
  | renew (i : Nat) (filter : Filter)
  /-- Ask for live nodes of the tree with a number. -/
  | live (n : Nat) (c : LiveCall)
  /-- The files become any others. -/
  | files (fs : FileSystem)
  /-- From now on the store refuses these operations and no others. -/
  | refuse (ops : List StoreOp)
  /-- Other bytes take the place of what the store keeps for a key. -/
  | overwrite (key : String) (bytes : List UInt8)
  /-- The store keeps nothing for a key any more. -/
  | lose (key : String)

/-- What is noted of a run. -/
inductive Note where
  | built (key : String) (f : Fingerprint) (t : Tree)
  | forgotten (key : String)

/-- The store without a key, whatever operations it refuses. -/
def Store.without (key : String) : Store → Store
  | .memory entries failing => .memory (entries.erase key) failing
  | s => s

/-- The shelf after a call for live nodes of the tree with a number. -/
def Shelf.asked (s : Shelf) (n : Nat) (c : LiveCall) : Shelf :=
  match s.query n c.query with
  | some (_, s) => s
  | none => s

/-- A session with the notes of the run that led to it, the latest first. -/
structure History where
  session : Session
  notes : List Note := []

namespace History

/-- The same with another workspace. -/
def within (h : History) (w : Workspace) : History :=
  { h with session := { h.session with workspace := w } }

/-- One event. -/
def step (g : Grammar) (h : History) : Event → History
  | .call i c =>
    let l := h.session.loaders i
    let w := h.session.workspace
    let r := c.run g l w
    let built := (c.built? g l w).map fun (file, t) => .built file.key file.fingerprint t
    ⟨h.session.after i r.2.1 r.2.2, built.toList ++ h.notes⟩
  | .invalidate i p =>
    let w := h.session.workspace
    let r := (h.session.loaders i).invalidate w p
    ⟨h.session.after i r.2.1 r.2.2, .forgotten (w.files.key p) :: h.notes⟩
  | .renew i filter => ⟨h.session.after i { filter := filter } h.session.workspace, h.notes⟩
  | .live n c =>
    let w := h.session.workspace
    h.within { w with shelf := w.shelf.asked n c }
  | .files fs => h.within { h.session.workspace with files := fs }
  | .refuse ops =>
    let w := h.session.workspace
    h.within { w with store := w.store.refusing ops }
  | .overwrite key bytes =>
    let w := h.session.workspace
    h.within { w with store := w.store.overwritten key bytes }
  | .lose key =>
    let w := h.session.workspace
    h.within { w with store := w.store.without key }

/-- The start of a run: no loader remembers anything, and no tree was handed out. -/
def start (store : Store) (files : FileSystem) : History :=
  ⟨⟨{ files := files, store := store }, fun _ => {}⟩, []⟩

/-- The history of a run. -/
def run (g : Grammar) (store : Store) (files : FileSystem) (events : List Event) : History :=
  events.foldl (step g) (start store files)

/-- The fingerprint and the tree of the last build for a key, unless the key was forgotten since:
the latest note about the key decides. -/
def last (key : String) : List Note → Option (Fingerprint × Tree)
  | [] => none
  | .built k f t :: older => if key = k then some (f, t) else last key older
  | .forgotten k :: older => if key = k then none else last key older

/-- The last build for a key in a run, unless the key was forgotten since. -/
def last? (h : History) (key : String) : Option (Fingerprint × Tree) := last key h.notes

variable {g : Grammar} {store : Store} {files : FileSystem} {h : History}

/-! ### Notes -/

theorem run_concat (events : List Event) (e : Event) :
    run g store files (events ++ [e]) = (run g store files events).step g e := by
  rw [run, List.foldl_append]
  rfl

theorem notes_call (i : Nat) (c : TreeCall) : (h.step g (.call i c)).notes =
    ((c.built? g (h.session.loaders i) h.session.workspace).map fun (file, t) =>
      Note.built file.key file.fingerprint t).toList ++ h.notes := rfl

theorem notes_call_of_none {i : Nat} {c : TreeCall}
    (hb : c.built? g (h.session.loaders i) h.session.workspace = none) :
    (h.step g (.call i c)).notes = h.notes := by
  rw [notes_call, hb]
  rfl

/-- A new note is about the call or the invalidation that was made. -/
theorem notes_step (g : Grammar) (h : History) (e : Event) :
    ∃ new, (h.step g e).notes = new ++ h.notes ∧ ∀ key f t, .built key f t ∈ new →
      ∃ i c file, e = .call i c ∧ c.made? g file = some (.ok t) ∧
        file.key = key ∧ file.fingerprint = f ∧ ∃ l w, c.file? l w = .ok file := by
  cases e with
  | call i c =>
      refine ⟨_, rfl, fun key f t ht => ?_⟩
      obtain ⟨⟨file, u⟩, hb, hn⟩ := Option.map_eq_some_iff.1 (Option.mem_toList.1 ht)
      cases hn
      obtain ⟨hfile, hmade⟩ := TreeCall.made?_of_built? hb
      exact ⟨i, c, file, rfl, hmade, rfl, rfl, _, _, hfile⟩
  | invalidate i p =>
      refine ⟨[_], rfl, fun key f t ht => ?_⟩
      cases List.mem_singleton.1 ht
  | _ => exact ⟨[], rfl, fun _ _ _ ht => absurd ht List.not_mem_nil⟩

theorem mem_notes_step (e : Event) {n : Note} (hn : n ∈ h.notes) : n ∈ (h.step g e).notes := by
  obtain ⟨new, hnew, -⟩ := notes_step g h e
  rw [hnew]
  exact List.mem_append_right new hn

/-- What is noted as built was made by one of the calls, of its file, which has the key and the
fingerprint. -/
theorem made?_of_mem_notes {events : List Event} {key : String} {f : Fingerprint} {t : Tree}
    (ht : .built key f t ∈ (run g store files events).notes) :
    ∃ i c file, .call i c ∈ events ∧ c.made? g file = some (.ok t) ∧
      file.key = key ∧ file.fingerprint = f ∧ ∃ l w, c.file? l w = .ok file := by
  induction events using List.reverseRecOn with
  | nil => cases ht
  | append_singleton events e ih =>
      rw [run_concat] at ht
      obtain ⟨new, hnew, hmade⟩ := notes_step g (run g store files events) e
      rw [hnew] at ht
      rcases List.mem_append.1 ht with ht | ht
      · obtain ⟨i, c, file, rfl, hc⟩ := hmade key f t ht
        exact ⟨i, c, file, List.mem_append_right events List.mem_cons_self, hc⟩
      · obtain ⟨i, c, file, hmem, hc⟩ := ih ht
        exact ⟨i, c, file, List.mem_append_left [e] hmem, hc⟩

end History

/-! ### The shelf -/

/-- A call for live nodes changes the slots of its tree and nothing else. -/
theorem Shelf.trees_asked (s : Shelf) (n : Nat) (c : LiveCall) (m : Nat) :
    (s.asked n c).trees[m]? = if m = n then s.trees[n]?.map fun x => (x.1, (c.run x.1 x.2).2)
      else s.trees[m]? := by
  unfold asked query
  cases hn : s.trees[n]? with
  | none =>
      show s.trees[m]? = _
      by_cases hm : m = n
      · rw [if_pos hm, hm, hn]
        rfl
      · rw [if_neg hm]
  | some x =>
      show (s.trees.setIfInBounds n (x.1, (c.run x.1 x.2).2))[m]? = _
      rw [Array.getElem?_setIfInBounds]
      by_cases hm : m = n
      · rw [if_pos hm.symm, if_pos hm, if_pos (Array.getElem?_eq_some_iff.1 hn).1]
        rfl
      · rw [if_neg (Ne.symm hm), if_neg hm]

/-- Calls for live nodes leave the trees as they are. -/
theorem Shelf.tree?_asked (s : Shelf) (n : Nat) (c : LiveCall) (m : Nat) :
    (s.asked n c).tree? m = s.tree? m := by
  unfold tree?
  rw [s.trees_asked]
  by_cases hm : m = n
  · rw [if_pos hm, hm]
    cases s.trees[n]? <;> rfl
  · rw [if_neg hm]

/-! ### Loaders of a session -/

@[simp] theorem Session.loaders_after_self (s : Session) (i : Nat) (l : Loader) (w : Workspace) :
    (s.after i l w).loaders i = l := if_pos rfl

theorem Session.loaders_after_of_ne {i j : Nat} (h : j ≠ i) (s : Session) (l : Loader)
    (w : Workspace) : (s.after i l w).loaders j = s.loaders j := if_neg h

@[simp] theorem Session.workspace_after (s : Session) (i : Nat) (l : Loader) (w : Workspace) :
    (s.after i l w).workspace = w := rfl

end Outline
