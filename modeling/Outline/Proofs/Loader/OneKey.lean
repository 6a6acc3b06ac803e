import Outline.Proofs.Loader.Locks
import Outline.Proofs.Loader.Sharing
import Outline.Proofs.Loader.Storage

/-!
# Outline.Proofs.Loader.OneKey

**A call touches one key, or nothing.** What a call leaves is told by its exits
(`TreeCall.Leaves`): only a call with a new answer changes anything, and then only for the key of
its file (`LockingLoader.Spares`). After a file has been forgotten nothing of it is left, and to
forget it again changes nothing more (`LockingLoader.Forgets`).

What a call can do is told by its exits, each of which is short. So the statements are long and the
proofs are not: for each exit it is said what the code has done there, and the fields of
`TreeCall.Leaves` are read off.
-/

namespace Outline

/-! ### What a call leaves

`Spares` is for every call about a key, whatever its outcome; `Leaves` adds what is left at each
exit, and `Forgets` is the same for forgetting. -/

/-- What a call about a key leaves as it was. -/
structure LockingLoader.Spares (key : String) (l : LockingLoader) (w : Workspace)
    (l' : LockingLoader) (w' : Workspace) : Prop where
  filter : l'.filter = l.filter
  memory : ∀ k, k ≠ key → l'.memory.get? k = l.memory.get? k
  locks : ∀ k, k ≠ key → l'.locks.get? k = l.locks.get? k
  users : ∀ k, l'.locks.users k = l.locks.users k
  shelf : ∀ n, n < w.shelf.trees.size → w'.shelf.trees[n]? = w.shelf.trees[n]?
  store : Store.Apart key w.store w.files w'.store w'.files
  direct : w'.store.Direct w'.files

/-- How a call of a loader ends, and what it leaves. -/
structure TreeCall.Leaves (g : Grammar) (l : LockingLoader) (w : Workspace) (c : TreeCall)
    (r : Except LoadError (Option Nat) × LockingLoader × Workspace) : Prop where
  /-- Without a file a call fails, and leaves everything as it was. -/
  noFile : ∀ e, c.file? l.toLoader w = .error e → r = (.error e, l, w)
  /-- A call without a tree as its answer leaves what is remembered and kept as it was. -/
  unanswered : (∀ n, r.1 ≠ .ok (some n)) → r.2.1.toLoader = l.toLoader ∧ r.2.2 = w ∧
    ∀ p, r.2.1.cached? r.2.2.files p = l.cached? w.files p
  /-- A call is about no key but that of its file. -/
  spares : ∀ file, c.file? l.toLoader w = .ok file → l.Spares file.key w r.2.1 r.2.2
  /-- A tree that is the answer is remembered for the content of the file. -/
  remembers : ∀ n, r.1 = .ok (some n) → ∃ file, c.file? l.toLoader w = .ok file ∧
    r.2.1.memory.get? file.key = some ⟨file.fingerprint, n⟩
  /-- A tree that is remembered is the answer, and nothing changes. -/
  known : ∀ file n, c.file? l.toLoader w = .ok file → l.remembered? file = some n →
    r.1 = .ok (some n) ∧ r.2.1.toLoader = l.toLoader ∧ r.2.2 = w
  /-- A tree that is kept for the content of the file is the answer, and nothing is written. -/
  fetched : ∀ file t, c.file? l.toLoader w = .ok file → l.remembered? file = none →
    w.persisted file = .fresh t → ∃ n, r.1 = .ok (some n) ∧ r.2.2.shelf.tree? n = some t ∧
      r.2.2.store = w.store ∧ r.2.2.files = w.files
  /-- If nothing is known of the file and nothing can be made of it, the call fails. -/
  failed : ∀ file e, c.file? l.toLoader w = .ok file → l.remembered? file = none →
    (∀ t, w.persisted file ≠ .fresh t) → c.made? g file = some (.error e) → r.1 = .error e
  /-- A tree that is built is the answer. -/
  built : ∀ file t, c.built? g l.toLoader w = some (file, t) →
    ∃ n, r.1 = .ok (some n) ∧ r.2.2.shelf.tree? n = some t
  /-- A tree that is built stands in the store afterwards, if the store takes it, and is one that
  keeps anything. If it gives the tree out, that is fresh. -/
  kept : ∀ file t kept, c.built? g l.toLoader w = some (file, t) → w.store ≠ .null →
    w.store.put w.files file.key (t.encode file.fingerprint) = .ok kept →
    r.2.2.store.bytes? r.2.2.files file.key = some (t.encode file.fingerprint) ∧
    (t.size ≤ Nat.pow 2 32 → (∀ e, r.2.2.store.get r.2.2.files file.key ≠ .error e) →
      r.2.2.persisted file = .fresh t)
  /-- If the store does not take it, nothing is written. -/
  refused : ∀ file t e, c.built? g l.toLoader w = some (file, t) →
    w.store.put w.files file.key (t.encode file.fingerprint) = .error e →
    r.2.2.store = w.store ∧ r.2.2.files = w.files

/-- What is left when a file has been forgotten. -/
structure LockingLoader.Forgets (l : LockingLoader) (w : Workspace) (key : String)
    (r : Except IoFault Unit × LockingLoader × Workspace) : Prop where
  memory : r.2.1.memory.get? key = none
  /-- The lock goes, unless another call wants it. -/
  lock : r.2.1.locks.get? key = if l.locks.users key = 0 then none else l.locks.get? key
  /-- What the store says is the answer. -/
  answer : r.1 = (w.store.remove w.files key).map fun _ => ()
  removed : r.1 = .ok () → r.2.2.store.bytes? r.2.2.files key = none
  refused : ∀ e, r.1 = .error e → r.2.2 = w
  spares : l.Spares key w r.2.1 r.2.2
  shelf : r.2.2.shelf = w.shelf
  /-- All spellings of the file do the same. -/
  spelling : ∀ q, w.files.key q = key → l.invalidate w q = r
  /-- To forget the file again changes nothing more. The path has its key still, unless the name of
  the file that goes, which is the fingerprint of the key, is a part of the key itself. -/
  again : ∀ q, w.files.key q = key →
    (∀ dir, w.store = .disk dir → Store.fileName key ∉ w.files.keyLocation q) →
    r.2.1.invalidate r.2.2 q = r

/-! ### Exits of a call

A call ends without a file, with a tree that is remembered, one that was kept, one that it built, or
with a reason for none. Each has an equation for `run`. -/

/-- What is remembered for a file stands in memory. -/
theorem Loader.get?_of_remembered? {l : Loader} {file : SourceFile} {n : Nat}
    (h : l.remembered? file = some n) : l.memory.get? file.key = some ⟨file.fingerprint, n⟩ := by
  unfold remembered? at h
  split at h
  · rename_i m hm
    split at h
    · rename_i hf
      rw [hm, ← hf, ← Option.some.inj h]
    · cases h
  · cases h

/-- Whether or not the store takes the bytes of a key, all else stays. -/
theorem Workspace.keep_spec {w : Workspace} (direct : w.store.Direct w.files) (key : String)
    (bytes : List UInt8) : (w.keep key bytes).store.Direct (w.keep key bytes).files ∧
      Store.Apart key w.store w.files (w.keep key bytes).store (w.keep key bytes).files := by
  unfold keep
  cases hput : w.store.put w.files key bytes with
  | error e => exact ⟨direct, .refl key w.store w.files⟩
  | ok kept =>
      obtain ⟨hdirect, hapart, -⟩ := Store.put_spec direct hput
      exact ⟨hdirect, hapart⟩

namespace TreeCall

variable {g : Grammar} {l : Loader} {w : Workspace} {c : TreeCall} {file : SourceFile} {t : Tree}

/-- A tree that is remembered is the answer, and all stays. -/
theorem run_of_remembered {n : Nat} (hfile : c.file? l w = .ok file)
    (hn : l.remembered? file = some n) : c.run g l w = (.ok (some n), l, w) :=
  (run_of_found hfile (by rw [Loader.readPersisted, hn])).1

/-- One that was kept for this content is remembered and is the answer. -/
theorem run_of_fresh (hfile : c.file? l w = .ok file) (hforgot : l.remembered? file = none)
    (ht : w.persisted file = .fresh t) :
    c.run g l w = (.ok (some (l.remember w file t).1), (l.remember w file t).2) :=
  (run_of_found hfile (by rw [Loader.readPersisted, hforgot, ht])).1

/-- One that is built is kept if the store takes it, and then remembered. -/
theorem run_of_built? (h : c.built? g l w = some (file, t)) :
    c.run g l w =
      (.ok (some (l.remember (w.keep file.key (t.encode file.fingerprint)) file t).1),
        (l.remember (w.keep file.key (t.encode file.fingerprint)) file t).2) := by
  have hcame := c.came g l w
  rw [h] at hcame
  generalize c.run g l w = r at hcame ⊢
  cases hcame with
  | built => rfl

/-- If nothing can be made of the file, all stays. -/
theorem run_of_failed {e : LoadError} (hfile : c.file? l w = .ok file)
    (hforgot : l.remembered? file = none) (hlost : ∀ t, w.persisted file ≠ .fresh t)
    (he : c.made? g file = some (.error e)) : c.run g l w = (.error e, l, w) := by
  have hread : l.readPersisted w file = (none, l, w) := by
    rcases l.readPersisted_cases w file with ⟨n, hn, -⟩ | ⟨t, -, ht, -⟩ | ⟨-, -, hread⟩
    · cases hforgot.symm.trans hn
    · exact absurd ht (hlost t)
    · exact hread
  have hrun := run_of_not_found (g := g) hfile hread
  rw [he] at hrun
  exact (Prod.mk.inj hrun).1

/-- A call that is not answered with a tree changes nothing. -/
theorem run_of_unanswered (h : ∀ n, (c.run g l w).1 ≠ .ok (some n)) :
    (c.run g l w).2 = (l, w) := by
  have hcame := c.came g l w
  generalize c.run g l w = r at hcame h ⊢
  generalize c.built? g l w = b at hcame
  cases hcame with
  | nothing | remembered => rfl
  | kept => exact absurd rfl (h _)
  | built => exact absurd rfl (h _)

/-- The answer is remembered for the content of the file. -/
theorem memory_run {n : Nat} (h : (c.run g l w).1 = .ok (some n)) :
    ∃ file, c.file? l w = .ok file ∧
      (c.run g l w).2.1.memory.get? file.key = some ⟨file.fingerprint, n⟩ := by
  have hcame := c.came g l w
  generalize c.run g l w = r at hcame h ⊢
  generalize c.built? g l w = b at hcame
  cases hcame with
  | nothing hnone => exact absurd h (hnone n)
  | remembered hfile hn =>
      cases h
      exact ⟨_, hfile, Loader.get?_of_remembered? hn⟩
  | kept hfile | built hfile =>
      cases h
      exact ⟨_, hfile, (Table.get?_insert _ _ _ _).trans (if_pos rfl)⟩

/-! ### One key

The only writes are those into the memory, the locks and the store, and all of them are at the key
of the file. -/

variable {ll : LockingLoader} {locks : Locks}

/-- To remember a tree for a file spares the other keys, if its store did. -/
theorem spares_remember {w' : Workspace} (hshelf : w'.shelf = w.shelf)
    (hstore : w'.store.Direct w'.files ∧ Store.Apart file.key w.store w.files w'.store w'.files)
    (hlocks : ∀ k, k ≠ file.key → locks.get? k = ll.locks.get? k)
    (husers : ∀ k, locks.users k = ll.locks.users k) (t : Tree) :
    ll.Spares file.key w ⟨(ll.toLoader.remember w' file t).2.1, locks⟩
      (ll.toLoader.remember w' file t).2.2 where
  filter := rfl
  memory k hk := (Table.get?_insert ll.memory file.key _ k).trans (if_neg hk)
  locks := hlocks
  users := husers
  shelf n hn := by
    show (w'.shelf.add t).2.trees[n]? = _
    rw [hshelf, Shelf.getElem?_add, if_neg (Nat.ne_of_lt hn)]
  store := hstore.2
  direct := hstore.1

/-- Whatever a call does spares the other keys. -/
theorem spares_run (direct : w.store.Direct w.files) (hfile : c.file? ll.toLoader w = .ok file)
    (hlocks : ∀ k, k ≠ file.key → locks.get? k = ll.locks.get? k)
    (husers : ∀ k, locks.users k = ll.locks.users k) :
    ll.Spares file.key w ⟨(c.run g ll.toLoader w).2.1, locks⟩ (c.run g ll.toLoader w).2.2 := by
  have hsame : w.store.Direct w.files ∧ Store.Apart file.key w.store w.files w.store w.files :=
    ⟨direct, .refl _ _ _⟩
  have hcame := c.came g ll.toLoader w
  generalize c.run g ll.toLoader w = r at hcame ⊢
  generalize c.built? g ll.toLoader w = b at hcame
  -- a tree that was kept changes memory only, and one that is built the store too
  cases hcame with
  | nothing | remembered =>
      exact ⟨rfl, fun _ _ => rfl, hlocks, husers, fun _ _ => rfl, hsame.2, direct⟩
  | kept hfile' =>
      cases hfile.symm.trans hfile'
      exact spares_remember rfl hsame hlocks husers _
  | built hfile' =>
      cases hfile.symm.trans hfile'
      exact spares_remember (w.shelf_keep _ _) (w.keep_spec direct _ _) hlocks husers _

/-- What is built stands in the store that takes it. -/
theorem bytes?_run_of_built? (direct : w.store.Direct w.files)
    (hbuilt : c.built? g l w = some (file, t)) {kept : Store × FileSystem} (hnull : w.store ≠ .null)
    (hput : w.store.put w.files file.key (t.encode file.fingerprint) = .ok kept) :
    (c.run g l w).2.2.store.bytes? (c.run g l w).2.2.files file.key =
      some (t.encode file.fingerprint) := by
  have hkeep : w.keep file.key (t.encode file.fingerprint) =
      { w with store := kept.1, files := kept.2 } := by
    rw [Workspace.keep, hput]
  obtain ⟨-, -, hbytes⟩ := Store.put_spec direct hput
  rw [run_of_built? hbuilt, hkeep]
  exact hbytes hnull

/-- What is built is fresh if the store gives it out. -/
theorem persisted_of_bytes? (size : t.size ≤ Nat.pow 2 32) (hmade : c.made? g file = some (.ok t))
    (hbytes : w.store.bytes? w.files file.key = some (t.encode file.fingerprint))
    (hget : ∀ e, w.store.get w.files file.key ≠ .error e) : w.persisted file = .fresh t := by
  cases hfound : w.store.get w.files file.key with
  | error e => exact absurd hfound (hget e)
  | ok found =>
      rw [Store.bytes?_of_get hfound] at hbytes
      unfold Workspace.persisted
      rw [hfound, hbytes]
      dsimp only
      rw [decode_encode_of_made? hmade size]
      dsimp only
      rw [if_pos rfl]

/-- A call ends in one of these ways, and leaves no more than this. -/
theorem leaves (g : Grammar) (direct : w.store.Direct w.files) (ll : LockingLoader) (c : TreeCall) :
    c.Leaves g ll w (c.runLocking g ll w) := by
  obtain ⟨locks, hrun, hlocks⟩ := runLocking_eq g ll w c
  rw [hrun]
  -- one exit after another, in the order of the fields
  constructor
  case noFile =>
    intro e he
    rcases hlocks with rfl | ⟨file, hfile, -⟩
    · rw [run_of_no_file he]
    · cases he.symm.trans hfile
  case unanswered =>
    intro h
    obtain ⟨hloader, hworkspace⟩ := Prod.mk.inj (run_of_unanswered h)
    refine ⟨hloader, hworkspace, fun p => ?_⟩
    dsimp only
    rw [hloader, hworkspace]
  case spares =>
    intro file hfile
    rcases hlocks with rfl | ⟨file', hfile', rfl⟩
    · exact spares_run direct hfile (fun _ _ => rfl) fun _ => rfl
    · cases hfile.symm.trans hfile'
      exact spares_run direct hfile
        (fun k hk => (Table.get?_insert ll.locks file.key _ k).trans (if_neg hk))
        (ll.locks.users_insert_users file.key)
  case remembers => exact fun n hn => memory_run hn
  case known =>
    intro file n hfile hn
    rw [run_of_remembered hfile hn]
    exact ⟨rfl, rfl, rfl⟩
  case fetched =>
    intro file t hfile hforgot ht
    rw [run_of_fresh hfile hforgot ht]
    exact ⟨_, rfl, Shelf.tree?_add w.shelf t, rfl, rfl⟩
  case failed =>
    intro file e hfile hforgot hlost he
    rw [run_of_failed hfile hforgot hlost he]
  case built =>
    intro file t hbuilt
    rw [run_of_built? hbuilt]
    exact ⟨_, rfl, Shelf.tree?_add _ t⟩
  case kept =>
    intro file t kept hbuilt hnull hput
    have hbytes := bytes?_run_of_built? direct hbuilt hnull hput
    exact ⟨hbytes, fun size hget =>
      persisted_of_bytes? size (made?_of_built? hbuilt).2 hbytes hget⟩
  case refused =>
    intro file t e hbuilt hput
    have hkeep : w.keep file.key (t.encode file.fingerprint) = w := by
      rw [Workspace.keep, hput]
    rw [run_of_built? hbuilt, hkeep]
    exact ⟨rfl, rfl⟩

end TreeCall

/-! ### Forgetting a file

The store goes first and may refuse; memory and lock are given up in either case. To do it twice is
to do it once, as long as the path still has its key after the file has gone. -/

namespace Workspace

variable {w : Workspace}

/-- A store refuses to drop a key, or it does. -/
theorem drop_cases (w : Workspace) (key : String) :
    (∃ e, w.store.remove w.files key = .error e ∧ w.drop key = (.error e, w)) ∨
      ∃ s fs, w.store.remove w.files key = .ok (s, fs) ∧
        w.drop key = (.ok (), { w with store := s, files := fs }) := by
  unfold drop
  cases w.store.remove w.files key with
  | error e => exact .inl ⟨e, rfl, rfl⟩
  | ok kept => exact .inr ⟨kept.1, kept.2, rfl, rfl⟩

/-- To drop a key again changes nothing more. -/
theorem drop_again (direct : w.store.Direct w.files) (key : String) :
    (w.drop key).2.drop key = w.drop key := by
  rcases w.drop_cases key with ⟨e, -, hdrop⟩ | ⟨s, fs, hremove, hdrop⟩
  · rw [hdrop, hdrop]
  · rw [hdrop, drop]
    dsimp only
    rw [Store.remove_again direct hremove]

/-- When a key is dropped, a path keeps its own key, unless the name of the file that goes is a part
of it. -/
theorem key_drop (direct : w.store.Direct w.files) {key : String} {p : Path}
    (hp : ∀ dir, w.store = .disk dir → Store.fileName key ∉ w.files.keyLocation p) :
    (w.drop key).2.files.key p = w.files.key p := by
  rcases w.drop_cases key with ⟨e, -, hdrop⟩ | ⟨s, fs, hremove, hdrop⟩
  · rw [hdrop]
  · rw [hdrop]
    exact Store.key_of_remove direct hremove hp

end Workspace

namespace LockingLoader

variable {l : LockingLoader} {w : Workspace}

/-- A loader without what it knows about a key. -/
def forgotten (l : LockingLoader) (key : String) : LockingLoader :=
  ⟨{ l.toLoader with memory := l.memory.erase key }, (l.locks.take key).retire key⟩

/-- What is forgotten is forgotten once and for all. -/
theorem forgotten_forgotten (l : LockingLoader) (key : String) :
    (l.forgotten key).forgotten key = l.forgotten key := by
  unfold forgotten
  dsimp only
  rw [Table.erase_erase, Locks.retire_take_again]

/-- To forget a path is to drop its key and to forget it. -/
theorem invalidate_eq (l : LockingLoader) (w : Workspace) (p : Path) :
    l.invalidate w p =
      ((w.drop (w.files.key p)).1, l.forgotten (w.files.key p), (w.drop (w.files.key p)).2) := rfl

/-- What belongs to other keys is not forgotten, if the store spares it. -/
theorem spares_forgotten {w' : Workspace} {key : String} (hshelf : w'.shelf = w.shelf)
    (hdirect : w'.store.Direct w'.files)
    (hstore : Store.Apart key w.store w.files w'.store w'.files) :
    l.Spares key w (l.forgotten key) w' where
  filter := rfl
  memory k hk := (Table.get?_erase l.memory key k).trans (if_neg hk)
  locks k hk := by
    unfold forgotten
    rw [Locks.retire_take]
    split
    · rw [Table.get?_erase, if_neg hk]
    · rw [Table.get?_insert, if_neg hk]
  -- the number of users stays, also where the lock of a key without users goes
  users k := by
    unfold forgotten
    rw [Locks.retire_take]
    split
    · rename_i hzero
      rw [Locks.users, Table.get?_erase]
      split
      · rename_i hk
        rw [hk, hzero]
        rfl
      · rfl
    · exact l.locks.users_insert_users key k
  shelf n _ := by rw [hshelf]
  store := hstore
  direct := hdirect

/-- After a file has been forgotten nothing is left of it. -/
theorem forgets (direct : w.store.Direct w.files) (l : LockingLoader) (p : Path) :
    l.Forgets w (w.files.key p) (l.invalidate w p) := by
  generalize hkey : w.files.key p = key
  have hr : l.invalidate w p = ((w.drop key).1, l.forgotten key, (w.drop key).2) := by
    rw [invalidate_eq, hkey]
  rw [hr]
  constructor
  case memory => exact (Table.get?_erase l.memory key key).trans (if_pos rfl)
  case lock =>
    show ((l.locks.take key).retire key).get? key = _
    rw [Locks.retire_take]
    split
    · rw [Table.get?_erase, if_pos rfl]
    · rename_i hused
      rw [Table.get?_insert, if_pos rfl, Locks.get?_of_users_ne_zero hused]
  case answer =>
    rcases w.drop_cases key with ⟨e, hremove, hdrop⟩ | ⟨s, fs, hremove, hdrop⟩
    all_goals
      rw [hdrop, hremove]
      rfl
  case removed =>
    intro hok
    rcases w.drop_cases key with ⟨e, -, hdrop⟩ | ⟨s, fs, hremove, hdrop⟩
    · rw [hdrop] at hok
      cases hok
    · rw [hdrop]
      exact (Store.remove_spec direct hremove).2.2
  case refused =>
    intro e he
    rcases w.drop_cases key with ⟨e', -, hdrop⟩ | ⟨s, fs, -, hdrop⟩
    · rw [hdrop]
    · rw [hdrop] at he
      cases he
  case spares =>
    rcases w.drop_cases key with ⟨e, -, hdrop⟩ | ⟨s, fs, hremove, hdrop⟩
    · rw [hdrop]
      exact spares_forgotten rfl direct (.refl key w.store w.files)
    · rw [hdrop]
      obtain ⟨hdirect, hstore, -⟩ := Store.remove_spec direct hremove
      exact spares_forgotten rfl hdirect hstore
  case shelf => exact w.shelf_drop key
  case spelling =>
    intro q hq
    rw [invalidate_eq, hq]
  case again =>
    intro q hq hway
    dsimp only
    rw [invalidate_eq, Workspace.key_drop direct hway, hq, Workspace.drop_again direct,
      forgotten_forgotten]

end LockingLoader

/-- Calls of a loader are about one key. A call without a new answer changes nothing; one with a new
answer remembers it, keeps it if it was built, and leaves what belongs to other keys as it was.
After a file has been forgotten nothing of it is remembered, locked or kept, unless the store
refuses; then what the store says is the answer. -/
theorem calls_touch_one_key (g : Grammar) (l : LockingLoader) (w : Workspace)
    (direct : w.store.Direct w.files) :
    (∀ c : TreeCall, c.Leaves g l w (c.runLocking g l w)) ∧
      ∀ p, l.Forgets w (w.files.key p) (l.invalidate w p) :=
  ⟨TreeCall.leaves g direct l, LockingLoader.forgets direct l⟩

/-- A file is loaded with a store in a directory, which then holds its one function, and is
forgotten twice. -/
theorem calls_touch_one_key_disk :
    let g := Grammar.naming
    let w : Workspace := { store := .disk (FileSystem.pathOf []) }
    let seen : Sighting := ⟨{}, ⟨"/a.py"⟩, [97]⟩
    let r := (TreeCall.loadFile seen).runLocking g {} w
    let r' := r.2.1.invalidate r.2.2 seen.path
    w.store.Direct w.files ∧
      (∃ t n m, Loader.outline g seen.file = .ok t ∧ t.node? 1 = some m ∧ m.payload.name = "a" ∧
        r.1 = .ok (some n) ∧
        r.2.1.memory.get? "/a.py" = some ⟨seen.file.fingerprint, n⟩ ∧
        r.2.2.store.bytes? r.2.2.files "/a.py" = some (t.encode seen.file.fingerprint)) ∧
      r'.1 = .ok () ∧ r'.2.1.memory.get? "/a.py" = none ∧
      r'.2.2.store.bytes? r'.2.2.files "/a.py" = none ∧
      r'.2.1.invalidate r'.2.2 seen.path = r' := by
  intro g w seen r r'
  have hnames : ∀ fs : FileSystem, fs.keyLocation seen.path = ["a.py"] := by
    intro fs
    have hcomponents : seen.path.components = [.root, .name "a.py"] := by decide
    rw [FileSystem.keyLocation, Path.normalize, hcomponents]
    rfl
  have hkey : ∀ fs : FileSystem, fs.key seen.path = "/a.py" := by
    intro fs
    rw [FileSystem.key, hnames]
    decide
  let kept : Path := Store.fileOf (FileSystem.pathOf []) "/a.py"
  let place : Location := [Store.fileName "/a.py"]
  -- the directory of the store is the root, which every walk finds
  have haround : ∀ fs : FileSystem, fs.around kept = .ok [] := by
    intro fs
    have hname := Store.isName_fileName "/a.py"
    have hjoin : kept = FileSystem.pathOf place :=
      FileSystem.join_pathOf (List.forall_mem_nil IsName) hname
    rw [hjoin, FileSystem.around, FileSystem.isEmpty_pathOf, if_neg Bool.false_ne_true,
      FileSystem.start, FileSystem.isAbsolute_pathOf, if_pos rfl,
      FileSystem.steps_pathOf (List.forall_mem_singleton.2 hname)]
    show fs.walk false FileSystem.maxLinks [] [.here] = _
    rw [FileSystem.walk, FileSystem.walk]
  have hends := Store.endsIn_fileOf (FileSystem.pathOf []) "/a.py"
  have hplace : ∀ fs : FileSystem, fs.place? kept = .ok (some place) := by
    intro fs
    rw [hends.place?_eq, haround]
    rfl
  have direct : w.store.Direct w.files := by
    intro dir _ key d target he
    cases d <;> cases he
  obtain ⟨t, m, ht, hm, -, hname⟩ := exists_tree_naming "a.py" "a" (by decide)
  have hlisting : listingOf? g ⟨"/a.py"⟩ [97] = some (namingEntries "a.py" "a") :=
    listing_naming (by decide) (by decide) (by decide +kernel) (by decide)
  have houtline : Loader.outline g seen.file = .ok t := outline_of_listing hlisting ht
  have hmakes : (TreeCall.loadFile seen).made? g seen.file = some (.ok t) :=
    congrArg some houtline
  have hfile : seen.file.key = "/a.py" := hkey {}
  have hbuilt : (TreeCall.loadFile seen).built? g {} w = some (seen.file, t) := by
    have hread : w.files.read kept = .error .notFound := by
      rw [FileSystem.read, hends.locate_eq (direct.unlinked "/a.py"), haround]
      rfl
    have hget : w.store.get w.files "/a.py" = .ok none := by
      show (Store.disk (FileSystem.pathOf [])).get w.files "/a.py" = _
      unfold Store.get
      dsimp only
      rw [hread]
    have hpersisted : w.persisted seen.file = .missing := by
      rw [Workspace.persisted, hfile, hget]
    have hforgot : ({} : Loader).remembered? seen.file = none := by
      have hempty : ({} : Loader).memory.get? seen.file.key = none := Table.get?_empty _
      rw [Loader.remembered?, hempty]
    have hnone : ({} : Loader).readPersisted w seen.file = (none, {}, w) := by
      rw [Loader.readPersisted, hforgot, hpersisted]
    unfold TreeCall.built?
    dsimp only [TreeCall.file?]
    rw [hnone, hmakes]
  have hput : ∀ bytes, w.store.put w.files "/a.py" bytes =
      .ok (w.store, w.files.set place (.file bytes)) := by
    intro bytes
    have hreplace : w.files.replace kept bytes = .ok (w.files.set place (.file bytes)) := by
      rw [FileSystem.replace, hplace]
      rfl
    show (Store.disk (FileSystem.pathOf [])).put w.files "/a.py" bytes = _
    rw [Store.put, hreplace]
    rfl
  have hleaves : (TreeCall.loadFile seen).Leaves g {} w r :=
    (calls_touch_one_key g {} w direct).1 (.loadFile seen)
  clear_value r
  obtain ⟨n, hn, -⟩ := hleaves.built _ t hbuilt
  obtain ⟨hbytes, -⟩ := hleaves.kept _ t _ hbuilt Store.noConfusion (hfile ▸ hput _)
  obtain ⟨file, hmade, hmemory⟩ := hleaves.remembers n hn
  cases hmade
  rw [hfile] at hbytes hmemory
  have hspares := hleaves.spares _ rfl
  have hforgets := (calls_touch_one_key g r.2.1 r.2.2 hspares.direct).2 seen.path
  rw [hkey] at hforgets
  -- the store has the bytes of the tree, so there is something to drop
  have hremoved : r'.1 = .ok () := by
    have hstore : r.2.2.store = .disk (FileSystem.pathOf []) :=
      Store.eq_disk_of_bare hspares.store.bare
    obtain ⟨fs, hfs⟩ := Store.exists_remove_of_bytes? (hstore ▸ hspares.direct) (hstore ▸ hbytes)
    rw [hforgets.answer, hstore, hfs]
    rfl
  refine ⟨direct, ⟨t, n, m, houtline, hm, hname, hn, hmemory, hbytes⟩, hremoved, hforgets.memory,
    hforgets.removed hremoved, hforgets.again seen.path (hkey _) fun dir _ hname => ?_⟩
  rw [hnames, List.mem_singleton] at hname
  have hlast := Store.getLast?_fileName "/a.py"
  rw [hname] at hlast
  exact absurd hlast (by decide)

end Outline
