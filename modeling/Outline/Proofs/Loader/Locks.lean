import Outline.Loader.Locks
import Outline.Proofs.Loader.Calls

/-!
# Outline.Proofs.Loader.Locks

**Locks do not show.** A call with locks does what it does without (`TreeCall.runLocking_eq`). A
lock that is taken and released is as it was, but that it stands in the table afterwards
(`Locks.release_take`); one that is taken and retired is gone, unless others use it
(`Locks.retire_take`).
-/

namespace Outline

/-! ### Locks -/

namespace Locks

variable (ls : Locks) (key : String)

theorem users_insert (n : Nat) (k : String) :
    users (ls.insert key n) k = if k = key then n else ls.users k := by
  rw [users, Table.get?_insert]
  split <;> rfl

theorem users_insert_users (k : String) :
    users (ls.insert key (ls.users key)) k = ls.users k := by
  rw [users_insert]
  split
  · rename_i hk
    rw [hk]
  · rfl

/-- A lock that was taken and released stays in the table, and nobody else notices. -/
theorem release_take : (ls.take key).release key = ls.insert key (ls.users key) := by
  rw [release, take, users_insert, if_pos rfl, Table.insert_insert, Nat.add_sub_cancel]

/-- A lock that was taken and retired is gone, unless others use it. -/
theorem retire_take : (ls.take key).retire key =
    if ls.users key = 0 then ls.erase key else ls.insert key (ls.users key) := by
  have husers : (ls.take key).users key = 1 ↔ ls.users key = 0 := by
    rw [take, users_insert, if_pos rfl]
    exact Nat.succ_inj
  rw [retire, ← release_take]
  by_cases h : ls.users key = 0
  · rw [if_pos (husers.2 h), if_pos h, take, Table.erase_insert]
  · rw [if_neg (husers.not.2 h), if_neg h]

theorem get?_of_users_ne_zero {ls : Locks} {key : String} (h : ls.users key ≠ 0) :
    ls.get? key = some (ls.users key) := by
  unfold users at h ⊢
  cases hget : ls.get? key with
  | none =>
      rw [hget] at h
      exact absurd rfl h
  | some n => rfl

/-- To take and retire a lock again changes nothing more. -/
theorem retire_take_again :
    (((ls.take key).retire key).take key).retire key = (ls.take key).retire key := by
  rw [retire_take, retire_take]
  by_cases h : ls.users key = 0
  · have husers : users (ls.erase key) key = 0 := by rw [users, Table.get?_erase, if_pos rfl]; rfl
    rw [if_pos h, if_pos husers, Table.erase_erase]
  · rw [if_neg h, users_insert_users, if_neg h, Table.insert_insert]

end Locks

namespace TreeCall

/-- What a call answers, and the loader with its locks and the workspace after it. -/
def runLocking (g : Grammar) (l : LockingLoader) (w : Workspace) :
    TreeCall → Except LoadError (Option Nat) × LockingLoader × Workspace
  | readOrBuild s entries => let r := l.readOrBuild w s.file entries; (r.1.map some, r.2)
  | loadFile s => let r := l.loadFile g w s.file; (r.1.map some, r.2)
  | load p => let r := l.load g w p; (r.1.map some, r.2)
  | readPersisted s => let r := l.readPersisted w s.file; (.ok r.1, r.2)

variable {g : Grammar} {l : LockingLoader} {w : Workspace} {c : TreeCall} {file : SourceFile}

theorem loadFile_of_remembered {l : Loader} {n : Nat} (h : l.remembered? file = some n) :
    l.loadFile g w file = (.ok n, l, w) := by
  refine l.readOr_of_found w file ?_ _
  rw [Loader.readPersisted, h]

/-- A file is loaded as without locks; at most its own lock is taken and released. -/
theorem loadFile_locking (g : Grammar) (l : LockingLoader) (w : Workspace) (file : SourceFile) :
    ∃ locks, l.loadFile g w file = ((l.toLoader.loadFile g w file).1,
        ⟨(l.toLoader.loadFile g w file).2.1, locks⟩, (l.toLoader.loadFile g w file).2.2) ∧
      (locks = l.locks ∨ locks = (l.locks.take file.key).release file.key) := by
  rw [LockingLoader.loadFile]
  split
  · rename_i n hn
    rw [loadFile_of_remembered hn]
    exact ⟨l.locks, rfl, .inl rfl⟩
  · exact ⟨_, rfl, .inr rfl⟩

/-- The locks do not show in what a call does, and after it they are as they were, but that the one
of its file has come in. -/
theorem runLocking_eq (g : Grammar) (l : LockingLoader) (w : Workspace) (c : TreeCall) :
    ∃ locks, c.runLocking g l w =
        ((c.run g l.toLoader w).1, ⟨(c.run g l.toLoader w).2.1, locks⟩,
          (c.run g l.toLoader w).2.2) ∧
      (locks = l.locks ∨ ∃ file, c.file? l.toLoader w = .ok file ∧
        locks = l.locks.insert file.key (l.locks.users file.key)) := by
  cases c with
  | readOrBuild s entries =>
      exact ⟨_, rfl, .inr ⟨s.file, rfl, l.locks.release_take s.file.key⟩⟩
  | readPersisted s => exact ⟨_, rfl, .inl rfl⟩
  | loadFile s =>
      obtain ⟨locks, heq, hlocks⟩ := loadFile_locking g l w s.file
      refine ⟨locks, ?_, hlocks.imp_right fun h => ⟨s.file, rfl, h.trans (Locks.release_take _ _)⟩⟩
      rw [runLocking, heq]
      rfl
  | load p =>
      rw [runLocking, run, LockingLoader.load, Loader.load, file?]
      split
      · cases hread : SourceFile.read w.files p with
        | ok file =>
            obtain ⟨locks, heq, hlocks⟩ := loadFile_locking g l w file
            refine ⟨locks, ?_,
              hlocks.imp_right fun h => ⟨file, rfl, h.trans (Locks.release_take _ _)⟩⟩
            dsimp only
            rw [heq]
            rfl
        | error e => exact ⟨l.locks, rfl, .inl rfl⟩
      · exact ⟨l.locks, rfl, .inl rfl⟩

end TreeCall

end Outline
