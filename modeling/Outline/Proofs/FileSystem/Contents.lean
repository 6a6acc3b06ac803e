import Outline.FileSystem.Basic

/-!
# Outline.Proofs.FileSystem.Contents

**Where contents come from.** What is read from a file system is the content of one of its files,
and an operation brings in no content but the one that it is given. For a file in the root it is
told outright what writing and reading do (`write_root`, `read_root`).

What is shown here is enough where it matters only which contents there can be. Where they stand,
and what links do on the way, is the matter of the modules on walks.
-/

namespace Outline

/-- A sequence succeeds if both its parts do. -/
theorem exists_of_bind_ok {ε α β : Type} {x : Except ε α} {f : α → Except ε β} {b : β}
    (h : x >>= f = .ok b) : ∃ a, x = .ok a ∧ f a = .ok b := by
  cases x with
  | error e => cases h
  | ok a => exact ⟨a, rfl, h⟩

namespace FileSystem

/-- Some file has this content. -/
def Holds (fs : FileSystem) (content : List UInt8) : Prop :=
  ∃ l, fs.entries.get? l = some (.file content)

variable {fs fs' : FileSystem} {p : Path} {content c : List UInt8}

/-- What is read is the content of the file to which the path leads. -/
theorem read_eq_ok_iff :
    fs.read p = .ok c ↔ ∃ m, fs.locate p = .ok m ∧ fs.entry? m = some (.file c) := by
  constructor
  · intro h
    obtain ⟨m, hm, h⟩ := exists_of_bind_ok h
    refine ⟨m, hm, ?_⟩
    split at h
    · rename_i he
      cases h
      exact he
    · cases h
    · cases h
  · rintro ⟨m, hm, he⟩
    rw [read, hm]
    dsimp only [bind, Except.bind]
    rw [he]
    rfl

/-- What is read is held by some file. -/
theorem holds_of_read (h : fs.read p = .ok content) : fs.Holds content := by
  obtain ⟨l, -, hentry⟩ := read_eq_ok_iff.1 h
  unfold entry? at hentry
  split at hentry
  · cases hentry
  · exact ⟨l, hentry⟩

/-- To write is to set an entry, wherever the path leads, -/
theorem exists_of_write (h : fs.write p content = .ok fs') :
    ∃ l, fs' = fs.set l (.file content) := by
  unfold write at h
  split at h
  · cases h
  · obtain ⟨l, -, h⟩ := exists_of_bind_ok h
    -- a directory cannot be written to, so it is a file or nothing that is replaced
    by_cases hdir : fs.isDirAt l = true
    · dsimp only at h
      rw [if_pos hdir] at h
      cases h
    · dsimp only at h
      rw [if_neg hdir] at h
      cases h
      exact ⟨l, rfl⟩

/-- and to remove is to erase one. -/
theorem exists_of_remove (h : fs.remove p = .ok fs') :
    ∃ l, fs' = { fs with entries := fs.entries.erase l } := by
  obtain ⟨place, -, h⟩ := exists_of_bind_ok h
  cases place with
  | none => cases h
  | some l =>
      dsimp only at h
      split at h
      · cases h
      · cases h
      · split at h
        · cases h
        · cases h
          exact ⟨l, rfl⟩

/-- Writing brings in the content that is written. -/
theorem holds_of_write (h : fs.write p content = .ok fs') (hc : fs'.Holds c) :
    c = content ∨ fs.Holds c := by
  obtain ⟨l, rfl⟩ := exists_of_write h
  obtain ⟨k, hk⟩ := hc
  rw [show (fs.set l (.file content)).entries = fs.entries.insert l (.file content) from rfl,
    Table.get?_insert] at hk
  split at hk
  · cases hk
    exact .inl rfl
  · exact .inr ⟨k, hk⟩

/-- Removing brings in nothing. -/
theorem holds_of_remove (h : fs.remove p = .ok fs') (hc : fs'.Holds c) : fs.Holds c := by
  obtain ⟨l, rfl⟩ := exists_of_remove h
  obtain ⟨k, hk⟩ := hc
  dsimp only at hk
  rw [Table.get?_erase] at hk
  split at hk
  · cases hk
  · exact ⟨k, hk⟩

/-! ### Files in the root

The walk to a name in the root is one step, so it can be computed. It is enough for examples, which
need a file system with a file in it and no more. -/

section

variable {n : String} (habsolute : p.isAbsolute = true) (hsteps : allSteps p = [.name n])
include habsolute hsteps

/-- The walk to a file in the root, also if the last name need not be there. -/
theorem walk_root (creating : Bool) (h : fs.entry? [n] = some (.file c)) :
    fs.walk creating maxLinks (fs.start p) (allSteps p) = .ok [n] := by
  rw [hsteps, start, if_pos habsolute, walk, List.nil_append, h]
  rfl

omit hsteps in
/-- A path from the root is no empty text. -/
theorem isEmpty_of_isAbsolute : p.text.isEmpty = false := by
  rw [Bool.eq_false_iff]
  intro hempty
  rw [Path.isAbsolute, String.isEmpty_iff.1 hempty] at habsolute
  cases habsolute

/-- Writing makes the file, or gives the one that is there other content. -/
theorem write_root (h : ∀ e, fs.entry? [n] = some e → ∃ c, e = .file c) :
    fs.write p content = .ok (fs.set [n] (.file content)) := by
  have hwalk : fs.walk true maxLinks (fs.start p) (allSteps p) = .ok [n] := by
    cases he : fs.entry? [n] with
    | none =>
        rw [hsteps, start, if_pos habsolute, walk, List.nil_append, he]
        rfl
    | some e =>
        obtain ⟨c, rfl⟩ := h e he
        exact walk_root habsolute hsteps true he
  have hdir : fs.isDirAt [n] = false := by
    rw [isDirAt, beq_eq_false_iff_ne]
    intro he
    obtain ⟨c, hc⟩ := h _ he
    cases hc
  rw [write, isEmpty_of_isAbsolute habsolute, hwalk]
  show (if fs.isDirAt [n] = true then _ else _) = _
  rw [hdir]
  rfl

/-- Reading gives the content of the file. -/
theorem read_root (h : fs.entry? [n] = some (.file c)) : fs.read p = .ok c := by
  refine read_eq_ok_iff.2 ⟨[n], ?_, h⟩
  rw [locate, isEmpty_of_isAbsolute habsolute, if_neg Bool.false_ne_true]
  exact walk_root habsolute hsteps false h

end

end FileSystem

end Outline
