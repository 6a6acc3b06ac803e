import Outline.FileSystem.Key

/-!
# Outline.Proofs.FileSystem.Key

**The key of a file ends in its name.** Steps and links in front of the name may change what stands
before it in the key, but the name is never resolved; and since a name holds no slash, it can be
read off the key. So files with one key have one name, whatever the file system was when the keys
were made.
-/

namespace Outline

/-! ### Names hold no slash

### Names hold no slash

A path is cut at its slashes, and each component is one of the pieces. -/

namespace Path

theorem slash_notMem_pieces {cs piece : List Char} (h : piece ∈ pieces cs) : '/' ∉ piece := by
  induction cs generalizing piece with
  | nil =>
      rw [List.mem_singleton.1 h]
      exact List.not_mem_nil
  | cons c cs ih =>
      rw [pieces] at h
      split at h
      · rcases List.mem_cons.1 h with rfl | h
        · exact List.not_mem_nil
        · exact ih h
      · rename_i hc
        split at h
        · rename_i q qs hqs
          rcases List.mem_cons.1 h with rfl | h
          · rw [List.mem_cons, not_or]
            exact ⟨fun heq => hc heq.symm, ih (hqs ▸ List.mem_cons_self)⟩
          · exact ih (hqs ▸ List.mem_cons_of_mem _ h)
        · rw [List.mem_singleton.1 h, List.mem_singleton]
          exact fun heq => hc heq.symm

theorem slash_notMem_component {cs : List Char} {n : String}
    (h : .name n ∈ (pieces cs).filterMap component?) : '/' ∉ n.toList := by
  obtain ⟨piece, hpiece, hname⟩ := List.mem_filterMap.1 h
  unfold component? at hname
  split at hname
  · cases hname
  · split at hname
    · cases hname
    · cases hname
      rw [String.toList_ofList]
      exact slash_notMem_pieces hpiece

/-- A path has a name if its last component is one. -/
theorem components_of_fileName? {p : Path} {n : String} (h : p.fileName? = some n) :
    ∃ cs, p.components = cs ++ [.name n] := by
  unfold fileName? at h
  split at h
  · rename_i s hlast
    cases h
    exact List.getLast?_eq_some_iff.1 hlast
  · cases h

theorem slash_notMem_fileName {p : Path} {n : String} (h : p.fileName? = some n) :
    '/' ∉ n.toList := by
  obtain ⟨cs, hcs⟩ := components_of_fileName? h
  have hmem : .name n ∈ p.components := by
    rw [hcs]
    exact List.mem_append_right _ List.mem_cons_self
  unfold components at hmem
  dsimp only at hmem
  split at hmem
  · rcases List.mem_cons.1 hmem with heq | hmem
    · cases heq
    · exact slash_notMem_component hmem
  · split at hmem
    · rcases List.mem_cons.1 hmem with heq | hmem
      · cases heq
      · exact slash_notMem_component hmem
    · exact slash_notMem_component hmem

end Path

/-! ### The name at the end of a key

### The name at the end of a key

A normal form is made by following the components from left to right; the last one is a name, so it
is put at the end and nothing comes after it that could take it away. Of the location that is made
of the normal form, links are resolved in what stands above the name only. -/

/-- What stands behind the last separator is determined by the whole. -/
theorem eq_of_append_cons {α : Type} {s : α} {a b n m : List α} (hn : s ∉ n) (hm : s ∉ m)
    (h : a ++ s :: n = b ++ s :: m) : n = m := by
  -- If one of the fronts were longer, its separator would stand inside the other rest.
  rcases List.append_eq_append_iff.1 h with ⟨c, -, hc⟩ | ⟨c, -, hc⟩
  · cases c with
    | nil => exact (List.cons.inj hc).2
    | cons x c =>
        refine absurd ?_ hn
        rw [(List.cons.inj hc).2]
        exact List.mem_append_right _ List.mem_cons_self
  · cases c with
    | nil => exact (List.cons.inj hc).2.symm
    | cons x c =>
        refine absurd ?_ hm
        rw [(List.cons.inj hc).2]
        exact List.mem_append_right _ List.mem_cons_self

namespace FileSystem

/-- The name of a file is the last one in its normal form. -/
theorem normalize_of_fileName? {p : Path} {n : String} (base : List String)
    (h : p.fileName? = some n) : ∃ above, p.normalize base = above ++ [n] := by
  obtain ⟨cs, hcs⟩ := Path.components_of_fileName? h
  refine ⟨cs.foldl Component.follow base, ?_⟩
  rw [Path.normalize, hcs, List.foldl_append]
  rfl

/-- The name of a file is the last one in the location of its key. -/
theorem keyLocation_of_fileName? {p : Path} {n : String} (fs : FileSystem)
    (h : p.fileName? = some n) : ∃ above, fs.keyLocation p = above ++ [n] := by
  obtain ⟨above, habove⟩ := normalize_of_fileName? fs.current h
  rw [keyLocation, habove, List.reverse_append]
  exact ⟨_, rfl⟩

theorem key_of_fileName? {p : Path} {n : String} (fs : FileSystem) (h : p.fileName? = some n) :
    ∃ above, (fs.key p).toList = above ++ '/' :: n.toList := by
  obtain ⟨above, habove⟩ := fs.keyLocation_of_fileName? h
  rw [key, habove, pathOf, Path.ofNames]
  by_cases hnil : above = []
  · refine ⟨[], ?_⟩
    rw [hnil, List.nil_append, String.intercalate_singleton, String.toList_append]
    rfl
  · refine ⟨'/' :: ("/".intercalate above).toList, ?_⟩
    rw [String.intercalate_append_of_ne_nil hnil (List.cons_ne_nil _ _),
      String.intercalate_singleton, String.toList_append, String.toList_append,
      String.toList_append, List.append_assoc]
    rfl

/-- Files with one key have one name. -/
theorem fileName?_eq_of_key_eq {fs fs' : FileSystem} {p q : Path} {n m : String}
    (hp : p.fileName? = some n) (hq : q.fileName? = some m) (h : fs.key p = fs'.key q) : n = m := by
  obtain ⟨a, ha⟩ := fs.key_of_fileName? hp
  obtain ⟨b, hb⟩ := fs'.key_of_fileName? hq
  rw [h, hb] at ha
  exact String.toList_inj.1 (eq_of_append_cons (Path.slash_notMem_fileName hp)
    (Path.slash_notMem_fileName hq) ha.symm)

end FileSystem

end Outline
