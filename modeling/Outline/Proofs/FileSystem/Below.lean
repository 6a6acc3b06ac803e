import Mathlib.Data.List.Nodup
import Mathlib.Data.List.Perm.Subperm
import Outline.FileSystem.Below
import Outline.Proofs.FileSystem.Plain

/-!
# Outline.Proofs.FileSystem.Below

**All files below a directory are found once.** In a plain file system nothing makes the search
fail. It finds the files that are reached through directories that may be entered (`Reaches`), each
once and in the order of their paths (`Plain.filesBelow_spec`).

The search keeps the directories around it, follows links and may fail at any of them. `below` is
what is left of it where there are no links: a recursion over names alone. The proof has three
parts: the search comes to `below` (`Plain.filesWithin_eq`), `below` has no file twice and has those
that are reached within its depth (`nodup_below`, `Plain.mem_below`), and the depth that the search
starts with is never used up (`Plain.length_le_size`).
-/

namespace Outline

/-- If no step fails, mapping is mapping what the steps come to. -/
theorem mapM_eq_ok {ε α β : Type} {f : α → Except ε β} {g : α → β} {as : List α}
    (h : ∀ a ∈ as, f a = .ok (g a)) : as.mapM f = .ok (as.map g) := by
  induction as with
  | nil => rfl
  | cons a as ih =>
      rw [List.mapM_cons, h a List.mem_cons_self, ih fun b hb => h b (List.mem_cons_of_mem a hb)]
      rfl

theorem Table.isSome_get?_iff {α β : Type} [DecidableEq α] {t : Table α β} {k : α} :
    (t.get? k).isSome ↔ k ∈ t.entries.map (·.1) := by
  rw [Table.get?, Option.isSome_map, List.find?_isSome, List.mem_map]
  simp only [decide_eq_true_eq]

namespace FileSystem

variable {fs : FileSystem} {enters : String → Bool} {l m : Location} {n : String}

/-! ### The names in a directory

A table has no key twice, but the names in a directory are not its keys: they are the last names of
the keys that begin with the location of the directory, and they are sorted. So membership and
distinctness are shown of the names before they are sorted (`namesAt_perm`). -/

/-- Apart from their order, the names are the last names of the locations one below. -/
theorem namesAt_perm (fs : FileSystem) (l : Location) :
    (fs.namesAt l).Perm ((fs.entries.entries.map (·.1)).filterMap fun k =>
      if k.dropLast = l then k.getLast? else none) := by
  rw [List.filterMap_map]
  exact List.mergeSort_perm _ _

theorem mem_namesAt : n ∈ fs.namesAt l ↔ (fs.entry? (l ++ [n])).isSome := by
  rw [(fs.namesAt_perm l).mem_iff, entry?_append, Table.isSome_get?_iff, List.mem_filterMap]
  constructor
  · rintro ⟨k, hk, hn⟩
    split at hn
    · rename_i hl
      obtain ⟨d, rfl⟩ := List.getLast?_eq_some_iff.1 hn
      rw [List.dropLast_concat] at hl
      exact hl ▸ hk
    · cases hn
  · exact fun hk => ⟨l ++ [n], hk, by rw [List.dropLast_concat, if_pos rfl, List.getLast?_concat]⟩

/-- Two locations one below a directory differ, so they differ in the last name. -/
theorem nodup_namesAt (fs : FileSystem) (l : Location) : (fs.namesAt l).Nodup := by
  rw [(fs.namesAt_perm l).nodup_iff]
  refine List.Nodup.filterMap (fun k k' n hk hk' => ?_) fs.entries.nodup_keys
  simp only [Option.mem_def] at hk hk'
  split at hk
  · rename_i hl
    split at hk'
    · rename_i hl'
      obtain ⟨d, rfl⟩ := List.getLast?_eq_some_iff.1 hk
      obtain ⟨d', rfl⟩ := List.getLast?_eq_some_iff.1 hk'
      rw [List.dropLast_concat] at hl hl'
      rw [hl, hl']
    · cases hk'
  · cases hk

/-! ### What a search finds

`Reaches` says which files are meant, without any order or bound; `below` says how they come up. The
recursion of `below` is on the depth, since nothing else in it gets smaller. -/

/-- A file is reached from a directory through directories that may be entered. -/
def Reaches (fs : FileSystem) (enters : String → Bool) (l m : Location) : Prop :=
  ∃ names n, m = l ++ names ++ [n] ∧ (∀ d ∈ names, enters d = true) ∧
    ∃ c, fs.entry? m = some (.file c)

/-- The files that a search finds that enters no more than `depth` directories one in another. -/
def below (fs : FileSystem) (enters : String → Bool) : Nat → Location → List Location
  | 0, _ => []
  | depth + 1, l => (fs.namesAt l).flatMap fun n =>
    if fs.isDirAt (l ++ [n]) then if enters n then below fs enters depth (l ++ [n]) else []
    else [l ++ [n]]

/-- What is found is below the directory, and the next name tells in which part of it. -/
theorem prefix_of_mem_below {depth : Nat} (h : m ∈ fs.below enters depth l) :
    ∃ n rest, m = l ++ n :: rest := by
  induction depth generalizing l with
  | zero => cases h
  | succ depth ih =>
      obtain ⟨n, -, h⟩ := List.mem_flatMap.1 h
      split at h
      · split at h
        · obtain ⟨k, rest, rfl⟩ := ih h
          exact ⟨n, k :: rest, by rw [List.append_assoc, List.singleton_append]⟩
        · cases h
      · rw [List.mem_singleton.1 h]
        exact ⟨n, [], rfl⟩

/-- No file is found twice: what is found under different names is different. -/
theorem nodup_below (fs : FileSystem) (enters : String → Bool) (depth : Nat) (l : Location) :
    (fs.below enters depth l).Nodup := by
  induction depth generalizing l with
  | zero => exact List.nodup_nil
  | succ depth ih =>
      -- A file that was found under a name has this name in its location. So files under different
      -- names are different, and `ih` is needed for one name only.
      have hunder : ∀ n m, m ∈ (if fs.isDirAt (l ++ [n]) then
          if enters n then fs.below enters depth (l ++ [n]) else [] else [l ++ [n]]) →
          ∃ rest, m = l ++ n :: rest := by
        intro n m hm
        split at hm
        · split at hm
          · obtain ⟨k, rest, rfl⟩ := prefix_of_mem_below hm
            exact ⟨k :: rest, by rw [List.append_assoc, List.singleton_append]⟩
          · cases hm
        · exact ⟨[], List.mem_singleton.1 hm⟩
      refine List.pairwise_flatMap.2 ⟨fun n _ => ?_, (fs.nodup_namesAt l).imp ?_⟩
      · split
        · split
          · exact ih _
          · exact List.nodup_nil
        · exact List.pairwise_singleton _ _
      · rintro n k hnk x hx y hy rfl
        obtain ⟨rest, rfl⟩ := hunder n x hx
        obtain ⟨rest', heq⟩ := hunder k _ hy
        exact hnk (List.cons.inj (List.append_cancel_left heq)).1

namespace Plain

/-- A file is found if it is reached, and not too deep. -/
theorem mem_below (h : fs.Plain) {depth : Nat} : m ∈ fs.below enters depth l ↔
    ∃ names n, m = l ++ names ++ [n] ∧ names.length < depth ∧ (∀ d ∈ names, enters d = true) ∧
      ∃ c, fs.entry? m = some (.file c) := by
  induction depth generalizing l with
  | zero =>
      refine ⟨(nomatch ·), ?_⟩
      rintro ⟨names, n, -, hlt, -⟩
      exact absurd hlt (Nat.not_lt_zero _)
  | succ depth ih =>
      rw [below, List.mem_flatMap]
      constructor
      -- A name that comes up is that of a directory, and then the file is found below it; or it is
      -- that of a file. There are no links that it could be the name of.
      · rintro ⟨n, hn, hm⟩
        rw [mem_namesAt] at hn
        split at hm
        · split at hm
          · rename_i henters
            obtain ⟨names, k, rfl, hlt, hall, hfile⟩ := ih.1 hm
            refine ⟨n :: names, k, by simp, Nat.succ_lt_succ hlt, ?_, hfile⟩
            exact List.forall_mem_cons.2 ⟨henters, hall⟩
          · cases hm
        · rename_i hfile
          obtain rfl := List.mem_singleton.1 hm
          refine ⟨[], n, by simp, Nat.succ_pos depth, fun d hd => absurd hd List.not_mem_nil, ?_⟩
          obtain ⟨e, he⟩ := Option.isSome_iff_exists.1 hn
          cases e with
          | file c => exact ⟨c, he⟩
          | directory => exact absurd (isDirAt_iff.2 he) hfile
          | link target => exact absurd he (h.noLinks _ target)
      -- The other way round, the first name on the way to the file decides: there is none, and the
      -- file stands in the directory itself; or it is a directory, since a plain file system has
      -- all directories around what it has.
      · rintro ⟨names, n, rfl, hlt, hall, c, hc⟩
        cases names with
        | nil =>
            rw [List.append_nil] at hc ⊢
            refine ⟨n, mem_namesAt.2 (by rw [hc]; rfl), ?_⟩
            rw [if_neg]
            · exact List.mem_singleton_self _
            · intro hdir
              rw [isDirAt_iff.1 hdir] at hc
              cases hc
        | cons d names =>
            obtain ⟨hd, hall⟩ := List.forall_mem_cons.1 hall
            have hsplit : l ++ d :: names ++ [n] = (l ++ [d]) ++ (names ++ [n]) := by simp
            have hdir : fs.isDirAt (l ++ [d]) = true :=
              h.isDirAt_of_append (append_singleton_ne_nil names n)
                (by rw [← hsplit, hc]; rfl)
            refine ⟨d, mem_namesAt.2 (isSome_of_isDirAt hdir), ?_⟩
            rw [if_pos hdir, if_pos hd]
            refine ih.2 ⟨names, n, by simp, Nat.lt_of_succ_lt_succ hlt, hall, c, hc⟩

/-- A search through plain files meets no fault. The directories around it are kept only to tell
whether a link leads back to one of them, so without links it does not matter which they are. -/
theorem filesWithin_eq (h : fs.Plain) {depth : Nat} {around : List (Location × Path)}
    (hl : fs.isDirAt l = true) :
    fs.filesWithin enters depth ((l, pathOf l) :: around) =
      .ok ((fs.below enters depth l).map pathOf) := by
  induction depth generalizing l around with
  | zero => rfl
  | succ depth ih =>
      have hlocation := h.names l (isSome_of_isDirAt hl)
      rw [filesWithin, below, List.map_flatMap]
      -- For each name the search comes to the same files as `below`, with their paths.
      rw [mapM_eq_ok (g := fun n => (if fs.isDirAt (l ++ [n]) then
        if enters n then fs.below enters depth (l ++ [n]) else [] else [l ++ [n]]).map pathOf)]
      · rfl
      · intro n hn
        rw [mem_namesAt] at hn
        have hname : IsName n := h.names _ hn n (List.mem_append_right l List.mem_cons_self)
        have hwalk : fs.walk false maxLinks l [.name n] = .ok (l ++ [n]) := h.walk_names hn
        have hlink : fs.isLinkAt (l ++ [n]) = false := by
          unfold isLinkAt
          split
          · rename_i target htarget
            exact absurd htarget (h.noLinks _ target)
          · rfl
        -- With what is known of the name, only the two questions of `below` are left: is it a
        -- directory, and may it be entered?
        rw [hwalk, join_pathOf hlocation hname, hlink]
        show (if fs.isDirAt (l ++ [n]) then if enters n then fs.filesWithin enters depth
          ((l ++ [n], pathOf (l ++ [n])) :: (l, pathOf l) :: around) else pure [] else
            pure [pathOf (l ++ [n])]) = _
        by_cases hdir : fs.isDirAt (l ++ [n]) = true
        · rw [if_pos hdir, if_pos hdir]
          by_cases henters : enters n = true
          · rw [if_pos henters, if_pos henters]
            exact ih hdir
          · rw [if_neg henters, if_neg henters]
            rfl
        · rw [if_neg hdir, if_neg hdir]
          rfl

/-- What is there is no deeper than there are entries, for each directory around it is one. -/
theorem length_le_size (h : fs.Plain) (hl : (fs.entry? l).isSome) :
    l.length ≤ fs.entries.size := by
  -- The locations on the way to `l` are all different, as their lengths are.
  let prefixes := (List.range l.length).map fun i => l.take (i + 1)
  have hnodup : prefixes.Nodup := by
    refine List.Nodup.map_on (fun i hi j hj hij => ?_) List.nodup_range
    have hlength := congrArg List.length hij
    rw [List.mem_range] at hi hj
    rw [List.length_take, List.length_take] at hlength
    omega
  -- Each of them is `l` itself or a directory around it, and so a key of the table.
  have hthere : prefixes ⊆ fs.entries.entries.map (·.1) := by
    intro k hk
    obtain ⟨i, hi, rfl⟩ := List.mem_map.1 hk
    rw [List.mem_range] at hi
    have hsome : (fs.entry? (l.take (i + 1))).isSome := by
      by_cases hall : l.drop (i + 1) = []
      · rw [List.take_of_length_le (List.drop_eq_nil_iff.1 hall)]
        exact hl
      · refine isSome_of_isDirAt (h.isDirAt_of_append hall ?_)
        rw [List.take_append_drop]
        exact hl
    rw [← Table.isSome_get?_iff]
    rw [List.take_succ_eq_append_getElem hi] at hsome ⊢
    rwa [entry?_append] at hsome
  have hle := (hnodup.subperm hthere).length_le
  rw [List.length_map, List.length_map, List.length_range] at hle
  exact hle

/-- All files that are reached are found, each once. They come in the order of their paths, and
sorting changes neither what is found nor how often. -/
theorem filesBelow_spec (h : fs.Plain) (enters : String → Bool) (hl : fs.isDirAt l = true) :
    ∃ found : List Location, fs.filesBelow enters (pathOf l) = .ok (found.map pathOf) ∧
      found.Nodup ∧ ∀ m, m ∈ found ↔ fs.Reaches enters l m := by
  let depth := (fs.entries.size + 1) * (fs.entries.size + 1)
  let found := (fs.below enters depth l).mergeSort fun a b => ((pathOf a).compare (pathOf b)).isLE
  have hperm : found.Perm (fs.below enters depth l) := List.mergeSort_perm _ _
  refine ⟨found, ?_, hperm.nodup_iff.2 (fs.nodup_below enters depth l), fun m => ?_⟩
  · rw [filesBelow, h.locate_pathOf (isSome_of_isDirAt hl)]
    show (fs.filesWithin enters depth [(l, pathOf l)] >>= fun found =>
      pure (found.mergeSort fun a b => (a.compare b).isLE)) = _
    rw [h.filesWithin_eq hl]
    exact congrArg Except.ok (List.map_mergeSort (f := pathOf) fun _ _ _ _ => rfl).symm
  · rw [hperm.mem_iff, h.mem_below]
    constructor
    · rintro ⟨names, n, hm, -, hall, hfile⟩
      exact ⟨names, n, hm, hall, hfile⟩
    · rintro ⟨names, n, hm, hall, c, hc⟩
      refine ⟨names, n, hm, ?_, hall, c, hc⟩
      -- The directories that were entered are entries, and so is the file.
      have hlength := h.length_le_size (l := m) (by rw [hc]; rfl)
      rw [hm, List.length_append, List.length_append, List.length_singleton] at hlength
      have hsquare : fs.entries.size + 1 ≤ depth := Nat.le_mul_self _
      omega

end Plain

end FileSystem

end Outline
