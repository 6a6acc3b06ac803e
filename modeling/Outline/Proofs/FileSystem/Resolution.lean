import Outline.Proofs.Path.Names

/-!
# Outline.Proofs.FileSystem.Resolution

**Where walks through links end.** What a walk comes to is free of links: all that is around it are
directories (`walk_standing`), so the names of its location lead to it again
(`realOf?_of_standing`). A walk passes through the ends of its first parts (`exists_of_walk_append`)
and goes on from a directory as from the start (`walk_append_of_dir`). So names have one longest
part that leads somewhere (`Splits`), and `realPrefix` is where that leads to, followed by the names
behind it (`Splits.realPrefix_eq`).
-/

namespace Outline.FileSystem

variable {fs : FileSystem} {l k m : Location} {n : String} {c : List UInt8}

/-! ### Directories

The root is no entry of the table, but it is a directory all the same. So a location is the root, or
it has a last name and is looked up. -/

@[simp] theorem entry?_nil (fs : FileSystem) : fs.entry? [] = some .directory := rfl

/-- The last name of a location is its own. -/
theorem eq_of_append_singleton {d : Location} {k : String} (h : l ++ [n] = d ++ [k]) : n = k :=
  List.singleton_inj.1 (List.append_inj' h rfl).2

theorem append_singleton_ne_nil (d : Location) (n : String) : d ++ [n] ≠ [] := by simp

/-- A location with a name in it is looked up in the table. -/
theorem entry?_append (fs : FileSystem) (l : Location) (n : String) :
    fs.entry? (l ++ [n]) = fs.entries.get? (l ++ [n]) :=
  if_neg (by rw [List.isEmpty_iff]; exact append_singleton_ne_nil l n)

theorem isDirAt_iff : fs.isDirAt l = true ↔ fs.entry? l = some .directory := beq_iff_eq

theorem isSome_of_isDirAt (h : fs.isDirAt l = true) : (fs.entry? l).isSome := by
  rw [isDirAt_iff.1 h]
  rfl

theorem isDirAt_nil (fs : FileSystem) : fs.isDirAt [] = true := isDirAt_iff.2 rfl

/-- A file has a name, for the root is a directory. -/
theorem exists_append_of_file (h : fs.entry? l = some (.file c)) : ∃ d n, l = d ++ [n] := by
  cases l using List.reverseRecOn with
  | nil => cases h
  | append_singleton d n => exact ⟨d, n, rfl⟩

/-! ### Locations free of links

A location is where something is kept, and need not be how one gets there: a link on the way leads
elsewhere. Where there are only directories on the way, it is, and such locations are what walks end
at. That is the invariant of the section on walks. -/

/-- A directory with only directories around it: no link leads there. -/
def Clean (fs : FileSystem) (l : Location) : Prop := ∀ k, k <+: l → fs.isDirAt k = true

namespace Clean

/-- Nothing is around the root. -/
theorem nil (fs : FileSystem) : fs.Clean [] := by
  intro k hk
  rw [List.prefix_nil.1 hk]
  exact fs.isDirAt_nil

theorem isDirAt (h : fs.Clean l) : fs.isDirAt l = true := h l List.prefix_rfl

/-- On the way to such a directory there are only such directories. -/
theorem of_prefix (h : fs.Clean l) (hk : k <+: l) : fs.Clean k := fun j hj => h j (hj.trans hk)

theorem dropLast (h : fs.Clean l) : fs.Clean l.dropLast := h.of_prefix l.dropLast_prefix

/-- One directory further. -/
theorem append (h : fs.Clean l) (hn : fs.isDirAt (l ++ [n]) = true) : fs.Clean (l ++ [n]) := by
  intro k hk
  -- On the way to the new one there is itself, and what is on the way to the old one.
  rcases List.prefix_concat_iff.1 hk with heq | hk
  · rwa [heq]
  · exact h k hk

/-- From name to name one comes through directories. -/
theorem walk_names {names : List String} {links : Nat} (h : fs.Clean (l ++ names))
    (rest : List Step) :
    fs.walk false links l (names.map .name ++ rest) = fs.walk false links (l ++ names) rest := by
  induction names generalizing l with
  | nil => rw [List.map_nil, List.nil_append, List.append_nil]
  | cons n names ih =>
      rw [List.append_cons] at h ⊢
      have hn : fs.isDirAt (l ++ [n]) = true := h _ (List.prefix_append _ names)
      rw [List.map_cons, List.cons_append, walk, isDirAt_iff.1 hn]
      exact ih h

end Clean

/-- Something that no link leads to: a directory, or a file in one. -/
inductive Standing (fs : FileSystem) : Location → Prop
  | directory {l : Location} (h : fs.Clean l) : Standing fs l
  | file {d : Location} {n : String} {c : List UInt8} (h : fs.Clean d)
      (he : fs.entry? (d ++ [n]) = some (.file c)) : Standing fs (d ++ [n])

/-- A walk ends at what stands. The directory that it has come to is free of links all the way: a
step up leaves it so, a directory in it is so, and a link starts over from it or from the root. -/
theorem walk_standing {creating : Bool} {links : Nat} {steps : List Step} (hl : fs.Clean l)
    (hc : creating = false) (hm : fs.walk creating links l steps = .ok m) : fs.Standing m := by
  fun_induction walk fs creating links l steps with
  | case1 =>
      cases hm
      exact .directory hl
  | case2 _ _ _ ih => exact ih hl hm
  | case3 _ _ _ ih => exact ih hl.dropLast hm
  | case4 _ _ _ _ he ih => exact ih (hl.append (isDirAt_iff.2 he)) hm
  | case5 _ _ _ _ c he =>
      cases hm
      exact .file hl he
  | case6 => cases hm
  | case7 => cases hm
  | case8 _ _ _ target _ _ ih =>
      refine ih ?_ hm
      split
      · exact .nil fs
      · exact hl
  | case9 _ _ _ _ _ hnil =>
      subst hc
      exact absurd hnil Bool.false_ne_true
  | case10 => cases hm

/-- The slash at the end of a path adds no name. -/
theorem isName_of_mem_allSteps {p : Path} (h : .name n ∈ allSteps p) : IsName n := by
  rcases List.mem_append.1 h with h | h
  · exact isName_of_mem_steps h
  · split at h <;> simp at h

/-- A walk ends at a location if it is started at one. -/
theorem walk_isLocation {creating : Bool} {links : Nat} {steps : List Step} (hl : IsLocation l)
    (hsteps : ∀ n, .name n ∈ steps → IsName n) (hm : fs.walk creating links l steps = .ok m) :
    IsLocation m := by
  -- Names of later steps are names of steps.
  have htail : ∀ {s : Step} {r : List Step}, (∀ k, .name k ∈ s :: r → IsName k) →
      ∀ k, .name k ∈ r → IsName k := fun hr k hk => hr k (List.mem_cons_of_mem _ hk)
  fun_induction walk fs creating links l steps with
  | case1 =>
      cases hm
      exact hl
  | case2 _ _ _ ih => exact ih hl (htail hsteps) hm
  | case3 _ _ _ ih => exact ih hl.dropLast (htail hsteps) hm
  | case4 _ _ _ _ _ ih =>
      exact ih (hl.append (hsteps _ List.mem_cons_self)) (htail hsteps) hm
  | case5 | case9 =>
      cases hm
      exact hl.append (hsteps _ List.mem_cons_self)
  | case6 => cases hm
  | case7 => cases hm
  | case8 _ _ _ target _ _ ih =>
      refine ih ?_ ?_ hm
      · split
        · exact .nil
        · exact hl
      · intro k hk
        rcases List.mem_append.1 hk with hk | hk
        · exact isName_of_mem_allSteps hk
        · exact htail hsteps k hk
  | case10 => cases hm

/-- A walk passes through where its first steps lead, and that is a directory: from a file no step
leads on, and what is not there does not either. -/
theorem exists_of_walk_append {creating : Bool} {links : Nat} {first rest : List Step}
    (hne : rest ≠ []) (hl : fs.Clean l)
    (hm : fs.walk creating links l (first ++ rest) = .ok m) :
    ∃ d, fs.walk false links l first = .ok d ∧ fs.Clean d := by
  have hlong : ∀ r : List Step, (r ++ rest).isEmpty = false := fun r =>
    List.isEmpty_eq_false_iff.2 (List.append_ne_nil_of_right_ne_nil r hne)
  generalize hc : false = stopping
  -- along the first steps: where they fail, so does the walk
  fun_induction walk fs stopping links l first with
  | case1 => exact ⟨_, rfl, hl⟩
  | case2 _ _ _ ih =>
      rw [List.cons_append, walk] at hm
      exact ih hl hm
  | case3 _ _ _ ih =>
      rw [List.cons_append, walk] at hm
      exact ih hl.dropLast hm
  | case4 _ _ _ _ he ih =>
      rw [List.cons_append, walk, he] at hm
      exact ih (hl.append (isDirAt_iff.2 he)) hm
  | case5 _ _ _ _ _ he | case6 _ _ _ _ _ he =>
      rw [List.cons_append, walk, he] at hm
      dsimp only at hm
      rw [hlong, if_neg Bool.false_ne_true] at hm
      cases hm
  | case7 _ _ _ _ he =>
      rw [List.cons_append, walk, he] at hm
      cases hm
  | case8 _ _ _ target he _ ih =>
      rw [List.cons_append, walk, he] at hm
      dsimp only at hm
      rw [← List.append_assoc] at hm
      refine ih ?_ hm
      split
      · exact .nil fs
      · exact hl
  | case9 _ _ _ _ _ hnil =>
      subst hc
      exact absurd hnil Bool.false_ne_true
  | case10 _ _ _ _ he =>
      rw [List.cons_append, walk, he] at hm
      dsimp only at hm
      rw [hlong, Bool.and_false, if_neg Bool.false_ne_true] at hm
      cases hm

/-- A walk to a directory goes on from there, with the links that are left. How many these are is
not said, for it depends on the way; it is the same whatever comes behind. -/
theorem walk_append_of_dir {links : Nat} {first : List Step} (hd : fs.isDirAt m = true)
    (hm : fs.walk false links l first = .ok m) :
    ∃ left, ∀ creating rest,
      fs.walk creating links l (first ++ rest) = fs.walk creating left m rest := by
  generalize hc : false = creating at hm
  fun_induction walk fs creating links l first with
  | case1 links =>
      cases hm
      exact ⟨links, fun _ _ => rfl⟩
  | case2 _ _ _ ih | case3 _ _ _ ih =>
      obtain ⟨left, h⟩ := ih hm
      refine ⟨left, fun creating rest => ?_⟩
      rw [List.cons_append, walk, h]
  | case4 _ _ _ _ he ih =>
      obtain ⟨left, h⟩ := ih hm
      refine ⟨left, fun creating rest => ?_⟩
      rw [List.cons_append, walk, he]
      exact h creating rest
  | case5 _ _ _ _ _ he =>
      cases hm
      rw [isDirAt_iff.1 hd] at he
      cases he
  | case6 => cases hm
  | case7 => cases hm
  | case8 _ _ _ target he _ ih =>
      obtain ⟨left, h⟩ := ih hm
      refine ⟨left, fun creating rest => ?_⟩
      rw [List.cons_append, walk, he]
      dsimp only
      rw [← List.append_assoc]
      exact h creating rest
  | case9 _ _ _ _ _ hnil =>
      subst hc
      exact absurd hnil Bool.false_ne_true
  | case10 => cases hm

/-- A walk that comes somewhere comes there without a step `here`. The other way round this is not
so: a file does not let even this step follow. -/
theorem walk_drop_here {links : Nat} {first rest : List Step}
    (hm : fs.walk false links l (first ++ .here :: rest) = .ok m) :
    fs.walk false links l (first ++ rest) = .ok m := by
  have hlong : ∀ r : List Step, (r ++ Step.here :: rest).isEmpty = false := fun r =>
    List.isEmpty_eq_false_iff.2 (List.append_ne_nil_of_right_ne_nil r (List.cons_ne_nil _ _))
  generalize hc : false = stopping
  fun_induction walk fs stopping links l first with
  | case1 =>
      rw [List.nil_append, walk] at hm
      subst hc
      exact hm
  | case2 _ _ _ ih | case3 _ _ _ ih =>
      rw [List.cons_append, walk] at hm ⊢
      exact ih hm
  | case4 _ _ _ _ he ih =>
      rw [List.cons_append, walk, he] at hm ⊢
      exact ih hm
  -- A file in front of it stops the walk.
  | case5 _ _ _ _ _ he | case6 _ _ _ _ _ he =>
      rw [List.cons_append, walk, he] at hm
      dsimp only at hm
      rw [hlong, if_neg Bool.false_ne_true] at hm
      cases hm
  | case7 _ _ _ _ he =>
      rw [List.cons_append, walk, he] at hm
      cases hm
  | case8 _ _ _ target he _ ih =>
      rw [List.cons_append, walk, he] at hm ⊢
      dsimp only at hm ⊢
      rw [← List.append_assoc] at hm ⊢
      exact ih hm
  | case9 _ _ _ _ _ hnil =>
      subst hc
      exact absurd hnil Bool.false_ne_true
  | case10 _ _ _ _ he =>
      rw [List.cons_append, walk, he] at hm
      cases hm

variable {names front rest : List String}

/-- Names lead where the walk along them does. -/
theorem realOf?_eq_some : fs.realOf? names = some l ↔
    fs.walk false maxLinks [] (names.map .name) = .ok l := by
  rw [realOf?]
  cases fs.walk false maxLinks [] (names.map .name) with
  | error e => exact ⟨nofun, nofun⟩
  | ok m => exact ⟨fun h => congrArg _ (Option.some.inj h), fun h => congrArg _ (Except.ok.inj h)⟩

theorem standing_of_realOf? (h : fs.realOf? names = some l) : fs.Standing l :=
  walk_standing (.nil fs) rfl (realOf?_eq_some.1 h)

/-- No names lead to the root. -/
theorem realOf?_nil (fs : FileSystem) : fs.realOf? [] = some [] :=
  realOf?_eq_some.2 (by rw [List.map_nil, walk])

/-- The names of a location that no link leads to lead to it. -/
theorem realOf?_of_standing (h : fs.Standing l) : fs.realOf? l = some l := by
  rw [realOf?_eq_some]
  cases h with
  | directory h =>
      have hwalk : fs.walk false maxLinks [] (l.map .name ++ []) = _ := Clean.walk_names h []
      rw [List.append_nil, List.nil_append, walk] at hwalk
      exact hwalk
  | @file d n c h he =>
      have hwalk : fs.walk false maxLinks [] (d.map .name ++ [.name n]) = _ :=
        Clean.walk_names h [.name n]
      rw [List.map_append, List.map_singleton, hwalk, List.nil_append, walk, he]
      rfl

/-- The path of a location leads to where its names do. -/
theorem locate_pathOf_iff (hl : IsLocation l) :
    fs.locate (pathOf l) = .ok m ↔ fs.realOf? l = some m := by
  rw [realOf?_eq_some, locate, isEmpty_pathOf, if_neg Bool.false_ne_true, start,
    isAbsolute_pathOf, if_pos rfl, allSteps, steps_pathOf hl, endsInSlash_pathOf hl]
  -- The root is the one location whose path ends in a slash, and its step stays there.
  by_cases hnil : l = []
  · subst hnil
    rw [List.map_nil, List.nil_append, decide_eq_true rfl, if_pos rfl, walk, walk, walk]
  · rw [decide_eq_false hnil, if_neg Bool.false_ne_true, List.append_nil]

/-- The path of a location that no link leads to leads to it. -/
theorem Standing.locate_pathOf (h : fs.Standing l) (hl : IsLocation l) :
    fs.locate (pathOf l) = .ok l :=
  (locate_pathOf_iff hl).2 (realOf?_of_standing h)

/-- If names lead somewhere, the first of them lead to a directory. -/
theorem exists_of_realOf?_append (hne : rest ≠ []) (h : fs.realOf? (front ++ rest) = some l) :
    ∃ d, fs.realOf? front = some d ∧ fs.Clean d := by
  rw [realOf?_eq_some, List.map_append] at h
  obtain ⟨d, hd, hclean⟩ := exists_of_walk_append (by simpa using hne) (.nil fs) h
  exact ⟨d, realOf?_eq_some.2 hd, hclean⟩

/-- The names `front` lead to `l`, but not with another of the names `rest` behind them. -/
structure Splits (fs : FileSystem) (front rest : List String) (l : Location) : Prop where
  real : fs.realOf? front = some l
  stops : ∀ n r, rest = n :: r → fs.realOf? (front ++ [n]) = none

namespace Splits

/-- Behind the longest part that leads somewhere, nothing leads anywhere. -/
theorem realOf?_eq_none (h : fs.Splits front rest l) (hne : rest ≠ []) :
    fs.realOf? (front ++ rest) = none := by
  cases rest with
  | nil => exact absurd rfl hne
  | cons n r =>
      have hn := h.stops n r rfl
      cases r with
      | nil => exact hn
      | cons k r =>
          cases hreal : fs.realOf? (front ++ n :: k :: r) with
          | none => rfl
          | some m =>
              rw [List.append_cons] at hreal
              obtain ⟨d, hd, -⟩ := exists_of_realOf?_append (List.cons_ne_nil k r) hreal
              rw [hn] at hd
              cases hd

/-- The part that leads somewhere is replaced by where it leads, and the names behind it stay. -/
theorem realPrefix_eq (h : fs.Splits front rest l) :
    fs.realPrefix (front ++ rest).reverse = l ++ rest := by
  induction rest using List.reverseRecOn with
  | nil =>
      rw [List.append_nil, List.append_nil]
      cases front using List.reverseRecOn with
      | nil =>
          have hreal := h.real
          rw [realOf?_nil] at hreal
          cases hreal
          rfl
      | append_singleton front n =>
          rw [List.reverse_append]
          show fs.realPrefix (n :: front.reverse) = l
          rw [realPrefix, List.reverse_cons, List.reverse_reverse, h.real]
  -- The last name is taken off, as nothing is there; what is left splits at the same place.
  | append_singleton rest n ih =>
      have hnone := h.realOf?_eq_none (append_singleton_ne_nil rest n)
      have hrest : fs.Splits front rest l := by
        refine ⟨h.real, fun k r heq => h.stops k (r ++ [n]) ?_⟩
        rw [heq]
        rfl
      rw [← List.append_assoc] at hnone ⊢
      rw [List.reverse_append]
      show fs.realPrefix (n :: (front ++ rest).reverse) = _
      rw [realPrefix, List.reverse_cons, List.reverse_reverse, hnone, ← List.append_assoc,
        ← ih hrest]

/-- Where the part leads is free of links. -/
theorem standing (h : fs.Splits front rest l) : fs.Standing l := standing_of_realOf? h.real

end Splits

end Outline.FileSystem
