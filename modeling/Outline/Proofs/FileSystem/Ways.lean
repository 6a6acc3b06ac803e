import Outline.FileSystem.Key
import Outline.Proofs.FileSystem.Upkeep

/-!
# Outline.Proofs.FileSystem.Ways

**Files that come and go leave all ways as they are.** A walk to a directory goes through
directories and links only, so file systems with the same directories and links (`SameWays`) have
the same walks to directories (`SameWays.walk_iff`). Under a name that no link has, a path leads to
what stands there in the directory that the path goes through (`walk_append_name`). When a file
goes, no key changes of which its name is no part (`Changes.key_eq`).

What a store does to a file system is of this kind: files of its own names come and go, and the
directories in which it has them stay. So all that is to know of a walk is whether it can end at a
file, and at which.
-/

namespace Outline.FileSystem

variable {fs fs' : FileSystem} {l m : Location} {n : String} {p : Path}
  {c : List UInt8}

/-! ### Ways to directories

The induction is along the walk itself (`fun_induction walk`), since a link puts its target in front
of the steps that are left: it is neither on the steps nor on the number of links alone. A link in
the middle of directed steps leaves directed steps. -/

/-- Directories and links are the same; files may differ. -/
structure SameWays (fs fs' : FileSystem) : Prop where
  current : fs'.current = fs.current
  dir : ∀ l, fs'.entry? l = some .directory ↔ fs.entry? l = some .directory
  link : ∀ l target, fs'.entry? l = some (.link target) ↔ fs.entry? l = some (.link target)

theorem SameWays.refl (fs : FileSystem) : fs.SameWays fs := ⟨rfl, fun _ => .rfl, fun _ _ => .rfl⟩

/-- Steps that can only lead to a directory: the last is to no name. -/
def Directed (steps : List Step) : Prop := ∀ n, steps.getLast? ≠ some (.name n)

/-- Directed steps stay so when the first is taken, -/
theorem Directed.tail {s : Step} {r : List Step} (h : Directed (s :: r)) : Directed r := by
  intro n hn
  refine h n ?_
  rw [List.getLast?_cons, hn]
  rfl

/-- are not over with a name, -/
theorem Directed.ne_nil {r : List Step} (h : Directed (.name n :: r)) : r ≠ [] := by
  rintro rfl
  exact h n rfl

/-- and may have any others put in front. -/
theorem Directed.append {r : List Step} (h : Directed r) (hne : r ≠ []) (ss : List Step) :
    Directed (ss ++ r) := by
  intro n hn
  rw [List.getLast?_append_of_ne_nil ss hne] at hn
  exact h n hn

/-- Steps that can only lead to a directory lead to one. -/
theorem isDirAt_of_directed {links : Nat} {steps : List Step} (hl : fs.Clean l)
    (hd : Directed steps) (hm : fs.walk false links l steps = .ok m) : fs.isDirAt m = true := by
  cases steps using List.reverseRecOn with
  | nil =>
      rw [walk] at hm
      cases hm
      exact hl.isDirAt
  | append_singleton init s =>
      -- up to the last step the walk is in a directory
      obtain ⟨d, hwalk, hclean⟩ := exists_of_walk_append (List.cons_ne_nil s []) hl hm
      obtain ⟨left, hwalk⟩ := walk_append_of_dir hclean.isDirAt hwalk
      rw [hwalk] at hm
      cases s with
      | here =>
          rw [walk, walk] at hm
          cases hm
          exact hclean.isDirAt
      | up =>
          rw [walk, walk] at hm
          cases hm
          exact hclean.dropLast.isDirAt
      | name n => exact absurd List.getLast?_concat (hd n)

/-- A walk ends as before if it can only end at a directory, or if what was a file where it ended is
still one. -/
theorem SameWays.walk_ok (h : fs.SameWays fs') {links : Nat} {steps : List Step}
    (hend : Directed steps ∨
      ∀ c, fs.entry? m = some (.file c) → ∃ c', fs'.entry? m = some (.file c'))
    (hm : fs.walk false links l steps = .ok m) : fs'.walk false links l steps = .ok m := by
  generalize hc : false = creating at hm ⊢
  -- along the walk that does not fail: what it meets on the way is there in the other files too
  fun_induction walk fs creating links l steps with
  | case1 =>
      rw [walk]
      exact hm
  | case2 _ _ _ ih | case3 _ _ _ ih =>
      rw [walk]
      exact ih (hend.imp_left Directed.tail) hm
  | case4 _ _ _ _ he ih =>
      rw [walk, (h.dir _).2 he]
      exact ih (hend.imp_left Directed.tail) hm
  -- the walk ends at a file, so what is assumed of such an end is used
  | case5 _ _ _ _ c he hnil =>
      cases hm
      rcases hend with hend | hend
      · exact absurd (List.isEmpty_iff.1 hnil) hend.ne_nil
      · obtain ⟨c', he'⟩ := hend c he
        rw [walk, he']
        dsimp only
        rw [if_pos hnil]
  | case6 => cases hm
  | case7 => cases hm
  -- a link: its target is gone along before the rest
  | case8 _ _ r target he _ ih =>
      rw [walk, (h.link _ target).2 he]
      exact ih (hend.imp_left fun hd => hd.tail.append hd.ne_nil _) hm
  | case9 _ _ _ _ _ hnil =>
      subst hc
      exact absurd hnil Bool.false_ne_true
  | case10 => cases hm

/-- Whose ways are the same is said of both alike. -/
theorem SameWays.symm (h : fs.SameWays fs') : fs'.SameWays fs :=
  ⟨h.current.symm, fun l => (h.dir l).symm, fun l target => (h.link l target).symm⟩

/-- Walks to directories end alike, if they do not fail. -/
theorem SameWays.walk_iff (h : fs.SameWays fs') {links : Nat} {steps : List Step}
    (hd : Directed steps) :
    fs'.walk false links l steps = .ok m ↔ fs.walk false links l steps = .ok m :=
  ⟨h.symm.walk_ok (.inl hd), h.walk_ok (.inl hd)⟩

/-! ### Names that no link has

If the last name of a path is that of a link, the path leads to wherever the link does. A store
gives names of its own, and of those it is assumed that no link has them. -/

/-- No link has the name `n`. -/
def Unlinked (fs : FileSystem) (n : String) : Prop :=
  ∀ d target, fs.entry? (d ++ [n]) ≠ some (.link target)

/-- A step in front of a last step `here`, which is another, is one of the steps before that. -/
theorem exists_cons_of_append_here {s : Step} {r init : List Step}
    (h : init ++ [.here] = s :: r) (hs : s ≠ .here) :
    ∃ rest, init = s :: rest ∧ rest ++ [.here] = r := by
  cases init with
  | nil => exact absurd (List.cons.inj h).1.symm hs
  | cons t rest =>
      obtain ⟨rfl, hr⟩ := List.cons.inj h
      exact ⟨rest, rfl, hr⟩

/-- Under a name that no link has, a walk finds what stands there in the directory that it comes
to. -/
theorem walk_append_name (hn : fs.Unlinked n) (links : Nat) (l : Location) (init : List Step) :
    fs.walk false links l (init ++ [.name n]) =
      (fs.walk false links l (init ++ [.here])).bind fun d =>
        if (fs.entry? (d ++ [n])).isSome then .ok (d ++ [n]) else .error .notFound := by
  have hne : ∀ {rest : List Step} {s : Step}, (rest ++ [s]).isEmpty = false := fun {rest s} =>
    List.isEmpty_eq_false_iff.2 (List.append_ne_nil_of_right_ne_nil rest (List.cons_ne_nil s []))
  -- along the walk to the directory: the other takes the same steps until the last
  generalize hsteps : init ++ [Step.here] = steps
  generalize hc : false = creating
  fun_induction walk fs creating links l steps generalizing init with
  | case1 => exact absurd hsteps (List.append_ne_nil_of_right_ne_nil _ (List.cons_ne_nil _ _))
  | case2 links l r ih =>
      -- no step is left but the last: the other walk looks up the name, which no link has
      cases init with
      | nil =>
          cases hsteps
          rw [List.nil_append, walk, walk]
          show _ = if _ then _ else _
          cases he : fs.entry? (l ++ [n]) with
          | none => subst hc; rfl
          | some e =>
              cases e with
              | directory => rw [walk]; rfl
              | file c => rfl
              | link target => exact absurd he (hn l target)
      | cons t rest =>
          obtain ⟨rfl, hr⟩ := List.cons.inj hsteps
          rw [List.cons_append, walk]
          exact ih rest hr
  | case3 links l r ih =>
      obtain ⟨rest, rfl, hr⟩ := exists_cons_of_append_here hsteps (by simp)
      rw [List.cons_append, walk]
      exact ih rest hr
  | case4 links l m r he ih =>
      obtain ⟨rest, rfl, hr⟩ := exists_cons_of_append_here hsteps (by simp)
      rw [List.cons_append, walk, he]
      exact ih rest hr
  | case5 links l m r c he hnil =>
      obtain ⟨rest, rfl, rfl⟩ := exists_cons_of_append_here hsteps (by simp)
      rw [hne] at hnil
      cases hnil
  | case6 links l m r c he =>
      obtain ⟨rest, rfl, hr⟩ := exists_cons_of_append_here hsteps (by simp)
      rw [List.cons_append, walk, he]
      dsimp only
      rw [hne]
      rfl
  | case7 l m r target he =>
      obtain ⟨rest, rfl, hr⟩ := exists_cons_of_append_here hsteps (by simp)
      rw [List.cons_append, walk, he]
      rfl
  -- a link before the last step: both walks go along its target, and the last step stays last
  | case8 l m r target he links ih =>
      obtain ⟨rest, rfl, rfl⟩ := exists_cons_of_append_here hsteps (by simp)
      rw [List.cons_append, walk, he]
      dsimp only
      rw [← List.append_assoc]
      exact ih _ (List.append_assoc _ _ _)
  | case9 _ _ _ _ _ hnil =>
      subst hc
      exact absurd hnil Bool.false_ne_true
  | case10 links l m r he =>
      obtain ⟨rest, rfl, hr⟩ := exists_cons_of_append_here hsteps (by simp)
      subst hc
      rw [List.cons_append, walk, he]
      rfl

/-! ### The directory around a path

A path that ends in a name is taken apart into the directory around it and the name. All operations
on files are then said of `d ++ [n]`, with no walk in the statement. -/

/-- The directory in which a path names something. -/
def around (fs : FileSystem) (p : Path) : Except IoFault Location :=
  if p.text.isEmpty then .error .notFound
  else fs.walk false maxLinks (fs.start p) ((steps p).dropLast ++ [.here])

/-- The directory around a path stays when files come and go. -/
theorem SameWays.around_iff (h : fs.SameWays fs') (p : Path) :
    fs'.around p = .ok d ↔ fs.around p = .ok d := by
  have hstart : fs'.start p = fs.start p := by rw [start, start, h.current]
  have hdirected : Directed ((steps p).dropLast ++ [.here]) := by
    intro n hn
    rw [List.getLast?_concat] at hn
    cases hn
  rw [around, around, hstart]
  split
  · rfl
  · exact h.walk_iff hdirected

/-- The component that a step stands for; that of `here` is left out. -/
def stepComponent? : Step → Option Component
  | .here => none
  | .up => some .up
  | .name n => some (.name n)

/-- Components are what the steps of a path stand for, so both read a piece alike. -/
theorem component?_eq (piece : List Char) :
    Path.component? piece = (Step.ofPiece? piece).bind stepComponent? := by
  unfold Path.component? Step.ofPiece?
  by_cases hnil : piece = []
  · simp [hnil]
  · by_cases hhere : piece = ['.']
    · simp [hhere, stepComponent?]
    · by_cases hup : piece = ['.', '.']
      · simp [hup, stepComponent?]
      · simp [hnil, hhere, hup, stepComponent?]

/-- A path that ends in a name, and not in a slash. -/
structure EndsIn (p : Path) (n : String) : Prop where
  last : (steps p).getLast? = some (.name n)
  noSlash : endsInSlash p = false

/-- A name behind a directory is what the path ends in. -/
theorem endsIn_join (dir : Path) (hn : IsName n) : EndsIn (dir.join ⟨n⟩) n where
  last := getLast?_steps_join dir hn
  noSlash := by
    have hlast : (dir.join ⟨n⟩).text.toList.getLast? = n.toList.getLast? := by
      rw [Path.join, isAbsolute_mk hn, if_neg Bool.false_ne_true]
      split <;> rw [String.toList_append, List.getLast?_append_of_ne_nil _ hn.nonempty]
    rw [endsInSlash, hlast, beq_eq_false_iff_ne]
    exact fun hslash => hn.slash (List.mem_of_getLast? hslash)

namespace EndsIn

variable (hp : EndsIn p n)
include hp

/-- All steps before the last, and the name. -/
theorem steps_eq : steps p = (steps p).dropLast ++ [.name n] :=
  (List.dropLast_append_getLast? _ hp.last).symm

/-- The last component of a path that ends in a name is the name. -/
theorem fileName?_eq : p.fileName? = some n := by
  have hsteps : (Path.pieces p.text.toList).filterMap Path.component? =
      (steps p).dropLast.filterMap stepComponent? ++ [.name n] := by
    rw [funext component?_eq, ← List.filterMap_filterMap]
    show (steps p).filterMap stepComponent? = _
    rw [hp.steps_eq, List.filterMap_append, List.dropLast_concat]
    rfl
  have hlast : p.components.getLast? = some (.name n) := by
    unfold Path.components
    dsimp only
    rw [hsteps]
    -- three beginnings of a path: from the root, from the current directory, and neither
    split
    · rw [← List.cons_append, List.getLast?_concat]
    · split
      · rw [← List.cons_append, List.getLast?_concat]
      · rw [List.getLast?_concat]
  rw [Path.fileName?, hlast]

/-- The place of such a path is the name in the directory around it. -/
theorem place?_eq (fs : FileSystem) :
    fs.place? p = (fs.around p).map fun d => some (d ++ [n]) := by
  rw [place?, around, hp.last]
  split
  · rfl
  · cases fs.walk false maxLinks (fs.start p) ((steps p).dropLast ++ [.here]) <;> rfl

/-- Under a name that no link has, a path leads to what stands there. -/
theorem locate_eq (hn : fs.Unlinked n) :
    fs.locate p = (fs.around p).bind fun d =>
      if (fs.entry? (d ++ [n])).isSome then .ok (d ++ [n]) else .error .notFound := by
  have hsteps : allSteps p = (steps p).dropLast ++ [.name n] := by
    rw [allSteps, hp.noSlash, if_neg Bool.false_ne_true, List.append_nil]
    exact hp.steps_eq
  rw [locate, around, hsteps]
  split
  · rfl
  · exact walk_append_name hn maxLinks (fs.start p) (steps p).dropLast

/-- What is read is the content of the file of that name in the directory around. -/
theorem read_iff (hn : fs.Unlinked n) :
    fs.read p = .ok c ↔ ∃ d, fs.around p = .ok d ∧ fs.entry? (d ++ [n]) = some (.file c) := by
  rw [read_eq_ok_iff, hp.locate_eq hn]
  constructor
  · rintro ⟨m, hm, he⟩
    obtain ⟨d, hd, hm⟩ := exists_of_bind_ok hm
    split at hm
    · cases hm
      exact ⟨d, hd, he⟩
    · cases hm
  · rintro ⟨d, hd, he⟩
    refine ⟨d ++ [n], ?_, he⟩
    rw [hd]
    show (if (fs.entry? (d ++ [n])).isSome then _ else _) = _
    rw [he]
    rfl

/-- A file that is written stands in the directory around under its name, where no directory was. -/
theorem exists_of_replace (hr : fs.replace p c = .ok fs') :
    ∃ d, fs.around p = .ok d ∧ fs.isDirAt (d ++ [n]) = false ∧
      fs' = fs.set (d ++ [n]) (.file c) := by
  rw [replace, hp.place?_eq] at hr
  cases hd : fs.around p with
  | error e =>
      rw [hd] at hr
      cases hr
  | ok d =>
      rw [hd] at hr
      dsimp only [Except.map, bind, Except.bind] at hr
      split at hr
      · cases hr
      · rename_i hdir
        exact ⟨d, rfl, Bool.not_eq_true _ ▸ hdir, (Except.ok.inj hr).symm⟩

/-- What is taken away stood there and was no directory. -/
theorem exists_of_remove (hr : fs.remove p = .ok fs') :
    ∃ d e, fs.around p = .ok d ∧ fs.entry? (d ++ [n]) = some e ∧ e ≠ .directory ∧
      fs' = { fs with entries := fs.entries.erase (d ++ [n]) } := by
  rw [remove, hp.place?_eq] at hr
  cases hd : fs.around p with
  | error e =>
      rw [hd] at hr
      cases hr
  | ok d =>
      rw [hd] at hr
      dsimp only [Except.map, bind, Except.bind] at hr
      split at hr
      · cases hr
      · cases hr
      · rename_i e hdir he
        rw [hp.noSlash, if_neg Bool.false_ne_true] at hr
        exact ⟨d, e, rfl, he, hdir, (Except.ok.inj hr).symm⟩

/-- Nothing can be taken away where nothing is. -/
theorem remove_of_none (hd : fs.around p = .ok d) (he : fs.entry? (d ++ [n]) = none) :
    fs.remove p = .error .notFound := by
  rw [remove, hp.place?_eq, hd]
  dsimp only [Except.map, bind, Except.bind]
  rw [he]

/-- A file can be taken away. -/
theorem remove_of_file (hd : fs.around p = .ok d) (he : fs.entry? (d ++ [n]) = some (.file c)) :
    fs.remove p = .ok { fs with entries := fs.entries.erase (d ++ [n]) } := by
  rw [remove, hp.place?_eq, hd]
  dsimp only [Except.map, bind, Except.bind]
  rw [he]
  dsimp only
  rw [hp.noSlash, if_neg Bool.false_ne_true]
  rfl

/-- Nothing was found to take away because nothing is there. -/
theorem entry?_of_remove_notFound (hr : fs.remove p = .error .notFound)
    (hd : fs.around p = .ok d) : fs.entry? (d ++ [n]) = none := by
  rw [remove, hp.place?_eq, hd] at hr
  dsimp only [Except.map, bind, Except.bind] at hr
  split at hr
  · assumption
  · cases hr
  · rw [hp.noSlash, if_neg Bool.false_ne_true] at hr
    cases hr

end EndsIn

/-! ### Files that come and go

To write and to take away are both of this kind, so what follows is proved of `Changes` once. -/

/-- A file may have come or gone at one location, and nothing else is different. -/
structure Changes (fs fs' : FileSystem) (l : Location) : Prop where
  ways : fs.SameWays fs'
  others : ∀ k, k ≠ l → fs'.entry? k = fs.entry? k

/-- Where neither a directory nor a link is, a file may come and go. -/
theorem changes_of_entry? (hcurrent : fs'.current = fs.current)
    (hothers : ∀ k, k ≠ l → fs'.entry? k = fs.entry? k)
    (hbefore : ∀ e, fs.entry? l = some e → ∃ c, e = .file c)
    (hafter : ∀ e, fs'.entry? l = some e → ∃ c, e = .file c) : fs.Changes fs' l := by
  -- directories and links stand elsewhere, and there everything is the same
  have hsame : ∀ e, (∀ c, e ≠ .file c) → ∀ k, fs'.entry? k = some e ↔ fs.entry? k = some e := by
    intro e hfile k
    by_cases hk : k = l
    · subst hk
      constructor <;> intro he
      · obtain ⟨c, rfl⟩ := hafter e he
        exact absurd rfl (hfile c)
      · obtain ⟨c, rfl⟩ := hbefore e he
        exact absurd rfl (hfile c)
    · rw [hothers k hk]
  exact ⟨⟨hcurrent, hsame .directory nofun, fun k target => hsame (.link target) nofun k⟩, hothers⟩

/-- A file that is written where no directory and no link is, or -/
theorem changes_set (hl : l ≠ []) (he : ∀ e, fs.entry? l = some e → ∃ c, e = .file c)
    (c : List UInt8) : fs.Changes (fs.set l (.file c)) l := by
  refine changes_of_entry? rfl (fun k hk => ?_) he fun e hset => ⟨c, ?_⟩
  · rw [entry?_set fs hl, if_neg hk]
  · rw [entry?_set fs hl, if_pos rfl] at hset
    exact (Option.some.inj hset).symm

/-- one that is taken away, is such a change. -/
theorem changes_erase (hl : l ≠ []) (he : ∀ e, fs.entry? l = some e → ∃ c, e = .file c) :
    fs.Changes { fs with entries := fs.entries.erase l } l := by
  refine changes_of_entry? rfl (fun k hk => ?_) he fun e herase => ?_
  · rw [entry?_erase fs hl, if_neg hk]
  · rw [entry?_erase fs hl, if_pos rfl] at herase
    cases herase

namespace Changes

variable (h : fs.Changes fs' l)
include h

/-- Links are the same. -/
theorem unlinked (hn : fs.Unlinked n) : fs'.Unlinked n := fun d target he =>
  hn d target ((h.ways.link _ target).1 he)

/-- The content of a file with another name is the same. -/
theorem read_iff (hp : EndsIn p n) (hn : fs.Unlinked n) (hl : l.getLast? ≠ some n) :
    fs'.read p = .ok c ↔ fs.read p = .ok c := by
  have hothers : ∀ d, fs'.entry? (d ++ [n]) = fs.entry? (d ++ [n]) := by
    intro d
    refine h.others _ ?_
    rintro rfl
    exact hl List.getLast?_concat
  rw [hp.read_iff hn, hp.read_iff (h.unlinked hn)]
  simp only [h.ways.around_iff, hothers]

/-! ### Keys when a file goes

A key is made of the real location of as many names as exist. If a file goes whose name the key has
not, it was not among what the names lead to, and it could not be gone through. That it goes, and
does not come, is needed: a new file could make more names exist. -/

variable (hgone : fs'.entry? l = none)
include hgone

/-- A file that is there afterwards was there before. -/
theorem file_of_gone {k : Location} (he : fs'.entry? k = some (.file c)) :
    fs.entry? k = some (.file c) := by
  rwa [← h.others k]
  rintro rfl
  rw [hgone] at he
  cases he

/-- As many names exist as before, and they lead to where they led. -/
theorem realPrefix_eq (hl : l.getLast? = some n) {names : List String}
    (hn : n ∉ fs.realPrefix names) : fs'.realPrefix names = fs.realPrefix names := by
  induction names with
  | nil => rfl
  | cons m above ih =>
      rw [realPrefix] at hn
      rw [realPrefix, realPrefix]
      unfold realOf? at hn ⊢
      cases hwalk : fs.walk false maxLinks [] ((m :: above).reverse.map .name) with
      | ok k =>
          -- what the names lead to has another name, so it is there afterwards too
          rw [hwalk] at hn
          have hk : k ≠ l := by
            rintro rfl
            exact hn (List.mem_of_getLast? hl)
          rw [h.ways.walk_ok (.inr fun c hc => ⟨c, (h.others k hk).trans hc⟩) hwalk]
          rfl
      -- what leads nowhere before leads nowhere afterwards, so one name less is tried
      | error e =>
          rw [hwalk] at hn
          cases hafter : fs'.walk false maxLinks [] ((m :: above).reverse.map .name) with
          | ok k =>
              rw [h.ways.symm.walk_ok (.inr fun c hc => ⟨c, h.file_of_gone hgone hc⟩) hafter]
                at hwalk
              cases hwalk
          | error e' =>
              show fs'.realPrefix above ++ [m] = fs.realPrefix above ++ [m]
              rw [ih fun hmem => hn (List.mem_append_left _ hmem)]

/-- When a file goes, a key stays of which its name is no part. -/
theorem key_eq (hl : l.getLast? = some n) (hn : n ∉ fs.keyLocation p) :
    fs'.key p = fs.key p := by
  unfold key keyLocation at *
  rw [h.ways.current]
  split
  · rfl
  · rename_i m above hnames
    rw [hnames] at hn
    rw [h.realPrefix_eq hgone hl fun hmem => hn (List.mem_append_left _ hmem)]

end Changes

end Outline.FileSystem
