import Outline.Loader.Crew

/-!
# Outline.Proofs.Loader.Turns

**At any pace files are loaded by workers who take turns.** A turn does the work of one stage, or
nothing (`Crew.turn_cases`), so what every turn keeps is true when all are done (`Crew.induction`).
No two workers ever hold one lock (`Crew.Exclusive.turn`).
Somebody can always go on, since who holds a lock does not wait for one (`Crew.done_of_next?`); so
all workers come to an answer. To load a file alone is to go through the same stages
(`Loader.load_eq_finish`). If no turns are given, the first worker who is not done goes on until an
answer, so a list of files is loaded one after another (`Loader.loadFiles_eq`).

Nothing is said here of trees or of what is right: these are the facts about turns that any
invariant of a crew needs. The invariants themselves are in the modules on crews.
-/

namespace Outline

variable {g : Grammar} {l : Loader} {w : Workspace} {p : Path}

/-! ### One worker

A worker alone is the reference: `load` is written as one function, the stages as a machine, and
both do the same work in the same order. -/

namespace Stage

/-- A worker with nobody around goes on until an answer. -/
def finish (g : Grammar) (l : Loader) (w : Workspace) (p : Path) (s : Stage) :
    Except LoadError Nat × Loader × Workspace :=
  match h : s.answer? with
  | some r => (r, l, w)
  | none =>
    have := left_step g l w p h
    finish g (s.step g l w p).2.1 (s.step g l w p).2.2 p (s.step g l w p).1
termination_by s.left

/-- A worker who is done has the answer. -/
theorem finish_done (g : Grammar) (l : Loader) (w : Workspace) (p : Path)
    (r : Except LoadError Nat) : finish g l w p (done r) = (r, l, w) := by
  rw [finish]
  rfl

/-- A worker who is not done is one stage further. -/
theorem finish_step {s : Stage} (h : s.answer? = none) :
    finish g l w p s = finish g (s.step g l w p).2.1 (s.step g l w p).2.2 p (s.step g l w p).1 := by
  rw [finish]
  split
  · rename_i r hr
    rw [h] at hr
    cases hr
  · rfl

/-- A lock that is held after a stage has been held before, or was wanted. -/
theorem held?_step {s : Stage} {key : String} (h : (s.step g l w p).1.held? = some key) :
    s.held? = some key ∨ s.wanted? = some key := by
  cases s with
  | waiting =>
      simp only [step] at h
      split at h
      · split at h <;> cases h
      · cases h
  | looking file =>
      simp only [step] at h
      split at h <;> cases h
  | locking file => exact .inr h
  | lookingAgain file =>
      simp only [step] at h
      split at h
      · cases h
      · exact .inl h
  | fetching file =>
      simp only [step] at h
      split at h <;> exact .inl h
  | making file =>
      simp only [step] at h
      split at h
      · exact .inl h
      · cases h
  | keeping file t => exact .inl h
  | remembering file t => cases h
  | done r => cases h

end Stage

/-- To load a file is to go through the stages alone. -/
theorem Loader.load_eq_finish (g : Grammar) (l : Loader) (w : Workspace) (p : Path) :
    l.load g w p = Stage.finish g l w p .waiting := by
  rw [Stage.finish_step rfl, load]
  simp only [Stage.step]
  -- by what `load` asks in turn: the path, the file, the memory, the store, the outline
  by_cases hp : l.accepts p = true
  · rw [if_pos hp, if_pos hp]
    cases SourceFile.read w.files p with
    | error e => exact (Stage.finish_done ..).symm
    | ok file =>
        dsimp only
        rw [Stage.finish_step rfl, loadFile, readOr, readPersisted]
        simp only [Stage.step]
        cases hn : l.remembered? file with
        | some n => exact (Stage.finish_done ..).symm
        | none =>
            dsimp only
            -- alone, the worker gets the lock and remembers no more when looking again
            rw [Stage.finish_step rfl, Stage.step, Stage.finish_step rfl]
            simp only [Stage.step, hn]
            rw [Stage.finish_step rfl]
            simp only [Stage.step]
            cases w.persisted file with
            | fresh t =>
                dsimp only
                rw [Stage.finish_step rfl]
                exact (Stage.finish_done ..).symm
            | _ =>
                dsimp only
                rw [Stage.finish_step rfl]
                simp only [Stage.step]
                cases outline g file with
                | error e => exact (Stage.finish_done ..).symm
                | ok t =>
                    dsimp only
                    rw [Stage.finish_step rfl, Stage.finish_step rfl]
                    exact (Stage.finish_done ..).symm
  · rw [if_neg hp, if_neg hp]
    exact (Stage.finish_done ..).symm

/-! ### A crew

`turn_cases` says all that a turn can do. What is proved of a crew afterwards does not open
`turn`. -/

namespace Crew

variable {c : Crew} {i : Nat}

/-- A turn does nothing, or a worker who may go on does the work of one stage. -/
theorem turn_cases (g : Grammar) (c : Crew) (i : Nat) : c.turn g i = c ∨
    ∃ p s, c.jobs[i]? = some (p, s) ∧ c.canMove s = true ∧
      let r := s.step g c.loader c.workspace p
      c.turn g i = ⟨r.2.1, r.2.2, c.jobs.set i (p, r.1)⟩ := by
  unfold turn
  cases hjob : c.jobs[i]? with
  | none => exact .inl rfl
  | some job =>
      obtain ⟨p, s⟩ := job
      dsimp only
      by_cases hmoves : c.canMove s = true
      · rw [if_pos hmoves]
        exact .inr ⟨p, s, rfl, hmoves, rfl⟩
      · rw [if_neg hmoves]
        exact .inl rfl

/-- Workers stay with their files. -/
theorem paths_turn (g : Grammar) (c : Crew) (i : Nat) :
    (c.turn g i).jobs.map (·.1) = c.jobs.map (·.1) := by
  rcases c.turn_cases g i with h | ⟨p, s, hjob, -, h⟩
  · rw [h]
  · obtain ⟨hi, hget⟩ := List.getElem?_eq_some_iff.1 hjob
    have hi' : i < (c.jobs.map (·.1)).length := by rwa [List.length_map]
    have hpath : (c.jobs.map (·.1))[i] = p := by rw [List.getElem_map, hget]
    rw [h, List.map_set]
    exact hpath ▸ List.set_getElem_self hi'

/-- What every turn keeps is true at the end if it is true at the start. -/
theorem induction {motive : Crew → Prop} (hturn : ∀ c i, motive c → motive (c.turn g i))
    (turns : List Nat) (h : motive c) : motive ((c.run g turns).settle g) := by
  have hrun : motive (c.run g turns) := by
    induction turns generalizing c with
    | nil => exact h
    | cons i turns ih => exact ih (hturn c i h)
  generalize c.run g turns = c' at hrun
  -- to settle is to take more turns, as many as there is work left
  fun_induction Crew.settle g c' with
  | case1 => exact hrun
  | case2 c i hi hleft ih => exact ih (hturn c i hrun)

/-- At first there is one worker for each file. -/
theorem paths_start (l : Loader) (w : Workspace) (files : List Path) :
    (start l w files).jobs.map (·.1) = files := by
  rw [start, List.map_map]
  exact List.map_id files

/-! ### Locks

That locks exclude each other is kept by every turn. The only stage that takes a lock is `locking`,
and a worker at it may go on only if nobody holds the lock. -/

/-- In a list of which one place is set, another has what it had. -/
theorem getElem?_set_cases {α : Type} {xs : List α} {i j : Nat} {a b : α}
    (h : (xs.set i a)[j]? = some b) : i = j ∧ b = a ∨ i ≠ j ∧ xs[j]? = some b := by
  by_cases hij : i = j
  · subst hij
    rw [List.getElem?_set_self'] at h
    obtain ⟨-, -, rfl⟩ := Option.map_eq_some_iff.1 h
    exact .inl ⟨rfl, rfl⟩
  · rw [List.getElem?_set_ne hij] at h
    exact .inr ⟨hij, h⟩

/-- No two workers hold one lock. -/
def Exclusive (c : Crew) : Prop := ∀ (i j : Nat) (a b : Path × Stage) (key : String),
  c.jobs[i]? = some a → c.jobs[j]? = some b → a.2.held? = some key → b.2.held? = some key → i = j

/-- A lock that is held cannot be had. -/
theorem held?_ne_of_canMove {s : Stage} {key : String} (h : c.canMove s = true)
    (hkey : s.wanted? = some key) {job : Path × Stage} (hjob : job ∈ c.jobs) :
    job.2.held? ≠ some key := by
  intro hheld
  have hblocks : c.blocks s = true := by
    rw [blocks, hkey]
    exact List.any_eq_true.2 ⟨job, hjob, beq_iff_eq.2 hheld⟩
  rw [canMove, hblocks, Bool.not_true, Bool.and_false] at h
  cases h

/-- Who takes a lock is the only one to hold it. -/
theorem Exclusive.turn (h : c.Exclusive) (i : Nat) : (c.turn g i).Exclusive := by
  rcases c.turn_cases g i with hturn | ⟨p, s, hjob, hmoves, hturn⟩
  · rw [hturn]
    exact h
  -- a lock that the worker has after the turn was the worker's before, or was free
  have hclash : ∀ {j b key}, i ≠ j → c.jobs[j]? = some b → b.2.held? = some key →
      (s.step g c.loader c.workspace p).1.held? ≠ some key := by
    intro j b key hij hb hkey hnew
    rcases Stage.held?_step hnew with hheld | hwanted
    · exact hij (h i j _ b key hjob hb hheld hkey)
    · exact held?_ne_of_canMove hmoves hwanted (List.mem_of_getElem? hb) hkey
  rw [hturn]
  intro j k a b key ha hb hkey hkey'
  -- of two holders one at most is the worker whose turn it was
  rcases getElem?_set_cases ha with ⟨hij, rfl⟩ | ⟨hij, ha⟩
  · rcases getElem?_set_cases hb with ⟨hik, -⟩ | ⟨hik, hb⟩
    · exact hij.symm.trans hik
    · exact absurd hkey (hclash hik hb hkey')
  · rcases getElem?_set_cases hb with ⟨-, rfl⟩ | ⟨-, hb⟩
    · exact absurd hkey' (hclash hij ha hkey)
    · exact h j k a b key ha hb hkey hkey'

/-! ### Until all are done

A crew could be stuck if workers waited for each other's locks. Here one lock is enough for each, so
who holds one waits for nothing. -/

/-- If nobody can go on, all are done: who waits for a lock waits for somebody who can. -/
theorem done_of_next? (h : c.next? = none) : ∀ job ∈ c.jobs, job.2.answer?.isSome := by
  have hstuck : ∀ job ∈ c.jobs, c.canMove job.2 = false := by
    simpa [next?, List.findIdx?_eq_none_iff] using h
  -- who cannot go on is at none of the stages under a lock
  have hfree : ∀ job ∈ c.jobs, job.2.held? = none := by
    intro job hjob
    have hmoves := hstuck job hjob
    cases hstage : job.2 with
    | waiting | looking | locking | done => rfl
    | _ =>
        rw [hstage] at hmoves
        cases hmoves
  intro job hjob
  cases ha : job.2.answer? with
  | some r => rfl
  | none =>
      -- The worker would have to wait for a lock, but no lock is held.
      have hblocked : c.blocks job.2 = true := by
        have hmoves := hstuck job hjob
        rw [canMove, ha] at hmoves
        simpa using hmoves
      obtain ⟨key, -, hheld⟩ := (Option.any_eq_true _ _).1 hblocked
      obtain ⟨other, hother, hkey⟩ := List.any_eq_true.1 hheld
      rw [hfree other hother] at hkey
      cases hkey

/-- If nobody can go on, nothing is left to do. -/
theorem settle_of_none (h : c.next? = none) : c.settle g = c := by
  rw [settle]
  split
  · rfl
  · rename_i i hi
    rw [h] at hi
    cases hi

/-- Otherwise the first who can takes a turn. -/
theorem settle_of_next? (h : c.next? = some i) : c.settle g = (c.turn g i).settle g := by
  rw [settle]
  split
  · rename_i hnone
    rw [h] at hnone
    cases hnone
  · rename_i j hj
    rw [h] at hj
    cases hj
    rfl

/-- In the end nobody can go on. -/
theorem next?_settle (g : Grammar) (c : Crew) : (c.settle g).next? = none := by
  fun_induction Crew.settle g c with
  | case1 c h => exact h
  | case2 c i h hleft ih => exact ih

/-- The answers of a crew that is done are those of all its workers. -/
theorem answers_spec (hdone : ∀ job ∈ c.jobs, job.2.answer?.isSome) :
    c.answers.map (·.1) = c.jobs.map (·.1) ∧
      ∀ x ∈ c.answers, (x.1, Stage.done x.2) ∈ c.jobs := by
  unfold answers
  generalize c.jobs = jobs at hdone ⊢
  induction jobs with
  | nil => exact ⟨rfl, fun x hx => by cases hx⟩
  | cons job jobs ih =>
      obtain ⟨q, s⟩ := job
      obtain ⟨hs, hjobs⟩ := List.forall_mem_cons.1 hdone
      obtain ⟨hpaths, hmem⟩ := ih hjobs
      cases s with
      | done r =>
          refine ⟨congrArg (q :: ·) hpaths, fun x hx => ?_⟩
          rcases List.mem_cons.1 hx with rfl | hx
          · exact List.mem_cons_self
          · exact List.mem_cons_of_mem _ (hmem x hx)
      | _ => cases hs

/-! ### Without turns

At the pace `oneByOne` the list of turns is empty and all is left to `settle`, which always picks
the first worker who can go on. Then the crew has the form `ended before ++ (p, s) :: unbegun rest`
all the time: those before are done, one is at work, and those behind have not begun. -/

/-- Workers who are done. -/
def ended (answers : List (Path × Except LoadError Nat)) : List (Path × Stage) :=
  answers.map fun x => (x.1, .done x.2)

/-- Workers who have not begun. -/
def unbegun (files : List Path) : List (Path × Stage) := files.map fun p => (p, .waiting)

variable {before : List (Path × Except LoadError Nat)} {s : Stage} {rest : List Path}

/-- Who is done holds no lock, -/
theorem held?_of_mem_ended {job : Path × Stage} (h : job ∈ ended before) :
    job.2.held? = none := by
  obtain ⟨x, -, rfl⟩ := List.mem_map.1 h
  rfl

/-- nor does who has not begun. -/
theorem held?_of_mem_unbegun {job : Path × Stage} (h : job ∈ unbegun rest) :
    job.2.held? = none := by
  obtain ⟨q, -, rfl⟩ := List.mem_map.1 h
  rfl

section

variable (h : s.answer? = none)

include h

/-- The first who is not done may go on if the others have not begun. -/
theorem canMove_of_first :
    canMove ⟨l, w, ended before ++ (p, s) :: unbegun rest⟩ s = true := by
  have hfree : blocks ⟨l, w, ended before ++ (p, s) :: unbegun rest⟩ s = false := by
    refine Bool.eq_false_iff.2 fun hblocks => ?_
    obtain ⟨key, hkey, hheld⟩ := (Option.any_eq_true _ _).1 hblocks
    obtain ⟨job, hjob, hheld⟩ := List.any_eq_true.1 hheld
    -- Who wants a lock holds none, and no other holds one.
    have hnone : job.2.held? = none := by
      rcases List.mem_append.1 hjob with hjob | hjob
      · exact held?_of_mem_ended hjob
      · rcases List.mem_cons.1 hjob with rfl | hjob
        · cases s with
          | locking file => rfl
          | _ => cases hkey
        · exact held?_of_mem_unbegun hjob
    rw [hnone] at hheld
    cases hheld
  rw [canMove, h, hfree]
  rfl

/-- So it is this worker who is picked, -/
theorem next?_of_first :
    next? ⟨l, w, ended before ++ (p, s) :: unbegun rest⟩ = some before.length := by
  have hended : (ended before).findIdx? (fun job =>
      canMove ⟨l, w, ended before ++ (p, s) :: unbegun rest⟩ job.2) = none := by
    rw [List.findIdx?_eq_none_iff]
    intro job hjob
    obtain ⟨x, -, rfl⟩ := List.mem_map.1 hjob
    rfl
  rw [next?, List.findIdx?_append, hended, List.findIdx?_cons, canMove_of_first h]
  simp [ended]

/-- and after a turn the crew has the same form. -/
theorem turn_of_first :
    turn g ⟨l, w, ended before ++ (p, s) :: unbegun rest⟩ before.length =
      ⟨(s.step g l w p).2.1, (s.step g l w p).2.2,
        ended before ++ (p, (s.step g l w p).1) :: unbegun rest⟩ := by
  have hlength : before.length = (ended before).length := List.length_map _ |>.symm
  have hfirst : (ended before ++ (p, s) :: unbegun rest)[before.length]? = some (p, s) := by
    rw [hlength, List.getElem?_append_right (Nat.le_refl _), Nat.sub_self]
    rfl
  unfold turn
  rw [hfirst]
  dsimp only
  rw [if_pos (canMove_of_first h), hlength, List.set_append_right _ _ (Nat.le_refl _), Nat.sub_self]
  rfl

end

/-- The first who is not done goes on until an answer. -/
theorem settle_of_first (g : Grammar) (l : Loader) (w : Workspace)
    (before : List (Path × Except LoadError Nat)) (p : Path) (s : Stage) (rest : List Path) :
    settle g ⟨l, w, ended before ++ (p, s) :: unbegun rest⟩ =
      settle g ⟨(s.finish g l w p).2.1, (s.finish g l w p).2.2,
        ended (before ++ [(p, (s.finish g l w p).1)]) ++ unbegun rest⟩ := by
  generalize hleft : s.left = left
  -- on the stages that are left for the one at work
  induction left using Nat.strongRecOn generalizing s l w with
  | _ left ih =>
      cases ha : s.answer? with
      | some r =>
          cases s with
          | done r =>
              rw [Stage.finish_done, ended, ended, List.map_append, List.append_assoc]
              rfl
          | _ => cases ha
      | none =>
          have hlt := Stage.left_step g l w p ha
          rw [settle_of_next? (next?_of_first ha), turn_of_first ha, ih _ (hleft ▸ hlt) _ _ _ rfl,
            Stage.finish_step ha]

/-- Workers who have not begun are taken one after another. -/
theorem settle_unbegun (g : Grammar) (l : Loader) (w : Workspace)
    (before : List (Path × Except LoadError Nat)) (rest : List Path) :
    settle g ⟨l, w, ended before ++ unbegun rest⟩ =
      ⟨(l.loadAll g w rest).2.1, (l.loadAll g w rest).2.2,
        ended (before ++ (l.loadAll g w rest).1)⟩ := by
  induction rest generalizing l w before with
  | nil =>
      refine settle_of_none (List.findIdx?_eq_none_iff.2 fun job hjob => ?_) |>.trans ?_
      · rw [unbegun, List.map_nil, List.append_nil] at hjob
        obtain ⟨x, -, rfl⟩ := List.mem_map.1 hjob
        rfl
      · rw [unbegun, List.map_nil, List.append_nil, Loader.loadAll, List.append_nil]
  -- the first file is finished, and is one of those that are done from then on
  | cons p rest ih =>
      have hfirst := settle_of_first g l w before p .waiting rest
      rw [← Loader.load_eq_finish] at hfirst
      rw [show unbegun (p :: rest) = (p, .waiting) :: unbegun rest from rfl, hfirst, ih,
        List.append_assoc]
      rfl

/-- The answers of workers who are done are what they were given. -/
theorem answers_ended (l : Loader) (w : Workspace)
    (answers : List (Path × Except LoadError Nat)) :
    Crew.answers ⟨l, w, ended answers⟩ = answers := by
  rw [Crew.answers, ended, List.filterMap_map]
  exact List.filterMap_some

end Crew

/-- The turns that are taken first at a pace. -/
def Pace.turns : Pace → List Nat
  | oneByOne => []
  | sideBySide turns => turns

/-- To load files one after another is to load them side by side without turns. -/
theorem Loader.loadFiles_eq (g : Grammar) (pace : Pace) (l : Loader) (w : Workspace)
    (files : List Path) : l.loadFiles g pace w files = l.loadSideBySide g w files pace.turns := by
  cases pace with
  | sideBySide turns => rfl
  | oneByOne =>
      have hsettle := Crew.settle_unbegun g l w [] files
      rw [loadFiles, loadSideBySide]
      show _ = (((Crew.start l w files).settle g).answers, ((Crew.start l w files).settle g).loader,
        ((Crew.start l w files).settle g).workspace)
      rw [show (Crew.start l w files).settle g = _ from hsettle, List.nil_append,
        Crew.answers_ended]

end Outline
