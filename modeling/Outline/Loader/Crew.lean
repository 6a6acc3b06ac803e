import Outline.Loader.Basic

/-!
# Loading files side by side

A crew loads files side by side: each has a worker, and the workers share one loader and one
workspace. What a worker does in one go is a stage of its work; between two stages of one worker any
others may take their turns. A worker that wants to make a tree, or to look into the store, takes
the lock of its file first, so that no two work on one file. This module provides:

* `Stage` — how far a worker has come, and `Stage.step`, its next stage;
* `Crew.turn` and `Crew.run` — the workers take turns in any order;
* `Crew.settle` — whoever can goes on until all are done; and
* `Loader.loadSideBySide`.
-/

namespace Outline

/-- How far a worker has come with a file. -/
inductive Stage
  | waiting
  /-- The file has been read; what the loader remembers comes next. -/
  | looking (file : SourceFile)
  /-- Nothing is remembered; the lock of the file comes next. -/
  | locking (file : SourceFile)
  /-- The lock is taken; another worker may have remembered a tree meanwhile. -/
  | lookingAgain (file : SourceFile)
  | fetching (file : SourceFile)
  | making (file : SourceFile)
  | keeping (file : SourceFile) (t : Tree)
  | remembering (file : SourceFile) (t : Tree)
  | done (answer : Except LoadError Nat)

namespace Stage

/-- The key of the file whose lock is held. -/
def held? : Stage → Option String
  | lookingAgain file | fetching file | making file | keeping file _ | remembering file _ =>
    some file.key
  | _ => none

/-- The key of the file whose lock comes next. -/
def wanted? : Stage → Option String
  | locking file => some file.key
  | _ => none

def answer? : Stage → Option (Except LoadError Nat)
  | done answer => some answer
  | _ => none

/-- A bound on the steps that are left. -/
def left : Stage → Nat
  | waiting => 8
  | looking _ => 7
  | locking _ => 6
  | lookingAgain _ => 5
  | fetching _ => 4
  | making _ => 3
  | keeping _ _ => 2
  | remembering _ _ => 1
  | done _ => 0

/-- The work of one stage on a path. -/
def step (g : Grammar) (l : Loader) (w : Workspace) (p : Path) :
    Stage → Stage × Loader × Workspace
  | waiting =>
    if l.accepts p then
      match SourceFile.read w.files p with
      | .ok file => (looking file, l, w)
      | .error e => (done (.error e), l, w)
    else (done (.error (.unsupported p)), l, w)
  | looking file =>
    match l.remembered? file with
    | some n => (done (.ok n), l, w)
    | none => (locking file, l, w)
  | locking file => (lookingAgain file, l, w)
  | lookingAgain file =>
    match l.remembered? file with
    | some n => (done (.ok n), l, w)
    | none => (fetching file, l, w)
  | fetching file =>
    match w.persisted file with
    | .fresh t => (remembering file t, l, w)
    | _ => (making file, l, w)
  | making file =>
    match Loader.outline g file with
    | .ok t => (keeping file t, l, w)
    | .error e => (done (.error e), l, w)
  | keeping file t => (remembering file t, l, w.keep file.key (t.encode file.fingerprint))
  | remembering file t =>
    let (n, l, w) := l.remember w file t
    (done (.ok n), l, w)
  | done answer => (done answer, l, w)

/-- A worker that is not done has fewer steps left after each. -/
theorem left_step (g : Grammar) (l : Loader) (w : Workspace) (p : Path) {s : Stage}
    (h : s.answer? = none) : (s.step g l w p).1.left < s.left := by
  cases s with
  | done answer => cases h
  | waiting =>
    show (if l.accepts p then _ else _ : Stage × Loader × Workspace).1.left < 8
    split
    · split <;> simp [left]
    · simp [left]
  | looking file | lookingAgain file =>
    simp only [step]
    split <;> simp [left]
  | fetching file =>
    simp only [step]
    split <;> simp [left]
  | making file =>
    simp only [step]
    split <;> simp [left]
  | locking file | keeping file t | remembering file t => exact Nat.lt_succ_self _

end Stage

/-- Workers with a loader and a workspace that they share. -/
structure Crew where
  loader : Loader
  workspace : Workspace
  jobs : List (Path × Stage)

namespace Crew

/-- A crew at the start of its work. -/
def start (l : Loader) (w : Workspace) (files : List Path) : Crew :=
  ⟨l, w, files.map fun p => (p, .waiting)⟩

/-- Whether a worker has to wait for a lock. -/
def blocks (c : Crew) (s : Stage) : Bool :=
  s.wanted?.any fun key => c.jobs.any fun job => job.2.held? == some key

/-- Whether a worker can go on. -/
def canMove (c : Crew) (s : Stage) : Bool := s.answer?.isNone && !c.blocks s

/-- The turn of a worker, who does the work of one stage if that can be done. -/
def turn (g : Grammar) (c : Crew) (i : Nat) : Crew :=
  match c.jobs[i]? with
  | some (p, s) =>
    if c.canMove s then
      let (s, l, w) := s.step g c.loader c.workspace p
      ⟨l, w, c.jobs.set i (p, s)⟩
    else c
  | none => c

/-- The workers take turns. -/
def run (g : Grammar) (c : Crew) (turns : List Nat) : Crew := turns.foldl (turn g) c

/-- A bound on the steps that workers have left. -/
def leftOf (jobs : List (Path × Stage)) : Nat := jobs.foldr (fun job n => job.2.left + n) 0

/-- When one worker has fewer steps left, so have all of them together. -/
theorem leftOf_set_lt {jobs : List (Path × Stage)} {i : Nat} {job job' : Path × Stage}
    (h : jobs[i]? = some job) (hlt : job'.2.left < job.2.left) :
    leftOf (jobs.set i job') < leftOf jobs := by
  induction jobs generalizing i with
  | nil => cases h
  | cons first rest ih =>
    cases i with
    | zero =>
      cases h
      exact Nat.add_lt_add_right hlt _
    | succ i => exact Nat.add_lt_add_left (ih h) _

/-- The first worker who can go on. -/
def next? (c : Crew) : Option Nat := c.jobs.findIdx? fun job => c.canMove job.2

/-- A turn of a worker who can go on leaves fewer steps. -/
theorem left_turn (g : Grammar) {c : Crew} {i : Nat} (h : c.next? = some i) :
    leftOf (c.turn g i).jobs < leftOf c.jobs := by
  obtain ⟨hi, hmoves, -⟩ := List.findIdx?_eq_some_iff_getElem.1 h
  have hjob : c.jobs[i]? = some c.jobs[i] := List.getElem?_eq_getElem hi
  have hopen : c.jobs[i].2.answer? = none := by
    have := (Bool.and_eq_true_iff.1 hmoves).1
    simpa using this
  unfold turn
  rw [hjob]
  dsimp only
  rw [if_pos hmoves]
  exact leftOf_set_lt hjob (Stage.left_step g c.loader c.workspace c.jobs[i].1 hopen)

/-- Whoever can goes on, until nobody can. -/
def settle (g : Grammar) (c : Crew) : Crew :=
  match h : c.next? with
  | none => c
  | some i =>
    have := left_turn g h
    settle g (c.turn g i)
termination_by leftOf c.jobs

/-- The answers of the workers who are done. -/
def answers (c : Crew) : List (Path × Except LoadError Nat) :=
  c.jobs.filterMap fun (p, s) => s.answer?.map (p, ·)

end Crew

namespace Loader

/-- Load files one after another. -/
def loadAll (g : Grammar) (l : Loader) (w : Workspace) :
    List Path → List (Path × Except LoadError Nat) × Loader × Workspace
  | [] => ([], l, w)
  | p :: ps =>
    let (r, l, w) := l.load g w p
    let (rs, l, w) := loadAll g l w ps
    ((p, r) :: rs, l, w)

/-- Load files side by side. The workers take the given turns first; then whoever can goes on. -/
def loadSideBySide (g : Grammar) (l : Loader) (w : Workspace) (files : List Path)
    (turns : List Nat) : List (Path × Except LoadError Nat) × Loader × Workspace :=
  let c := ((Crew.start l w files).run g turns).settle g
  (c.answers, c.loader, c.workspace)

end Loader

/-- How a list of files is loaded. -/
inductive Pace
  | oneByOne
  /-- Workers take these turns first. -/
  | sideBySide (turns : List Nat)

/-- How files are loaded with some settings, if workers would take the given turns. -/
def Settings.pace (s : Settings) (turns : List Nat) : Pace :=
  if s.runParallel then .sideBySide turns else .oneByOne

/-- Load files at a pace. -/
def Loader.loadFiles (g : Grammar) (pace : Pace) (l : Loader) (w : Workspace) (files : List Path) :
    List (Path × Except LoadError Nat) × Loader × Workspace :=
  match pace with
  | .oneByOne => l.loadAll g w files
  | .sideBySide turns => l.loadSideBySide g w files turns

end Outline
