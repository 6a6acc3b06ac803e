import Outline.Proofs.CommandLine.History
import Outline.Proofs.FileSystem.Below
import Outline.Proofs.Search.Exactness

/-!
# Outline.Proofs.CommandLine.Find

**A search in a directory finds what the files below it say now.** What is searched is told without
stores, memories and workers (`freshShards`): the trees that loading means for the files that are
reached, that are accepted and that can be loaded (`Searched`). A command line that searches a
directory ends with the results over these shards (`Scene.Ready.find_eq`), after any history of use
and whatever turns the workers take; and the shards depend on the files one by one
(`searched_congr`).

The run of a command line is taken apart from the outside in: its words make a task, its settings a
loader with a store, the loader loads the files at some pace, and the answers make shards. Each
layer has one lemma, and after it the layer is not looked at again. What remains is a search over
shards that nothing but the files decides.

Names in a directory are texts here. A name that is not UTF-8 has no path and so no hit, and a
report can always be written.
-/

namespace Outline

open FileSystem (pathOf)

variable {g : Grammar} {met : List UInt8 → Prop} {filter : Filter} {fs fs' base : FileSystem}
  {root m : Location} {t : Tree} {ink : Ink}

/-! ### What is searched

`Searched` speaks of one file; `freshShards` is the list that the search goes through. The two are
tied together once (`mem_freshShards`), together with the fact that no two shards are of one file,
and from then on only `Searched` is used. -/

/-- A file is searched with a tree: it is reached from the directory without entering one with code
of others, one that a build makes or a hidden one; it is accepted; and the tree is what loading
means. -/
structure Searched (g : Grammar) (filter : Filter) (fs : FileSystem) (root m : Location)
    (t : Tree) : Prop where
  reached : ∃ dirs name, m = root ++ dirs ++ [name] ∧
    ∀ d ∈ dirs, d ∉ ["vendor", "node_modules", "target"] ∧ d.toList.head? ≠ some '.'
  file : ∃ c, fs.entry? m = some (.file c)
  accepted : ({ filter := filter } : Loader).accepts (pathOf m) = true
  loaded : Loader.meaning g filter fs (pathOf m) = .ok t

/-- The shards of the files below a directory, each loaded for itself without memory and store; a
file that cannot be loaded has none. -/
def freshShards (g : Grammar) (filter : Filter) (fs : FileSystem) (root : Location) : List Shard :=
  match fs.filesBelow Loader.enters (pathOf root) with
  | .ok files => files.filterMap fun p => (Loader.meaning g filter fs p).toOption.map (Shard.mk p)
  | .error _ => []

/-- The names of directories that are entered, as a search decides it. -/
theorem enters_iff {d : String} : Loader.enters d = true ↔
    d ∉ ["vendor", "node_modules", "target"] ∧ d.toList.head? ≠ some '.' := by
  rw [Loader.enters, Bool.not_eq_true', Bool.or_eq_false_iff, beq_eq_false_iff_ne,
    Bool.eq_false_iff]
  simp only [ne_eq, List.contains_iff_mem]
  exact And.comm

/-- What loading means for a file depends on nothing but the file. -/
theorem Loader.meaning_pathOf (h : fs.Plain) {c : List UInt8}
    (hm : fs.entry? m = some (.file c)) : meaning g filter fs (pathOf m) =
      if ({ filter := filter } : Loader).accepts (pathOf m) then
        outline g ⟨pathOf m, (pathOf m).text, c, Fingerprint.ofContent c⟩
      else .error (.unsupported (pathOf m)) := by
  have hsome : (fs.entry? m).isSome := by
    rw [hm]
    rfl
  have hnormal := FileSystem.normalize_pathOf (h.names m hsome) fs.current
  -- The key is the path itself: it is in normal form, and no links are there to follow.
  have hkey : fs.key (pathOf m) = (pathOf m).text := by
    rw [h.key_eq (by rwa [hnormal]), hnormal]
  rw [meaning, SourceFile.read, h.read_pathOf hm]
  dsimp only
  rw [SourceFile.ofContent, hkey]
  rfl

/-- What means a tree is accepted, for otherwise it means a refusal. -/
theorem Loader.accepts_of_meaning {p : Path} (h : meaning g filter fs p = .ok t) :
    ({ filter := filter } : Loader).accepts p = true := by
  unfold meaning at h
  split at h
  · assumption
  · cases h

/-- Whether a file is searched, and with which tree, depends on nothing but the file. -/
theorem searched_congr (h : fs.Plain) (h' : fs'.Plain)
    (hsame : ∀ c, fs.entry? m = some (.file c) ↔ fs'.entry? m = some (.file c)) :
    Searched g filter fs root m t ↔ Searched g filter fs' root m t := by
  have hmeaning : ∀ c, fs.entry? m = some (.file c) →
      Loader.meaning g filter fs (pathOf m) = Loader.meaning g filter fs' (pathOf m) := by
    intro c hc
    rw [Loader.meaning_pathOf h hc, Loader.meaning_pathOf h' ((hsame c).1 hc)]
  constructor
  · rintro ⟨hreached, ⟨c, hc⟩, haccepted, hloaded⟩
    exact ⟨hreached, ⟨c, (hsame c).1 hc⟩, haccepted, hmeaning c hc ▸ hloaded⟩
  · rintro ⟨hreached, ⟨c, hc⟩, haccepted, hloaded⟩
    have hc := (hsame c).2 hc
    exact ⟨hreached, ⟨c, hc⟩, haccepted, (hmeaning c hc).trans hloaded⟩

section

variable (h : fs.Plain) (hdir : fs.isDirAt root = true)

include h hdir

/-- A shard is a file that is searched, with its tree. -/
theorem mem_freshShards {s : Shard} : s ∈ freshShards g filter fs root ↔
    ∃ m t, Searched g filter fs root m t ∧ s = ⟨pathOf m, t⟩ := by
  obtain ⟨found, hfiles, -, hfound⟩ := h.filesBelow_spec Loader.enters hdir
  rw [freshShards, hfiles]
  simp only [List.mem_filterMap, List.mem_map, Option.map_eq_some_iff]
  constructor
  · rintro ⟨p, ⟨m, hm, rfl⟩, t, ht, rfl⟩
    obtain ⟨dirs, name, hpath, henters, hfile⟩ := (hfound m).1 hm
    have hloaded : Loader.meaning g filter fs (pathOf m) = .ok t := by
      cases hmeaning : Loader.meaning g filter fs (pathOf m) with
      | error e =>
          rw [hmeaning] at ht
          cases ht
      | ok u =>
          rw [hmeaning] at ht
          cases ht
          rfl
    exact ⟨m, t, ⟨⟨dirs, name, hpath, fun d hd => enters_iff.1 (henters d hd)⟩, hfile,
      Loader.accepts_of_meaning hloaded, hloaded⟩, rfl⟩
  · rintro ⟨m, t, ⟨⟨dirs, name, hpath, henters⟩, hfile, -, hloaded⟩, rfl⟩
    refine ⟨_, ⟨m, (hfound m).2 ⟨dirs, name, hpath, fun d hd => enters_iff.2 (henters d hd), hfile⟩,
      rfl⟩, t, ?_, rfl⟩
    rw [hloaded]
    rfl

/-- No file is searched twice, and different files are told apart by their paths. -/
theorem pairwise_freshShards :
    (freshShards g filter fs root).Pairwise fun a b => a.file.same b.file = false := by
  obtain ⟨found, hfiles, hnodup, hfound⟩ := h.filesBelow_spec Loader.enters hdir
  have hlocation : ∀ m ∈ found, IsLocation m := by
    intro m hm
    obtain ⟨-, -, -, -, c, hc⟩ := (hfound m).1 hm
    exact h.names m (by rw [hc]; rfl)
  rw [freshShards, hfiles]
  refine List.pairwise_filterMap.2 (List.pairwise_map.2 ?_)
  refine hnodup.imp_of_mem fun {m k} hm hk hmk s hs s' hs' => ?_
  obtain ⟨t, -, rfl⟩ := Option.map_eq_some_iff.1 hs
  obtain ⟨t', -, rfl⟩ := Option.map_eq_some_iff.1 hs'
  refine Bool.eq_false_iff.2 fun hsame => hmk ?_
  exact (FileSystem.same_pathOf (hlocation m hm) (hlocation k hk)).1 hsame

end

/-! ### Searches over the same shards

The order of the shards does not matter, and neither does how they came to be listed. So two
searches with the same plan are the same if they are over the same shards. -/

/-- No shard comes twice, so lists with the same shards are in different order at most. -/
theorem search_eq_of_mem {shards shards' : List Shard} {plan : Plan} (hp : plan.requests.Nodup)
    (h : shards.Pairwise fun a b => a.file.same b.file = false)
    (h' : shards'.Pairwise fun a b => a.file.same b.file = false)
    (hmem : ∀ s, s ∈ shards ↔ s ∈ shards') : search shards plan = search shards' plan := by
  have hnodup : ∀ {ss : List Shard}, (ss.Pairwise fun a b => a.file.same b.file = false) →
      ss.Nodup := by
    intro ss hss
    refine hss.imp fun {a b} hab heq => ?_
    rw [heq, Path.same, beq_self_eq_true] at hab
    cases hab
  have hperm : shards.Perm shards' :=
    (List.perm_ext_iff_of_nodup (hnodup h) (hnodup h')).2 hmem
  -- For each request the hits are sorted in the end, whichever shard came first.
  have hgroups : (search shards plan).groups = (search shards' plan).groups := by
    rw [groups_search hp, groups_search hp]
    refine List.map_congr_left fun r _ => ?_
    rw [snapshot_eq_of_perm (Shard.apart_flatMap_hits h r) (hperm.flatMap_right _)]
  exact congrArg Results.mk hgroups

/-- If the same files say the same, the same is found. -/
theorem search_freshShards_congr (h : fs.Plain) (h' : fs'.Plain) (hdir : fs.isDirAt root = true)
    (hdir' : fs'.isDirAt root = true) {plan : Plan} (hp : plan.requests.Nodup)
    (hsame : ∀ dirs name c, (Language.ofPath? (pathOf (root ++ dirs ++ [name]))).isSome →
      (fs.entry? (root ++ dirs ++ [name]) = some (.file c) ↔
        fs'.entry? (root ++ dirs ++ [name]) = some (.file c))) :
    search (freshShards g filter fs root) plan = search (freshShards g filter fs' root) plan := by
  refine search_eq_of_mem hp (pairwise_freshShards h hdir) (pairwise_freshShards h' hdir')
    fun s => ?_
  rw [mem_freshShards h hdir, mem_freshShards h' hdir']
  -- A file that is searched has a language, so it says the same in both.
  have hsource : ∀ {files m t}, Searched g filter files root m t →
      ∀ c, fs.entry? m = some (.file c) ↔ fs'.entry? m = some (.file c) := by
    rintro files m t ⟨⟨dirs, name, rfl, -⟩, -, haccepted, -⟩ c
    exact hsame dirs name c (ofPath?_isSome_of_accepts haccepted)
  constructor
  · rintro ⟨m, t, hm, rfl⟩
    exact ⟨m, t, (searched_congr h h' (hsource hm)).1 hm, rfl⟩
  · rintro ⟨m, t, hm, rfl⟩
    exact ⟨m, t, (searched_congr h h' (hsource hm)).2 hm, rfl⟩

/-! ### A command line that searches

Here the files change while they are loaded: workers keep outlines in the store. A source is never
one of these, so what loading means for it is the same from the first turn to the last
(`Meanwhile`); the lemma on the history of use supplies that each answer was right at some
moment. -/

/-- The shards of what was loaded are those of what loading means. Each answer is right for the
files as they were at its moment, and means the same for the files as they were at first. -/
theorem shards_ofLoaded {shelf : Shelf} {loaded : List (Path × Except LoadError Nat)}
    (hright : ∀ x ∈ loaded, RightAnswer g met filter base shelf x.1 x.2)
    (hmeaning : ∀ x ∈ loaded, ∀ files, FileSystem.Meanwhile g met base files →
      Loader.meaning g filter files x.1 = Loader.meaning g filter base x.1) :
    Shard.ofLoaded shelf loaded = (loaded.map (·.1)).filterMap fun p =>
      (Loader.meaning g filter base p).toOption.map (Shard.mk p) := by
  rw [Shard.ofLoaded, List.filterMap_map]
  refine List.filterMap_congr fun x hx => ?_
  obtain ⟨files, hfiles, hr⟩ := hright x hx
  obtain ⟨p, r⟩ := x
  rw [hmeaning _ hx files hfiles] at hr
  show (do return ⟨p, ← shelf.tree? (← r.toOption)⟩ : Option Shard) =
    (Loader.meaning g filter base p).toOption.map (Shard.mk p)
  -- An answer with a message has no shard, and a right one stands for a file without a tree.
  cases r with
  | error e =>
      cases hm : Loader.meaning g filter base p with
      | error e' => rfl
      | ok t =>
          rw [hm] at hr
          cases hr
  | ok n =>
      cases hm : Loader.meaning g filter base p with
      | error e =>
          rw [hm] at hr
          cases hr
      | ok t =>
          rw [hm] at hr
          have htree : shelf.tree? n = some t := Except.ok.inj hr
          show (shelf.tree? n).bind (fun u => some (Shard.mk p u)) = _
          rw [htree]
          rfl

/-- The files that a directory means are those below it that are accepted. -/
theorem Loader.filesOf_eq (h : fs.Plain) (hdir : fs.isDirAt root = true) {p : Path}
    (hp : fs.locate p = .ok root) (l : Loader) :
    ∃ found : List Location, fs.filesBelow enters (pathOf root) = .ok (found.map pathOf) ∧
      found.Nodup ∧ (∀ m, m ∈ found ↔ fs.Reaches enters root m) ∧
      l.filesOf fs p = .ok (pathOf root, (found.map pathOf).filter l.accepts) := by
  obtain ⟨found, hfiles, hnodup, hfound⟩ := h.filesBelow_spec enters hdir
  refine ⟨found, hfiles, hnodup, hfound, ?_⟩
  rw [filesOf, FileSystem.real?, hp]
  show (if fs.isDir (pathOf root) then _ else _) = _
  rw [if_pos (h.isDir_pathOf hdir), hfiles]
  rfl

/-- A search in a directory, at any pace, comes to the results over the fresh shards. -/
theorem Task.runFind_eq (hash : Distinct met) (size : Numbered g met) {l : Loader} {w : Workspace}
    (hl : l.Tidy g met filter w.files w) (hdir : w.files.isDirAt root = true) {p : Path}
    (hp : w.files.locate p = .ok root) (pace : Pace) (plan : Plan) (f : Format) :
    (runFind g ink pace l w p plan f).1 =
      .ok (findOutcome ink (pathOf root) plan f (freshShards g filter w.files root)) := by
  have hplain := hl.workspace.files.plain
  obtain ⟨found, hbelow, -, hfound, hfiles⟩ := Loader.filesOf_eq hplain hdir hp l
  obtain ⟨-, -, hpaths, hright⟩ :=
    hl.loadFiles hash size pace ((found.map pathOf).filter l.accepts)
  -- Files that are loaded are sources, so they say the same all the time.
  have hmeaning : ∀ x ∈ (l.loadFiles g pace w ((found.map pathOf).filter l.accepts)).1,
      ∀ files, FileSystem.Meanwhile g met w.files files →
      Loader.meaning g filter files x.1 = Loader.meaning g filter w.files x.1 := by
    intro x hx files hwhile
    have hmem : x.1 ∈ (found.map pathOf).filter l.accepts :=
      hpaths ▸ List.mem_map_of_mem hx
    obtain ⟨hpath, haccepts⟩ := List.mem_filter.1 hmem
    obtain ⟨m, hm, hmx⟩ := List.mem_map.1 hpath
    obtain ⟨-, -, -, -, c, hc⟩ := (hfound m).1 hm
    rw [← hmx] at haccepts ⊢
    have hc' := (hwhile.keeps.source_iff hplain hwhile.tidy.plain
      (ofPath?_isSome_of_accepts haccepts)).2 hc
    rw [Loader.meaning_pathOf hwhile.tidy.plain hc', Loader.meaning_pathOf hplain hc]
  have hshards := shards_ofLoaded hright hmeaning
  -- To leave out what is not accepted is to leave out what loading refuses.
  have hrefused : ∀ q, (if l.accepts q = true then
      (Loader.meaning g filter w.files q).toOption.map (Shard.mk q) else none) =
        (Loader.meaning g filter w.files q).toOption.map (Shard.mk q) := by
    intro q
    split
    · rfl
    · rename_i hrefuses
      rw [hl.accepts_eq] at hrefuses
      rw [Loader.meaning, if_neg hrefuses]
      rfl
  rw [runFind, hfiles]
  dsimp only
  rw [if_pos (hplain.isDir_pathOf hdir), hshards, hpaths, freshShards, hbelow,
    List.filterMap_filter]
  simp only [hrefused]

/-- Settings with a directory that can be made open the store in it. -/
theorem Settings.open_of_makeDirs {given : Settings} {user : User} {dir : Path}
    (hfilter : given.filter = .ok filter) (hcache : given.cacheDir? user.outlinesDir? = some dir)
    (hdirs : fs.makeDirs dir = .ok fs') :
    given.open user fs = (.ok ({ filter := filter }, .disk dir), fs') := by
  unfold Settings.open
  rw [hfilter, hcache]
  dsimp only
  rw [Store.openDisk, hdirs]
  rfl

/-- A command line whose words are understood, whose settings load and make a loader, ends as its
task does. -/
theorem Invocation.runAlong_eq {i : Invocation} {user : User} {turns : List Nat} {task : Task}
    {given : Settings} {l : Loader} {store : Store} {o : Outcome}
    (htask : i.command.task = .ok task)
    (hload : Settings.load fs i.config (pathOf fs.current) = .ok given)
    (hopen : given.open user fs = (.ok (l, store), fs'))
    (hrun : (task.run g ink (given.pace turns) l { files := fs', store := store }).1 = .ok o) :
    (i.runAlong g ink user turns fs).1 = o := by
  -- Words, settings, loader and task, none of which fails.
  have hattempt : (i.attempt g ink user turns fs).1 = .ok o := by
    rw [attempt, htask, hload]
    dsimp only [bind, Except.bind, Except.mapError, pure, Except.pure]
    rw [hopen]
    exact hrun
  rw [runAlong]
  split
  · rename_i heq
    rw [heq] at hattempt
    exact Except.ok.inj hattempt
  · rename_i heq
    rw [heq] at hattempt
    cases hattempt

/-- What a command on a directory depends on besides its words. -/
structure Scene where
  files : FileSystem
  user : User
  /-- The file with the settings, if it is given. -/
  config : Option Path
  /-- The turns of the workers, if files are loaded side by side. -/
  turns : List Nat
  path : Path

namespace Scene

/-- The outcome of a command line with a search. -/
def find (g : Grammar) (ink : Ink) (s : Scene) (names : List String) (kind : Option String)
    (strategy format : String) : Outcome :=
  (Invocation.runAlong g ink s.user s.turns s.files
    ⟨s.config, .find s.path names kind strategy format⟩).1

/-- The settings load, their filter can be read and the directory of their store can be made; and
the path leads to a directory. -/
structure Ready (s : Scene) (filter : Filter) (root : Location) : Prop where
  settings : ∃ given, Settings.load s.files s.config (pathOf s.files.current) = .ok given ∧
    given.filter = .ok filter ∧
    ∀ dir, given.cacheDir? s.user.outlinesDir? = some dir → ∃ fs, s.files.makeDirs dir = .ok fs
  path : s.files.locate s.path = .ok root
  dir : s.files.isDirAt root = true

variable {s : Scene} {names : List String} {kindName : Option String}
  {strategyName formatName : String} {strategy : Strategy} {kind : Option Kind} {format : Format}

/-- The settings make a loader that knows nothing. -/
theorem Ready.exists_opened (h : s.Ready filter root) : ∃ given store files,
    Settings.load s.files s.config (pathOf s.files.current) = .ok given ∧
      given.open s.user s.files = (.ok ({ filter := filter }, store), files) := by
  obtain ⟨given, hload, hfilter, hdirs⟩ := h.settings
  cases hcache : given.cacheDir? s.user.outlinesDir? with
  -- Without a directory the store keeps nothing, and nothing has to be made.
  | none =>
      refine ⟨given, .null, s.files, hload, ?_⟩
      unfold Settings.open
      rw [hfilter, hcache]
      rfl
  | some dir =>
      obtain ⟨files, hfiles⟩ := hdirs dir hcache
      exact ⟨given, .disk dir, files, hload, Settings.open_of_makeDirs hfilter hcache hfiles⟩

/-- Only directories are made on the way to a loader. -/
theorem Ready.exists_open (h : s.Ready filter root) (hash : Distinct met)
    (htidy : s.files.Tidy g met) : ∃ given l store files,
      Settings.load s.files s.config (pathOf s.files.current) = .ok given ∧
        given.open s.user s.files = (.ok (l, store), files) ∧ s.files.Keeps files ∧
        l.Tidy g met filter files { files := files, store := store } := by
  obtain ⟨given, store, files, hload, hopen⟩ := h.exists_opened
  obtain ⟨-, hkeeps, hloader⟩ := given.open_spec s.user hash htidy
  rw [hopen] at hkeeps hloader
  obtain ⟨hl, -⟩ := hloader _ store rfl
  exact ⟨given, _, store, files, hload, hopen, hkeeps, hl⟩

/-- The outcome of a search in a directory is that of the fresh shards. -/
theorem Ready.find_eq (h : s.Ready filter root) (hash : Distinct met) (size : Numbered g met)
    (htidy : s.files.Tidy g met) {plan : Plan} (hp : plan.requests.Nodup)
    (htask : (Command.find s.path names kindName strategyName formatName).task =
      .ok (.find s.path plan format)) :
    s.find g ink names kindName strategyName formatName =
      Task.findOutcome ink (pathOf root) plan format (freshShards g filter s.files root) := by
  obtain ⟨given, l, store, files, hload, hopen, hkeeps, hl⟩ := h.exists_open hash htidy
  -- Making the directory of the store has kept the one that is searched.
  have hdir := hkeeps.dirs root h.dir
  have hpath := htidy.plain.locate_mono hkeeps.dirs hkeeps.current h.path h.dir
  have hrun : (Task.runFind g ink (given.pace s.turns) l { files := files, store := store } s.path
      plan format).1 =
        .ok (Task.findOutcome ink (pathOf root) plan format (freshShards g filter files root)) :=
    Task.runFind_eq hash size hl hdir hpath (given.pace s.turns) plan format
  -- And it has changed no source, so the shards after it are the shards before it.
  have hsame : search (freshShards g filter files root) plan =
      search (freshShards g filter s.files root) plan := by
    refine search_freshShards_congr hl.workspace.files.plain htidy.plain hdir h.dir hp
      fun dirs name c hsource => ?_
    exact hkeeps.source_iff htidy.plain hl.workspace.files.plain hsource
  have hrunAlong : s.find g ink names kindName strategyName formatName =
      Task.findOutcome ink (pathOf root) plan format (freshShards g filter files root) :=
    Invocation.runAlong_eq htask hload hopen hrun
  rw [hrunAlong, Task.findOutcome, hsame]
  rfl

end Scene

/-! ### The results of a search in a directory

What is left is to say of the search over the fresh shards what the command line reports: which hits
each request has, in what order, and when there is none. -/

/-- A total of zero is no hit in any group. -/
theorem Results.isEmpty_iff {r : Results} :
    r.isEmpty = true ↔ ∀ group ∈ r.groups, group.2 = [] := by
  -- The total is summed up from the left, so the start of the sum is a variable.
  have htotal : ∀ (groups : List (Identity × List Hit)) (n : Nat),
      groups.foldl (fun n group => n + group.2.length) n = 0 ↔
        n = 0 ∧ ∀ group ∈ groups, group.2 = [] := by
    intro groups
    induction groups with
    | nil => exact fun n => ⟨fun h => ⟨h, fun _ h => absurd h List.not_mem_nil⟩, And.left⟩
    | cons group groups ih =>
        intro n
        rw [List.foldl_cons, ih, List.forall_mem_cons, Nat.add_eq_zero_iff,
          List.length_eq_zero_iff, and_assoc]
  rw [isEmpty, beq_iff_eq, total, htotal]
  exact and_iff_right rfl

/-- The words of a search are understood if each is known. -/
theorem Command.task_find {names : List String} {strategyName formatName : String}
    {strategy : Strategy} (hstrategy : Strategy.ofName? strategyName = some strategy)
    {kindName : Option String} {kind : Option Kind}
    (hkind : kindName.map Kind.ofName? = kind.map some) {format : Format}
    (hformat : Format.ofName? formatName = some format) (p : Path) :
    (find p names kindName strategyName formatName).task =
      .ok (.find p (Plan.ofRequests (names.map fun n => ⟨n, strategy, kind⟩)) format) := by
  -- A kind need not be given; if one is, its name has to be known.
  have hkindOf : kindName.mapM kindOf = .ok kind := by
    cases kindName with
    | none =>
        cases kind with
        | none => rfl
        | some k => cases hkind
    | some name =>
        cases kind with
        | none => cases hkind
        | some k =>
            show kindOf name >>= _ = _
            rw [kindOf, Option.some.inj hkind]
            rfl
  rw [task, formatOf, hformat, strategyOf, hstrategy, hkindOf]
  rfl

/-- The hits of fresh shards are the declarations in searched files that answer the request. -/
theorem mem_hits_freshShards (h : fs.Plain) (hdir : fs.isDirAt root = true) {r : Request}
    {hit : Hit} : hit ∈ (freshShards g filter fs root).flatMap (·.hits r) ↔
      ∃ m t i n, Searched g filter fs root m t ∧ t.node? i = some n ∧ r.accepts n = true ∧
        hit = ⟨pathOf m, i, n.kind, n.payload.name, n.payload.line?⟩ := by
  simp only [List.mem_flatMap, mem_freshShards h hdir, Shard.mem_hits]
  constructor
  · rintro ⟨s, ⟨m, t, hm, rfl⟩, i, n, hn, haccepts, rfl⟩
    exact ⟨m, t, i, n, hm, hn, haccepts, rfl⟩
  · rintro ⟨m, t, i, n, hm, hn, haccepts, rfl⟩
    exact ⟨_, ⟨m, t, hm, rfl⟩, i, n, hn, haccepts, rfl⟩

/-- Hits differ in the file or in the node. -/
theorem apart_hits_freshShards (h : fs.Plain) (hdir : fs.isDirAt root = true) (r : Request) :
    ((freshShards g filter fs root).flatMap (·.hits r)).Pairwise Hit.Apart :=
  Shard.apart_flatMap_hits (pairwise_freshShards h hdir) r

/-- What is found for a request are the declarations in searched files that answer it. -/
theorem mem_hitsFor_freshShards (h : fs.Plain) (hdir : fs.isDirAt root = true) {rs : List Request}
    {r : Request} (hr : r ∈ rs) {hit : Hit} :
    hit ∈ (search (freshShards g filter fs root) (Plan.ofRequests rs)).hitsFor r.identity ↔
      ∃ m t i n, Searched g filter fs root m t ∧ t.node? i = some n ∧ r.accepts n = true ∧
        hit = ⟨pathOf m, i, n.kind, n.payload.name, n.payload.line?⟩ := by
  rw [hitsFor_search (Plan.nodup_requests_ofRequests rs) _ (Plan.mem_requests_ofRequests.2 hr),
    (snapshot_perm (apart_hits_freshShards h hdir r)).mem_iff, mem_hits_freshShards h hdir]

/-- There is a group for each request, in the order of submission, with what is found for it. -/
theorem groups_search_ofRequests (shards : List Shard) (rs : List Request) :
    (search shards (Plan.ofRequests rs)).groups = rs.eraseDups.map fun r =>
      (r.identity, (search shards (Plan.ofRequests rs)).hitsFor r.identity) := by
  have hp := Plan.nodup_requests_ofRequests rs
  rw [← Plan.requests_ofRequests, groups_search hp]
  refine List.map_congr_left fun r hr => ?_
  rw [hitsFor_search hp shards hr]

/-- Nothing is found if nothing is found for any request. -/
theorem isEmpty_search_iff {shards : List Shard} {rs : List Request} :
    (search shards (Plan.ofRequests rs)).isEmpty = true ↔
      ∀ r ∈ rs, (search shards (Plan.ofRequests rs)).hitsFor r.identity = [] := by
  rw [Results.isEmpty_iff, groups_search_ofRequests]
  simp only [List.mem_map, List.mem_eraseDups, forall_exists_index, and_imp,
    forall_apply_eq_imp_iff₂]

/-- A file that is searched is the only one with its path. -/
theorem Searched.eq_of_pathOf (hm : Searched g filter fs root m t) (h : fs.Plain) {k : Location}
    (hk : IsLocation k) (heq : pathOf m = pathOf k) : m = k := by
  obtain ⟨c, hc⟩ := hm.file
  refine (FileSystem.same_pathOf (h.names m (by rw [hc]; rfl)) hk).1 ?_
  rw [heq, Path.same, beq_self_eq_true]

/-- **A search in a directory finds what the files below it say now.** The files came about by any
history of use, in which command lines may have filled the directories of any stores; contents that
are met have different fingerprints if they differ, and their outlines have no more nodes than can
be numbered. The report is on the results over the fresh shards, and the command succeeds if there
are any hits. There is one group for each request, in the order of submission; it has the
declarations that answer the request in the files that are searched, strictly sorted by file and
node.

The same search in another scene, with another history, other settings with the same filter and
other turns of the workers, has the same hits in each file that is the same, whatever becomes of the
others; and if all source files below the directory are the same, it ends in the same way. -/
theorem find_exact (g : Grammar) (ink : Ink) (met : List UInt8 → Prop) (hash : Distinct met)
    (size : Numbered g met) (names : List String) (strategyName : String) (strategy : Strategy)
    (hstrategy : Strategy.ofName? strategyName = some strategy) (kindName : Option String)
    (kind : Option Kind) (hkind : kindName.map Kind.ofName? = kind.map some) (formatName : String)
    (format : Format) (hformat : Format.ofName? formatName = some format) (filter : Filter)
    (root : Location) (s : Scene) (hused : Used g ink met s.files) (hready : s.Ready filter root) :
    let rs := names.map fun n => (⟨n, strategy, kind⟩ : Request)
    let plan := Plan.ofRequests rs
    let found := search (freshShards g filter s.files root) plan
    let outcome := s.find g ink names kindName strategyName formatName
    (outcome.out = format.write (found.toReport plan) (found.reportLines plan ink (pathOf root)) ∧
      outcome.err = "") ∧
    ((outcome.exit = 0 ↔ ∃ r ∈ rs, found.hitsFor r.identity ≠ []) ∧
      (outcome.exit = 1 ↔ ∀ r ∈ rs, found.hitsFor r.identity = [])) ∧
    (found.groups = rs.eraseDups.map (fun r => (r.identity, found.hitsFor r.identity)) ∧
      (found.groups.map (·.1)).Nodup) ∧
    (∀ r ∈ rs, (found.hitsFor r.identity).Pairwise (fun a b => a.compare b = .lt) ∧
      ∀ h, h ∈ found.hitsFor r.identity ↔ ∃ m t i n, Searched g filter s.files root m t ∧
        t.node? i = some n ∧ (kind = none ∨ kind = some n.kind) ∧
        strategy.matchesName n.payload.name r.target = true ∧
        h = ⟨pathOf m, i, n.kind, n.payload.name, n.payload.line?⟩) ∧
    ∀ s' : Scene, Used g ink met s'.files → s'.Ready filter root →
      (∀ m, IsLocation m →
        (∀ c, s.files.entry? m = some (.file c) ↔ s'.files.entry? m = some (.file c)) →
        ∀ r ∈ rs, ∀ h, h.file = pathOf m → (h ∈ found.hitsFor r.identity ↔
          h ∈ (search (freshShards g filter s'.files root) plan).hitsFor r.identity)) ∧
      ((∀ dirs name c, (Language.ofPath? (pathOf (root ++ dirs ++ [name]))).isSome →
        (s.files.entry? (root ++ dirs ++ [name]) = some (.file c) ↔
          s'.files.entry? (root ++ dirs ++ [name]) = some (.file c))) →
        s'.find g ink names kindName strategyName formatName = outcome) := by
  intro rs plan found outcome
  have hp : plan.requests.Nodup := Plan.nodup_requests_ofRequests rs
  have htask : ∀ p, (Command.find p names kindName strategyName formatName).task =
      .ok (.find p plan format) := Command.task_find hstrategy hkind hformat
  have htidy := hused.tidy hash size
  have hfind : outcome = Task.findOutcome ink (pathOf root) plan format _ :=
    hready.find_eq hash size htidy hp (htask s.path)
  have hgroups : found.groups =
      rs.eraseDups.map (fun r => (r.identity, found.hitsFor r.identity)) :=
    groups_search_ofRequests _ rs
  have hempty : found.isEmpty = true ↔ ∀ r ∈ rs, found.hitsFor r.identity = [] :=
    isEmpty_search_iff
  have hexit : outcome.exit = if found.isEmpty then 1 else 0 := by
    rw [hfind]
    rfl
  -- What is reported; the two exit codes; the groups; the order of hits and which they are; and the
  -- comparison with another scene.
  refine ⟨⟨?_, ?_⟩, ⟨?_, ?_⟩, ⟨hgroups, ?_⟩, fun r hr => ⟨?_, fun h => ?_⟩,
    fun s' hused' hready' => ⟨?_, fun hsame => ?_⟩⟩
  · rw [hfind]
    rfl
  · rw [hfind]
    rfl
  · rw [hexit, ← not_iff_not]
    push Not
    rw [← hempty]
    cases found.isEmpty <;> decide
  · rw [hexit, ← hempty]
    cases found.isEmpty <;> decide
  · rw [show found.groups = _ from groups_search hp _, List.map_map]
    exact hp.map Request.identity_injective
  · rw [show found.hitsFor r.identity = _ from
      hitsFor_search hp _ (Plan.mem_requests_ofRequests.2 hr)]
    exact snapshot_sorted (apart_hits_freshShards htidy.plain hready.dir r)
  · rw [show h ∈ found.hitsFor r.identity ↔ _ from
      mem_hitsFor_freshShards htidy.plain hready.dir hr]
    obtain ⟨name, -, rfl⟩ := List.mem_map.1 hr
    simp only [Request.accepts_iff, and_assoc]
  -- A hit in a file that is the same in both scenes is found in both, for no other file has its
  -- path.
  · intro m hm hsame r hr h hfile
    have htidy' := hused'.tidy hash size
    rw [show h ∈ found.hitsFor r.identity ↔ _ from
        mem_hitsFor_freshShards htidy.plain hready.dir hr,
      mem_hitsFor_freshShards htidy'.plain hready'.dir hr]
    have hsearched : ∀ t,
        Searched g filter s.files root m t ↔ Searched g filter s'.files root m t :=
      fun _ => searched_congr htidy.plain htidy'.plain hsame
    constructor
    · rintro ⟨k, t, i, n, hk, hn, haccepts, rfl⟩
      obtain rfl := hk.eq_of_pathOf htidy.plain hm hfile
      exact ⟨k, t, i, n, (hsearched t).1 hk, hn, haccepts, rfl⟩
    · rintro ⟨k, t, i, n, hk, hn, haccepts, rfl⟩
      obtain rfl := hk.eq_of_pathOf htidy'.plain hm hfile
      exact ⟨k, t, i, n, (hsearched t).2 hk, hn, haccepts, rfl⟩
  · have htidy' := hused'.tidy hash size
    rw [hready'.find_eq hash size htidy' hp (htask s'.path), hfind, Task.findOutcome,
      Task.findOutcome,
      search_freshShards_congr htidy.plain htidy'.plain hready.dir hready'.dir hp hsame]

/-- Without settings in the current directory there are the defaults. -/
theorem Settings.load_of_none (h : fs.Plain) (hfile : ∀ n ∈ Settings.fileNames, ∀ c,
    fs.entry? (((pathOf fs.current).join ⟨n⟩).normalize fs.current) ≠ some (.file c)) :
    Settings.load fs none (pathOf fs.current) = .ok {} := by
  have hnone : Settings.discover fs (pathOf fs.current) = none := by
    unfold Settings.discover
    rw [List.find?_eq_none]
    intro p hp
    obtain ⟨n, hn, rfl⟩ := List.mem_map.1 hp
    rw [h.isFile_eq_false (hfile n hn)]
    exact Bool.false_ne_true
  rw [Settings.load, hnone]
  rfl

/-- Without settings all files are accepted. -/
theorem Scene.Ready.of_no_settings {s : Scene} (hplain : s.files.Plain) (hconfig : s.config = none)
    (hfile : ∀ n ∈ Settings.fileNames, ∀ c,
      s.files.entry? (((pathOf s.files.current).join ⟨n⟩).normalize s.files.current) ≠
        some (.file c))
    (hdirs : ∀ dir, s.user.outlinesDir? = some dir → ∃ fs, s.files.makeDirs dir = .ok fs)
    (hpath : s.files.locate s.path = .ok root) (hdir : s.files.isDirAt root = true) :
    s.Ready {} root := by
  refine ⟨⟨{}, ?_, rfl, fun dir hcache => hdirs dir hcache⟩, hpath, hdir⟩
  rw [hconfig]
  exact Settings.load_of_none hplain hfile

/-- A file is searched, with a store; then its content is another. The function that it has now is
found, with what the store keeps and with workers, and once more by a user without a store; the
function that it had is not. -/
theorem find_exact_cached :
    let g := Grammar.naming
    let ink : Ink := ⟨false⟩
    let user : User := { caches := some "/c" }
    let dirs := ((({} : FileSystem).set ["c"] .directory).set ["c", "stubtree"] .directory).set
      ["c", "stubtree", "stubs"] .directory
    let ask : Invocation := ⟨none, .find ⟨"/"⟩ ["b"] none "exact" "json"⟩
    let asked := (ask.runAlong g ink user [] (dirs.set ["a.py"] (.file [98]))).2
    let s : Scene := ⟨asked.set ["a.py"] (.file [97]), user, none, [0, 0], ⟨"/"⟩⟩
    let s' : Scene := ⟨dirs.set ["a.py"] (.file [97]), {}, none, [], ⟨"/"⟩⟩
    s.Ready {} [] ∧ s'.Ready {} [] ∧
      (s.find g ink ["a"] none "exact" "json").exit = 0 ∧
      (s.find g ink ["b"] none "exact" "json").exit = 1 ∧
      s'.find g ink ["a"] none "exact" "json" = s.find g ink ["a"] none "exact" "json" := by
  intro g ink user dirs ask asked s s'
  let key := (pathOf ["a.py"]).text.toUTF8.toList
  let met : List UInt8 → Prop := (· ∈ [[97], [98], key])
  have hash : Distinct met := .of_nodup (by decide +kernel)
  have size : Numbered g met := fun _ _ _ ht => size_le_of_outline_naming ht
  have hname : IsName "a.py" := ⟨by decide, by decide, by decide, by decide⟩
  have hdirsPlain : dirs.Plain := by
    have hc := FileSystem.plain_empty.set (d := []) (n := "c") rfl
      ⟨by decide, by decide, by decide, by decide⟩ (.inl rfl)
    have hstubtree := hc.set (d := ["c"]) (n := "stubtree") (by decide)
      ⟨by decide, by decide, by decide, by decide⟩ (.inl rfl)
    exact hstubtree.set (d := ["c", "stubtree"]) (n := "stubs") (by decide)
      ⟨by decide, by decide, by decide, by decide⟩ (.inl rfl)
  have hnoFile : ∀ l c, dirs.entry? l ≠ some (.file c) := by
    intro l c he
    rw [FileSystem.entry?_set _ (List.cons_ne_nil _ _),
      FileSystem.entry?_set _ (List.cons_ne_nil _ _),
      FileSystem.entry?_set _ (List.cons_ne_nil _ _)] at he
    split at he
    · cases he
    · split at he
      · cases he
      · split at he
        · cases he
        · cases l <;> cases he
  have hstart : Used g ink met dirs := .start hdirsPlain
    (fun l n c _ he => absurd he (hnoFile _ c)) fun n c ⟨_, _, l, he⟩ => hnoFile _ c he
  have hsource : (Language.ofPath? (pathOf ([] ++ ["a.py"]))).isSome := by decide
  have hwrite : ∀ files c, Used g ink met files → files.isDirAt ["a.py"] = false → met c →
      Used g ink met (files.set ["a.py"] (.file c)) := fun files c h hfile hc =>
    h.write hash size (d := []) files.isDirAt_nil hname hfile hsource hc
      (List.mem_cons_of_mem _ (List.mem_cons_of_mem _ List.mem_cons_self))
  have hentry : ∀ (files : FileSystem) c l, FileSystem.entry? (files.set ["a.py"] (.file c)) l =
      if l = ["a.py"] then some (.file c) else files.entry? l := fun files c l =>
    files.entry?_set (List.cons_ne_nil _ _) (.file c) l
  have hbefore : Used g ink met (dirs.set ["a.py"] (.file [98])) :=
    hwrite dirs [98] hstart (by decide) (List.mem_cons_of_mem _ List.mem_cons_self)
  -- The command line of before leaves all files but those of the store as they were.
  obtain ⟨hasked, hkeeps⟩ := ask.tidy_runAlong hash size (hbefore.tidy hash size) ink user []
  have hsame : ∀ l c, (Language.ofPath? (pathOf l)).isSome →
      (asked.entry? l = some (.file c) ↔ l = ["a.py"] ∧ c = [98]) := by
    intro l c hl
    rw [hkeeps.source_iff (hbefore.tidy hash size).plain hasked.plain hl, hentry]
    split
    · rename_i hla
      simp [hla, eq_comm]
    · rename_i hla
      simp [hla, hnoFile]
  have hafter : Used g ink met s.files := by
    refine hwrite asked [97] (hbefore.run user [] ask) ?_ List.mem_cons_self
    refine Bool.eq_false_iff.2 fun hdir => ?_
    have hfile := (hsame ["a.py"] [98] hsource).2 ⟨rfl, rfl⟩
    rw [FileSystem.isDirAt_iff.1 hdir] at hfile
    cases hfile
  have hafter' : Used g ink met s'.files := hwrite dirs [97] hstart (by decide) List.mem_cons_self
  have hplain := (hafter.tidy hash size).plain
  have hplain' := (hafter'.tidy hash size).plain
  have hroot : ∀ files : FileSystem, files.Plain → files.locate ⟨"/"⟩ = .ok [] :=
    fun files h => h.locate_pathOf (m := []) rfl
  have hconfig : ∀ n ∈ Settings.fileNames, n.toList.getLast? ≠ some 'b' ∧ [n] ≠ ["a.py"] ∧
      ((pathOf []).join ⟨n⟩).normalize [] = [n] := by decide
  have hready : s.Ready {} [] := by
    have hcurrent : s.files.current = [] := hkeeps.current
    refine .of_no_settings hplain rfl (fun n hn c he => ?_) (fun dir hdir => ⟨s.files, ?_⟩)
      (hroot s.files hplain) s.files.isDirAt_nil
    · obtain ⟨hlast, hother, hnormal⟩ := hconfig n hn
      rw [hcurrent, hnormal, hentry, if_neg hother] at he
      have hnotStore : ¬ FileSystem.OfStore n := by
        rintro ⟨key, rfl⟩
        exact hlast (Store.getLast?_fileName key)
      replace he := (hkeeps.files [] n c hnotStore).1 he
      rw [List.nil_append, hentry, if_neg hother] at he
      exact hnoFile _ c he
    · obtain rfl : pathOf ["c", "stubtree", "stubs"] = dir :=
        Option.some.inj (show user.outlinesDir? = some dir from hdir)
      refine hplain.makeDirs_pathOf ?_
      have hthere := hkeeps.dirs ["c", "stubtree", "stubs"] (by decide)
      rw [FileSystem.isDirAt_iff] at hthere ⊢
      rw [hentry, if_neg (by decide)]
      exact hthere
  have hready' : s'.Ready {} [] := by
    refine .of_no_settings hplain' rfl (fun n hn c he => ?_) (fun dir hdir => by cases hdir)
      (hroot s'.files hplain') s'.files.isDirAt_nil
    obtain ⟨-, hother, hnormal⟩ := hconfig n hn
    rw [show s'.files.current = [] from rfl, hnormal, hentry, if_neg hother] at he
    exact hnoFile _ c he
  -- The one source file has one tree, of its one function.
  have hm : s.files.entry? ["a.py"] = some (.file [97]) := by rw [hentry, if_pos rfl]
  have hlisting : listingOf? g (pathOf ["a.py"]) [97] = some (namingEntries "a.py" "a") :=
    listing_naming (by decide) (by decide) (by decide +kernel) (by decide)
  obtain ⟨t, n, ht, hn, -, hfunction⟩ := exists_tree_naming "a.py" "a" (by decide)
  have hloaded : Loader.meaning g {} s.files (pathOf ["a.py"]) = .ok t := by
    rw [Loader.meaning_pathOf hplain hm, if_pos (by decide)]
    exact outline_of_listing hlisting ht
  have hfound : Searched g {} s.files [] ["a.py"] t :=
    ⟨⟨[], "a.py", rfl, fun d hd => absurd hd List.not_mem_nil⟩, ⟨_, hm⟩, by decide, hloaded⟩
  have honly : ∀ m u, Searched g {} s.files [] m u → u = t := by
    intro m u hu
    obtain ⟨c, hc⟩ := hu.file
    rw [hentry] at hc
    split at hc
    · rename_i hma
      exact Except.ok.inj (hu.loaded.symm.trans (hma ▸ hloaded))
    · rename_i hma
      exact absurd ((hsame m c (ofPath?_isSome_of_accepts hu.accepted)).1 hc).1 hma
  obtain ⟨-, ⟨hexit, -⟩, -, hhits, hscenes⟩ := find_exact g ink met hash size ["a"] "exact"
    .exact rfl none none rfl "json" .json rfl {} [] s hafter hready
  obtain ⟨-, ⟨-, hexit'⟩, -, hhits', -⟩ := find_exact g ink met hash size ["b"] "exact"
    .exact rfl none none rfl "json" .json rfl {} [] s hafter hready
  refine ⟨hready, hready', hexit.2 ⟨_, List.mem_cons_self, ?_⟩, hexit'.2 fun r hr => ?_,
    (hscenes s' hafter' hready').2 fun dirs name c hl => ?_⟩
  · refine List.ne_nil_of_mem (((hhits _ List.mem_cons_self).2 _).2 ⟨["a.py"], t, 1, n, hfound, hn,
      .inl rfl, ?_, rfl⟩)
    rw [hfunction]
    decide
  · refine List.eq_nil_iff_forall_not_mem.2 fun hit hhit => ?_
    obtain ⟨m, u, i, k, hu, hk, -, hmatches, -⟩ := ((hhits' r hr).2 hit).1 hhit
    obtain rfl := honly m u hu
    obtain rfl := List.mem_singleton.1 hr
    have hcalled : k.payload.name = "b" := eq_of_beq hmatches
    rcases name_of_node_naming ht hk with hfile | hfunction'
    · exact absurd (hcalled.symm.trans hfile) (by decide)
    · exact absurd (hcalled.symm.trans hfunction') (by decide)
  · rw [hentry, hentry]
    split
    · rfl
    · rename_i hother
      rw [hsame _ c hl]
      exact ⟨fun ⟨h, _⟩ => absurd h hother, fun h => absurd h (hnoFile _ c)⟩

end Outline
