import Mathlib.Data.List.Pairwise
import Outline.Proofs.Search.Exactness

/-!
# Outline.Proofs.Search.Narrowing

**Every request narrows one list.** What a shard has for a request are those of its stubs that the
request takes (`Shard.hits_eq`), and a snapshot of apart hits commutes with filters
(`snapshot_filter`). So runs of different requests over the same shards are filters of one snapshot
(`hitsFor_eq`), and what is to be said about several runs is said about filters: restricting the
kind keeps the hits of that kind, and a wider strategy keeps more (`search_narrowed`).
-/

namespace Outline

/-! ### Strategies from the strictest to the widest -/

theorem occursIn_of_isPrefixOf {pattern text : List Char} (h : pattern.isPrefixOf text = true) :
    occursIn pattern text = true := by
  cases text with
  | nil => simpa [occursIn] using h
  | cons c text => simp [occursIn, h]

namespace Strategy

variable {name target : String}

/-- A name that is the target begins with it. -/
theorem matchesName_beginning (h : exact.matchesName name target = true) :
    beginning.matchesName name target = true := by
  rw [matchesName, beq_iff_eq] at h
  simp [matchesName, h]

/-- A name that begins with the target contains it. -/
theorem matchesName_anywhere (h : beginning.matchesName name target = true) :
    anywhere.matchesName name target = true :=
  occursIn_of_isPrefixOf h

end Strategy

/-! ### Requests as filters of hits -/

/-- Whether a hit answers the request. -/
def Request.takes (r : Request) (h : Hit) : Bool :=
  r.kind.all (· == h.kind) && r.strategy.matchesName h.name r.target

namespace Request

/-- A request for one kind takes what the unrestricted request takes of that kind. -/
theorem takes_some (target : String) (strategy : Strategy) (k : Kind) :
    takes ⟨target, strategy, some k⟩ =
      fun h => h.kind == k && takes ⟨target, strategy, none⟩ h := by
  funext h
  simp [takes, Bool.beq_comm]

/-- A request takes fewer hits than another if each name that matches for it matches for the
other. -/
theorem sublist_filter_takes {target : String} {strict wide : Strategy}
    (h : ∀ name, strict.matchesName name target = true → wide.matchesName name target = true)
    (kind : Option Kind) (hs : List Hit) :
    (hs.filter (takes ⟨target, strict, kind⟩)).Sublist
      (hs.filter (takes ⟨target, wide, kind⟩)) := by
  refine List.monotone_filter_right hs ?_
  intro k hk
  simp only [takes, Bool.and_eq_true] at hk ⊢
  exact ⟨hk.1, h _ hk.2⟩

/-- So it finds fewer nodes of a tree. -/
theorem scan_sublist {target : String} {strict wide : Strategy}
    (h : ∀ name, strict.matchesName name target = true → wide.matchesName name target = true)
    (kind : Option Kind) (t : Tree) :
    ((⟨target, strict, kind⟩ : Request).scan t).Sublist
      ((⟨target, wide, kind⟩ : Request).scan t) := by
  rw [scan_eq, scan_eq]
  refine List.monotone_filter_right t.preorder ?_
  intro i hi
  obtain ⟨n, hn, haccepts⟩ := (Option.any_eq_true _ _).1 hi
  rw [accepts_iff] at haccepts
  exact (Option.any_eq_true _ _).2 ⟨n, hn, accepts_iff.2 ⟨haccepts.1, h _ haccepts.2⟩⟩

end Request

namespace Shard

/-- The hits for all nodes, in pre-order. -/
def stubs (s : Shard) : List Hit := s.tree.preorder.filterMap s.hit?

/-- The hits for a request are the stubs that it takes. -/
theorem hits_eq (s : Shard) (r : Request) : s.hits r = s.stubs.filter r.takes := by
  rw [hits, stubs, Request.scan_eq, List.filter_filterMap, List.filterMap_filter]
  refine List.filterMap_congr ?_
  intro i _
  cases hn : s.tree.node? i with
  | none => simp [hit?, hn]
  | some n => simp [hit?, hn, Request.takes, Request.accepts, Option.filter]

/-- A request that takes every stub. -/
theorem hits_everything (s : Shard) : s.hits ⟨"", .anywhere, none⟩ = s.stubs := by
  rw [hits_eq, List.filter_eq_self]
  intro k _
  simp [Request.takes, Strategy.matchesName, occursIn_of_isPrefixOf]

theorem apart_flatMap_stubs {shards : List Shard}
    (hfiles : shards.Pairwise fun a b => a.file.same b.file = false) :
    (shards.flatMap stubs).Pairwise Hit.Apart := by
  simpa only [hits_everything] using apart_flatMap_hits hfiles ⟨"", .anywhere, none⟩

end Shard

/-! ### Several runs over the same shards -/

theorem snapshot_filter {hs : List Hit} (h : hs.Pairwise Hit.Apart) (p : Hit → Bool) :
    snapshot (hs.filter p) = (snapshot hs).filter p :=
  Hit.eq_of_perm_of_lt (snapshot_sorted (h.filter p)) ((snapshot_sorted h).filter p)
    ((snapshot_perm (h.filter p)).trans ((snapshot_perm h).filter p).symm)

/-- What a run finds for one of its requests, from what there is. -/
theorem hitsFor_eq {shards : List Shard}
    (hfiles : shards.Pairwise fun a b => a.file.same b.file = false) {rs : List Request}
    {r : Request} (hr : r ∈ rs) :
    (search shards (Plan.ofRequests rs)).hitsFor r.identity =
      (snapshot (shards.flatMap (·.stubs))).filter r.takes := by
  rw [hitsFor_search (Plan.nodup_requests_ofRequests rs) shards (Plan.mem_requests_ofRequests.2 hr),
    ← snapshot_filter (Shard.apart_flatMap_stubs hfiles), List.filter_flatMap]
  simp only [Shard.hits_eq]

/-- Hits sorted by kind are the hits. -/
theorem perm_flatMap_kinds {hs : List Hit} (h : hs.Nodup) :
    (Kind.all.flatMap fun k => hs.filter (·.kind == k)).Perm hs := by
  have hnodup : (Kind.all.flatMap fun k => hs.filter (·.kind == k)).Nodup := by
    refine List.pairwise_flatMap.2 ⟨fun k _ => h.filter _, ?_⟩
    have hkinds : Kind.all.Nodup := by decide
    refine hkinds.imp ?_
    intro k l hkl a ha b hb hab
    simp only [List.mem_filter, beq_iff_eq] at ha hb
    exact hkl (by rw [← ha.2, ← hb.2, hab])
  refine (List.perm_ext_iff_of_nodup hnodup h).2 ?_
  intro a
  have hall : a.kind ∈ Kind.all := by cases a.kind <;> decide
  simp [hall]

/-- **The index and the pre-order agree, and kinds and strategies nest.** A request for one kind
finds in the index of a tree what it would find in the pre-order among the nodes of the kind, in the
same order. Of shards for different files, a run finds for a request the same whatever else is
asked. The hits for one kind are those of the kind among the hits of the unrestricted request; those
for different kinds are at different places, and all of them, merged by file and node, are the hits
of the unrestricted request. For one target and kind, what an exact match finds, a match of the
beginning finds too, and what that finds, a match anywhere finds: in a tree and in a run, in the
same order. -/
theorem search_narrowed (shards : List Shard)
    (hfiles : shards.Pairwise fun a b => a.file.same b.file = false) (target : String) :
    let hits (r : Request) := (search shards (Plan.ofRequests [r])).hitsFor r.identity
    (∀ (t : Tree) (strategy : Strategy) (k : Kind),
      (⟨target, strategy, some k⟩ : Request).scan t = t.preorder.filter fun i =>
        (t.node? i).any fun n => n.kind == k && strategy.matchesName n.payload.name target) ∧
      (∀ rs, ∀ r ∈ rs, (search shards (Plan.ofRequests rs)).hitsFor r.identity = hits r) ∧
      (∀ strategy : Strategy,
        let all := hits ⟨target, strategy, none⟩
        let only (k : Kind) := hits ⟨target, strategy, some k⟩
        (∀ k, only k = all.filter (·.kind == k)) ∧
          (∀ k l, k ≠ l → ∀ a ∈ only k, ∀ b ∈ only l, a.samePlace b = false) ∧
          all.Pairwise (fun a b => a.compare b = .lt) ∧
          all = (Kind.all.flatMap only).mergeSort fun a b => (a.compare b).isLE) ∧
      ∀ kind : Option Kind,
        let found (strategy : Strategy) : Request := ⟨target, strategy, kind⟩
        (∀ t, ((found .exact).scan t).Sublist ((found .beginning).scan t) ∧
          ((found .beginning).scan t).Sublist ((found .anywhere).scan t)) ∧
          (hits (found .exact)).Sublist (hits (found .beginning)) ∧
          (hits (found .beginning)).Sublist (hits (found .anywhere)) := by
  intro hits
  have heq : ∀ r, hits r = (snapshot (shards.flatMap (·.stubs))).filter r.takes :=
    fun r => hitsFor_eq hfiles List.mem_cons_self
  have hapart := Shard.apart_flatMap_stubs hfiles
  refine ⟨?_, ?_, ?_, ?_⟩
  · intro t strategy k
    rw [Request.scan_eq]
    refine List.filter_congr ?_
    intro i _
    cases t.node? i with
    | none => rfl
    | some n => simp [Request.accepts, Bool.beq_comm]
  · intro rs r hr
    rw [heq, hitsFor_eq hfiles hr]
  · intro strategy all only
    have honly : ∀ k, only k = all.filter (·.kind == k) := by
      intro k
      simp only [only, all, heq, List.filter_filter, Request.takes_some]
    have hsorted : all.Pairwise fun a b => a.compare b = .lt := by
      simp only [all, heq]
      exact (snapshot_sorted hapart).filter _
    have hapart' : all.Pairwise Hit.Apart := hsorted.imp Hit.apart_of_lt
    refine ⟨honly, ?_, hsorted, ?_⟩
    · intro k l hkl a ha b hb
      rw [honly, List.mem_filter, beq_iff_eq] at ha hb
      have : Std.Symm Hit.Apart := ⟨fun _ _ => Hit.Apart.symm⟩
      refine hapart'.forall ha.1 hb.1 ?_
      intro hab
      exact hkl (by rw [← ha.2, ← hb.2, hab])
    · have hnodup : all.Nodup := hsorted.imp Hit.ne_of_lt
      have hperm : (Kind.all.flatMap only).Perm all := by
        have honly' : only = fun k => all.filter (·.kind == k) := funext honly
        rw [honly']
        exact perm_flatMap_kinds hnodup
      have honlyapart := hperm.symm.pairwise hapart' Hit.Apart.symm
      rw [← snapshot_eq_mergeSort honlyapart]
      exact Hit.eq_of_perm_of_lt hsorted (snapshot_sorted honlyapart)
        ((snapshot_perm honlyapart).trans hperm).symm
  · intro kind found
    have hbeginning : ∀ name, Strategy.exact.matchesName name target = true →
        Strategy.beginning.matchesName name target = true :=
      fun _ => Strategy.matchesName_beginning
    have hanywhere : ∀ name, Strategy.beginning.matchesName name target = true →
        Strategy.anywhere.matchesName name target = true :=
      fun _ => Strategy.matchesName_anywhere
    refine ⟨?_, ?_, ?_⟩
    · intro t
      exact ⟨Request.scan_sublist hbeginning kind t, Request.scan_sublist hanywhere kind t⟩
    · rw [heq, heq]
      exact Request.sublist_filter_takes hbeginning kind _
    · rw [heq, heq]
      exact Request.sublist_filter_takes hanywhere kind _

/-- Two files with the same declarations; the target is the name of one of them and begins the
other. -/
theorem search_narrowed_two :
    let es : List Entry := [⟨.file, ⟨"a.py", .empty⟩, 0⟩, ⟨.function, ⟨"f", .empty⟩, 1⟩,
      ⟨.classType, ⟨"fg", .empty⟩, 1⟩]
    ∃ t, Tree.ofEntries es = .ok t ∧
      let shards : List Shard := [⟨⟨"b.py"⟩, t⟩, ⟨⟨"a.py"⟩, t⟩]
      let hits (r : Request) := (search shards (Plan.ofRequests [r])).hitsFor r.identity
      (shards.Pairwise fun a b => a.file.same b.file = false) ∧
        hits ⟨"f", .beginning, some .classType⟩ =
          (hits ⟨"f", .beginning, none⟩).filter (·.kind == .classType) ∧
        (hits ⟨"f", .exact, none⟩).Sublist (hits ⟨"f", .beginning, none⟩) := by
  intro es
  have hnested : Nested es := nested_iff.2 ⟨List.cons_ne_nil _ _, by unfold Faultless; decide⟩
  rcases ofEntries_cases es with ⟨-, t, ht, -⟩ | ⟨fault, -, hfault⟩
  · refine ⟨t, ht, ?_⟩
    intro shards hits
    have hfiles : shards.Pairwise fun a b => a.file.same b.file = false :=
      List.pairwise_pair.2 (by show Path.same ⟨"b.py"⟩ ⟨"a.py"⟩ = false; decide)
    obtain ⟨-, -, hkinds, hstrategies⟩ := search_narrowed shards hfiles "f"
    exact ⟨hfiles, (hkinds .beginning).1 .classType, (hstrategies none).2.1⟩
  · exact absurd hnested hfault.not_nested

end Outline
