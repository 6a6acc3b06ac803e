import Mathlib.Data.List.Perm.Basic
import Outline.Proofs.Path.Order
import Outline.Proofs.Search.Requests
import Outline.Proofs.Search.Tally
import Outline.Proofs.Tree.Nesting

/-!
# Outline.Proofs.Search.Exactness

**A search finds what its requests ask for, and nothing else.** The hits of the shards for a
request reach its group unmixed (`groups_search`). The hits of shards for different files are apart,
so the snapshot drops none of them and sorts them strictly (`snapshot_perm`, `snapshot_sorted`). A
strictly sorted list is determined by its members, so the order of the shards does not matter
(`search_exact`).

Hits are compared by place, which is the file and the node. In a shard no two hits are at one place,
since a request finds a node once; and shards are for different files. So nothing that happens to
hits on the way, which is appending, sorting and dropping, can lose or merge any of them.
-/

namespace Outline

/-! ### Snapshots of hits that are apart

A snapshot sorts and then drops repeated places. Apart hits are a special case in which dropping
does nothing; what a snapshot is in general is told in Search/Snapshots. -/

namespace Hit

theorem compare_eq_compareLex :
    compare = compareLex (fun a b => a.file.compare b.file) (compareOn node) := rfl

instance : Std.TransCmp compare := by
  have : Std.TransCmp fun a b : Hit => a.file.compare b.file := transCmp_on file
  exact compare_eq_compareLex ▸ inferInstance

theorem compare_eq_iff {a b : Hit} : a.compare b = .eq ↔ a.samePlace b = true := by
  rw [compare, samePlace, Ordering.then_eq_eq, Path.compare_eq_iff, Bool.and_eq_true, beq_iff_eq,
    Nat.compare_eq_eq]

/-- Two hits are at different places. -/
def Apart (a b : Hit) : Prop := a.samePlace b = false

theorem apart_iff {a b : Hit} :
    Apart a b ↔ a.file.same b.file = false ∨ a.node ≠ b.node := by
  rw [Apart, samePlace, Bool.and_eq_false_iff, beq_eq_false_iff_ne]

theorem Apart.symm {a b : Hit} (h : Apart a b) : Apart b a := by
  rw [apart_iff] at h ⊢
  rw [Path.same_comm]
  exact h.imp_right Ne.symm

/-- Of two hits that are apart and in order, the first is strictly before the second. -/
theorem Apart.lt {a b : Hit} (h : Apart a b) (hle : (a.compare b).isLE = true) :
    a.compare b = .lt := by
  cases hc : a.compare b with
  | lt => rfl
  | eq =>
      rw [compare_eq_iff, h] at hc
      cases hc
  | gt =>
      rw [hc] at hle
      cases hle

/-- Of two hits at one place, none is strictly before the other. -/
theorem apart_of_lt {a b : Hit} (h : a.compare b = .lt) : Apart a b := by
  refine Bool.eq_false_iff.2 ?_
  intro hsame
  rw [compare_eq_iff.2 hsame] at h
  cases h

theorem ne_of_lt {a b : Hit} (h : a.compare b = .lt) : a ≠ b := by
  rintro rfl
  rw [compare_eq_iff.2 (by simp [samePlace, Path.same])] at h
  cases h

end Hit

/-- Strictly sorted hits are determined by what they are. -/
theorem Hit.eq_of_perm_of_lt {hs hs' : List Hit} (h : hs.Pairwise fun a b => a.compare b = .lt)
    (h' : hs'.Pairwise fun a b => a.compare b = .lt) (hperm : hs.Perm hs') : hs = hs' := by
  refine List.Perm.eq_of_pairwise ?_ h h' hperm
  intro a b _ _ hab hba
  rw [Std.OrientedCmp.gt_of_lt hab] at hba
  cases hba

theorem dropRepeated_of_apart {hs : List Hit} (h : hs.Pairwise Hit.Apart) :
    dropRepeated hs = hs := by
  induction hs with
  | nil => rw [dropRepeated]
  | cons a hs ih =>
      obtain ⟨ha, hrest⟩ := List.pairwise_cons.1 h
      -- nothing behind the first hit is at its place, so nothing is dropped
      have hkept : hs.dropWhile a.samePlace = hs := by
        cases hs with
        | nil => rfl
        | cons b hs => rw [List.dropWhile_cons, ha b List.mem_cons_self, if_neg Bool.false_ne_true]
      rw [dropRepeated, hkept, ih hrest]

/-- The hits of a group in a snapshot. -/
def snapshot (hs : List Hit) : List Hit :=
  dropRepeated (hs.mergeSort fun a b => (a.compare b).isLE)

theorem groups_freeze (t : Tally) :
    t.freeze.groups = t.order.map fun i => (i, snapshot (t.hitsFor i)) := rfl

section

variable {hs hs' : List Hit} (h : hs.Pairwise Hit.Apart)

include h

theorem snapshot_eq_mergeSort :
    snapshot hs = hs.mergeSort fun a b => (a.compare b).isLE :=
  dropRepeated_of_apart ((List.mergeSort_perm hs _).symm.pairwise h Hit.Apart.symm)

theorem snapshot_perm : (snapshot hs).Perm hs := by
  rw [snapshot_eq_mergeSort h]
  exact List.mergeSort_perm hs _

theorem snapshot_sorted : (snapshot hs).Pairwise fun a b => a.compare b = .lt := by
  -- sorting moves hits about, and they stay apart
  have hapart := (snapshot_perm h).symm.pairwise h Hit.Apart.symm
  have hle : (snapshot hs).Pairwise fun a b => (a.compare b).isLE = true := by
    rw [snapshot_eq_mergeSort h]
    exact List.pairwise_mergeSort (fun _ _ _ => Std.TransCmp.isLE_trans) isLE_total hs
  exact (hapart.and hle).imp fun hab => hab.1.lt hab.2

/-- The order in which the hits were gathered does not show in a snapshot. -/
theorem snapshot_eq_of_perm (hperm : hs.Perm hs') : snapshot hs = snapshot hs' := by
  have h' : hs'.Pairwise Hit.Apart := hperm.pairwise h Hit.Apart.symm
  exact Hit.eq_of_perm_of_lt (snapshot_sorted h) (snapshot_sorted h')
    ((snapshot_perm h).trans (hperm.trans (snapshot_perm h').symm))

end

/-! ### The hits of shards

One shard is scanned for all requests of a plan, one after another. As the identities of the
requests differ, what is found for one is entered where no other is looked up. -/

namespace Shard

theorem mem_hits {s : Shard} {r : Request} {h : Hit} : h ∈ s.hits r ↔
    ∃ i n, s.tree.node? i = some n ∧ r.accepts n = true ∧
      h = ⟨s.file, i, n.kind, n.payload.name, n.payload.line?⟩ := by
  simp only [hits, List.mem_filterMap, Request.mem_scan, hit?, Option.map_eq_some_iff]
  constructor
  · rintro ⟨i, ⟨n, hn, haccepts⟩, m, hm, rfl⟩
    rw [hn] at hm
    cases hm
    exact ⟨i, n, hn, haccepts, rfl⟩
  · rintro ⟨i, n, hn, haccepts, rfl⟩
    exact ⟨i, ⟨n, hn, haccepts⟩, n, hn, rfl⟩

theorem apart_hits (s : Shard) (r : Request) : (s.hits r).Pairwise Hit.Apart := by
  refine List.pairwise_filterMap.2 ((r.nodup_scan s.tree).imp fun hij a ha b hb => ?_)
  obtain ⟨n, -, rfl⟩ := Option.map_eq_some_iff.1 ha
  obtain ⟨m, -, rfl⟩ := Option.map_eq_some_iff.1 hb
  exact Hit.apart_iff.2 (.inr hij)

/-- The hits of shards for different files are apart. -/
theorem apart_flatMap_hits {shards : List Shard}
    (hfiles : shards.Pairwise fun a b => a.file.same b.file = false) (r : Request) :
    (shards.flatMap (·.hits r)).Pairwise Hit.Apart := by
  refine List.pairwise_flatMap.2 ⟨fun s _ => s.apart_hits r, hfiles.imp fun hab x hx y hy => ?_⟩
  obtain ⟨_, _, -, -, rfl⟩ := mem_hits.1 hx
  obtain ⟨_, _, -, -, rfl⟩ := mem_hits.1 hy
  exact Hit.apart_iff.2 (.inl hab)

/-- Entering the hits for some requests adds to each request what is found for it. -/
theorem hitsFor_foldl_hits (s : Shard) {rs : List Request} (h : rs.Nodup) (t : Tally)
    (r : Request) :
    (rs.foldl (fun t r => (s.hits r).foldl (fun t h => t.add r.identity h) t) t).hitsFor
        r.identity = t.hitsFor r.identity ++ if r ∈ rs then s.hits r else [] := by
  induction rs generalizing t with
  | nil => exact (List.append_nil _).symm
  | cons q rs ih =>
      obtain ⟨hq, hrs⟩ := List.nodup_cons.1 h
      rw [List.foldl_cons, ih hrs, Tally.hitsFor_foldl_add]
      -- either this is the request, and then it does not come again, or its hits go elsewhere
      by_cases hrq : r = q
      · subst hrq
        simp [hq]
      · simp [hrq, Request.identity_injective.ne hrq]

theorem of_mem_order_foldl_hits {s : Shard} {rs : List Request} {t : Tally} {i : Identity}
    (hi : i ∈ (rs.foldl (fun t r => (s.hits r).foldl (fun t h => t.add r.identity h) t) t).order) :
    i ∈ t.order ∨ i ∈ rs.map (·.identity) := by
  induction rs generalizing t with
  | nil => exact .inl hi
  | cons q rs ih =>
      rw [List.map_cons, List.mem_cons]
      rcases ih hi with hi | hi
      · exact (Tally.of_mem_order_foldl_add hi).imp_right .inl
      · exact .inr (.inr hi)

/-- The tally of a shard for a plan has for each request the hits for it. -/
theorem hitsFor_tally (s : Shard) {p : Plan} (hp : p.requests.Nodup) {r : Request}
    (hr : r ∈ p.requests) : (s.tally p).hitsFor r.identity = s.hits r := by
  rw [tally, s.hitsFor_foldl_hits hp, if_pos hr, Tally.hitsFor_of_notMem List.not_mem_nil,
    List.nil_append]

theorem of_mem_order_tally {s : Shard} {p : Plan} {i : Identity} (hi : i ∈ (s.tally p).order) :
    i ∈ p.requests.map (·.identity) :=
  (of_mem_order_foldl_hits hi).resolve_left List.not_mem_nil

end Shard

/-! ### The groups of a search

A search begins with the groups of the plan, all without hits, and merges the tallies of the shards
into them. So the groups and their order are those of the plan, whatever the shards have. -/

section

variable {p : Plan} (hp : p.requests.Nodup) (shards : List Shard)

include hp

/-- Each request of a plan has its group, with the hits of all shards for it. -/
theorem groups_search : (search shards p).groups =
    p.requests.map fun r => (r.identity, snapshot (shards.flatMap (·.hits r))) := by
  have hids : (p.requests.map (·.identity)).Nodup := hp.map Request.identity_injective
  -- no shard brings in an identity that the plan has not
  have horder : ((Tally.forPlan p).merge
      ((shards.map (·.tally p)).foldl Tally.merge .empty)).order =
      p.requests.map (·.identity) := by
    rw [Tally.order_merge, Tally.order_forPlan hids, List.filter_eq_nil_iff.2, List.append_nil]
    intro i hi
    obtain ⟨t, ht, hit⟩ := (Tally.mem_order_foldl_merge.1 hi).resolve_left List.not_mem_nil
    obtain ⟨s, -, rfl⟩ := List.mem_map.1 ht
    simp only [Shard.of_mem_order_tally hit, not_true_eq_false, decide_false, Bool.false_eq_true,
      not_false_eq_true]
  rw [search, groups_freeze, horder, List.map_map]
  refine List.map_congr_left fun r hr => ?_
  rw [Function.comp_apply, Tally.hitsFor_merge, Tally.hitsFor_forPlan hids, List.nil_append,
    Tally.hitsFor_foldl_merge, Tally.hitsFor_of_notMem List.not_mem_nil, List.nil_append,
    List.flatMap_map]
  simp only [Shard.hitsFor_tally _ hp hr]

theorem hitsFor_search {r : Request} (hr : r ∈ p.requests) :
    (search shards p).hitsFor r.identity = snapshot (shards.flatMap (·.hits r)) := by
  obtain ⟨q, hq⟩ : ∃ q, p.requests.find? (fun q => q.identity == r.identity) = some q :=
    Option.isSome_iff_exists.1 (List.find?_isSome.2 ⟨r, hr, beq_self_eq_true _⟩)
  have hsame : (q.identity == r.identity) = true := by simpa using List.find?_some hq
  -- the group that is found first is that of the request, for its identity is its own
  obtain rfl := Request.identity_injective (eq_of_beq hsame)
  have hfind : p.requests.find? ((·.1 == q.identity) ∘ fun r =>
      (r.identity, snapshot (shards.flatMap (·.hits r)))) = some q := hq
  rw [Results.hitsFor, groups_search hp, List.find?_map, hfind]
  rfl

end

/-- **A search finds what its requests ask for, and nothing else.** The shards are for different
files. The results have one group for each request that was submitted, in the order of first
submission and also if it is without hits. The group has exactly the declarations of the shards that
answer the request, strictly sorted by file and node, and each hit tells what its declaration says.
The order of the shards makes no difference. -/
theorem search_exact (shards : List Shard)
    (hfiles : shards.Pairwise fun a b => a.file.same b.file = false) (rs : List Request) :
    let found := search shards (Plan.ofRequests rs)
    found.groups = rs.eraseDups.map (fun r => (r.identity, found.hitsFor r.identity)) ∧
      (found.groups.map (·.1)).Nodup ∧
      (∀ r r' : Request, r.identity = r'.identity ↔
        r.target = r'.target ∧ r.strategy = r'.strategy ∧ r.kind = r'.kind) ∧
      (∀ r ∈ rs, (found.hitsFor r.identity).Pairwise (fun a b => a.compare b = .lt) ∧
        ∀ h, h ∈ found.hitsFor r.identity ↔ ∃ s ∈ shards, ∃ i n, s.tree.node? i = some n ∧
          (r.kind = none ∨ r.kind = some n.kind) ∧
          r.strategy.matchesName n.payload.name r.target = true ∧
          h = ⟨s.file, i, n.kind, n.payload.name, n.payload.line?⟩) ∧
      ∀ shards', shards.Perm shards' → search shards' (Plan.ofRequests rs) = found := by
  intro found
  have hp := Plan.nodup_requests_ofRequests rs
  have hgroups := groups_search hp shards
  have hapart := fun r => Shard.apart_flatMap_hits hfiles r
  refine ⟨?_, ?_, fun r r' => ?_, fun r hr => ?_, fun shards' hperm => ?_⟩
  · rw [← Plan.requests_ofRequests, show found.groups = _ from hgroups]
    refine List.map_congr_left fun r hr => ?_
    rw [show found.hitsFor r.identity = _ from hitsFor_search hp shards hr]
  · rw [show found.groups = _ from hgroups, List.map_map]
    exact hp.map Request.identity_injective
  · cases r
    cases r'
    rw [Request.identity_injective.eq_iff, Request.mk.injEq]
  · have hhits : found.hitsFor r.identity = _ :=
      hitsFor_search hp shards (Plan.mem_requests_ofRequests.2 hr)
    rw [hhits]
    refine ⟨snapshot_sorted (hapart r), fun h => ?_⟩
    simp only [(snapshot_perm (hapart r)).mem_iff, List.mem_flatMap, Shard.mem_hits,
      Request.accepts_iff, and_assoc]
  -- for each request the same hits are gathered in another order, which a snapshot forgets
  · have hsame : (search shards' (Plan.ofRequests rs)).groups = found.groups := by
      rw [show found.groups = _ from hgroups, groups_search hp]
      refine List.map_congr_left fun r _ => ?_
      rw [snapshot_eq_of_perm (hapart r) (hperm.flatMap_right _)]
    exact congrArg Results.mk hsame

/-- Two files with the same declarations, and a request that is submitted twice. -/
theorem search_exact_two :
    let es : List Entry := [⟨.file, ⟨"a.py", .empty⟩, 0⟩, ⟨.function, ⟨"f", .empty⟩, 1⟩]
    let r : Request := ⟨"f", .exact, none⟩
    let q : Request := ⟨"f", .beginning, some .method⟩
    ∃ t, Tree.ofEntries es = .ok t ∧
      let shards : List Shard := [⟨⟨"b.py"⟩, t⟩, ⟨⟨"a.py"⟩, t⟩]
      let found := search shards (Plan.ofRequests [r, q, r])
      (shards.Pairwise fun a b => a.file.same b.file = false) ∧
        found.groups.map (·.1) = [r.identity, q.identity] ∧
        ⟨⟨"a.py"⟩, 1, .function, "f", none⟩ ∈ found.hitsFor r.identity ∧
        search shards.reverse (Plan.ofRequests [r, q, r]) = found := by
  intro es r q
  have hnested : Nested es := nested_iff.2 ⟨List.cons_ne_nil _ _, by unfold Faultless; decide⟩
  rcases ofEntries_cases es with ⟨-, t, ht, hes⟩ | ⟨fault, -, hfault⟩
  · refine ⟨t, ht, ?_⟩
    intro shards found
    have hfiles : shards.Pairwise fun a b => a.file.same b.file = false :=
      List.pairwise_pair.2 (by show Path.same ⟨"b.py"⟩ ⟨"a.py"⟩ = false; decide)
    obtain ⟨hgroups, -, -, hhits, hperm⟩ := search_exact shards hfiles [r, q, r]
    obtain ⟨⟨kind, payload, parent, below⟩, hn, rfl, rfl⟩ := hes.node 1 _ rfl
    refine ⟨hfiles, ?_, ?_, hperm _ (List.reverse_perm shards).symm⟩
    · rw [show found.groups = _ from hgroups, List.map_map]
      rfl
    -- the name is the target, so the function of the second shard is a hit
    · have hmatches : Strategy.exact.matchesName "f" "f" = true := by decide
      exact ((hhits r List.mem_cons_self).2 _).2 ⟨⟨⟨"a.py"⟩, t⟩,
        List.mem_cons_of_mem _ List.mem_cons_self, 1, _, hn, .inl rfl, hmatches, rfl⟩
  · exact absurd hnested hfault.not_nested

end Outline
