import Mathlib.Data.Finset.Card
import Mathlib.Data.Finset.Dedup
import Outline.Proofs.Search.Exactness

/-!
# Outline.Proofs.Search.Snapshots

**A snapshot keeps the first hit at each place.** Sorting is stable, so at each place the hits stand
in the order in which they were gathered (`find?_mergeSort`), and next to each other, so that
dropping those at the place of the one before leaves the first of them (`mem_dropRepeated`). How a
tally was filled is a tree of additions and merges (`Filling`), which says in which order identities
were seen and hits were added. Of that nothing shows in the snapshot but which hit was the first at
its place (`snapshot_exact`).

So the order of hits, of which the sorting and the dropping make much, is described by one thing:
for each hit, which is the first at its place (`find? (·.samePlace k)`). Two lists that agree on
that have one snapshot (`snapshot_congr`), and `find?` goes through appending and filtering by
lemmas that exist.
-/

namespace Outline

/-! ### Places

Two spellings of a file are one place, so places are compared by components and not by texts. -/

namespace Hit

/-- The place of a hit: the components of its file, and its node. -/
def place (h : Hit) : List Component × NodeId := (h.file.components, h.node)

theorem samePlace_iff {a b : Hit} : a.samePlace b = true ↔ a.place = b.place := by
  simp [samePlace, Path.same, place]

/-- Two hits are in order. -/
def Le (a b : Hit) : Prop := (a.compare b).isLE = true

end Hit

/-! ### Sorting

`mergeSort` is stable; a sublist that is sorted already keeps its order. The hits at one place are
such a sublist, for all of them are equal in the order. -/

/-- Sorted hits are in order. -/
theorem pairwise_le_mergeSort (hs : List Hit) :
    (hs.mergeSort fun a b => (a.compare b).isLE).Pairwise Hit.Le :=
  List.pairwise_mergeSort (fun _ _ _ => Std.TransCmp.isLE_trans) isLE_total hs

/-- Sorting leaves the hits at one place in their order. -/
theorem filter_mergeSort (hs : List Hit) (k : Hit) :
    (hs.mergeSort fun a b => (a.compare b).isLE).filter (·.samePlace k) =
      hs.filter (·.samePlace k) := by
  have hsame : (hs.filter (·.samePlace k)).Pairwise Hit.Le := by
    refine List.pairwise_of_forall_mem_list ?_
    intro a ha b hb
    have hab : a.place = b.place := by
      rw [Hit.samePlace_iff.1 (List.mem_filter.1 ha).2,
        Hit.samePlace_iff.1 (List.mem_filter.1 hb).2]
    rw [Hit.Le, Hit.compare_eq_iff.2 (Hit.samePlace_iff.2 hab)]
    rfl
  have hkept : (hs.filter (·.samePlace k)).Sublist (hs.mergeSort fun a b => (a.compare b).isLE) :=
    List.sublist_mergeSort (fun _ _ _ => Std.TransCmp.isLE_trans) isLE_total hsame
      List.filter_sublist
  have hsub := hkept.filter (·.samePlace k)
  rw [List.filter_filter] at hsub
  simp only [Bool.and_self] at hsub
  exact (hsub.eq_of_length ((List.mergeSort_perm hs _).filter _).length_eq.symm).symm

/-- Sorting leaves the first hit at a place the first. -/
theorem find?_mergeSort (hs : List Hit) (k : Hit) :
    (hs.mergeSort fun a b => (a.compare b).isLE).find? (·.samePlace k) =
      hs.find? (·.samePlace k) := by
  rw [← List.head?_filter, ← List.head?_filter, filter_mergeSort]

/-! ### Dropping what is repeated

`dropRepeated` keeps a hit and drops what follows it at its place. In sorted hits all at that place
follow, so none is left behind; the inductions are along the function. -/

/-- In sorted hits, those behind the place of the first are strictly after it. -/
theorem lt_of_mem_dropWhile {a k : Hit} {hs : List Hit} (h : (a :: hs).Pairwise Hit.Le)
    (hk : k ∈ hs.dropWhile a.samePlace) : a.compare k = .lt := by
  obtain ⟨ha, hs'⟩ := List.pairwise_cons.1 h
  cases hrest : hs.dropWhile a.samePlace with
  | nil =>
      rw [hrest] at hk
      cases hk
  | cons b rest =>
      have hsub := List.dropWhile_sublist (l := hs) a.samePlace
      rw [hrest] at hk hsub
      -- the first that is not dropped is at another place and not before `a`
      have hapart : Hit.Apart a b := by
        have hnot := List.head_dropWhile_not (l := hs) a.samePlace (by simp [hrest])
        simpa [Hit.Apart, hrest] using hnot
      have hab : a.compare b = .lt := hapart.lt (ha b (hsub.subset List.mem_cons_self))
      rcases List.mem_cons.1 hk with rfl | hk
      · exact hab
      · have hbk : Hit.Le b k := (List.pairwise_cons.1 (hs'.sublist hsub)).1 k hk
        exact Std.TransCmp.lt_of_lt_of_isLE hab hbk

/-- Hits are only dropped. -/
theorem dropRepeated_sublist (hs : List Hit) : (dropRepeated hs).Sublist hs := by
  fun_induction dropRepeated hs with
  | case1 => exact .slnil
  | case2 a hs ih => exact (ih.trans (List.dropWhile_sublist _)).cons_cons a

/-- Of sorted hits, what is left is strictly sorted. -/
theorem pairwise_dropRepeated {hs : List Hit} (h : hs.Pairwise Hit.Le) :
    (dropRepeated hs).Pairwise fun a b => a.compare b = .lt := by
  fun_induction dropRepeated hs with
  | case1 => exact .nil
  | case2 a hs ih =>
      have hrest := (List.pairwise_cons.1 h).2.sublist (List.dropWhile_sublist a.samePlace)
      refine List.pairwise_cons.2 ⟨?_, ih hrest⟩
      intro k hk
      exact lt_of_mem_dropWhile h ((dropRepeated_sublist _).subset hk)

/-- Of sorted hits, what is left are those that are the first at their place. -/
theorem mem_dropRepeated {hs : List Hit} (h : hs.Pairwise Hit.Le) {k : Hit} :
    k ∈ dropRepeated hs ↔ hs.find? (·.samePlace k) = some k := by
  fun_induction dropRepeated hs with
  | case1 => simp
  | case2 a hs ih =>
      have hrest := (List.pairwise_cons.1 h).2.sublist (List.dropWhile_sublist a.samePlace)
      rw [List.mem_cons, ih hrest, List.find?_cons]
      by_cases hak : a.samePlace k = true
      · -- the hits behind the place of `a` are at other places than `k`
        have hnone : (hs.dropWhile a.samePlace).find? (·.samePlace k) ≠ some k := by
          intro hfind
          have hlt := lt_of_mem_dropWhile h (List.mem_of_find?_eq_some hfind)
          rw [Hit.compare_eq_iff.2 hak] at hlt
          cases hlt
        simp [hak, hnone, eq_comm]
      · -- and those at the place of `a` are not at that of `k`
        have hskip : hs.find? (·.samePlace k) =
            (hs.dropWhile a.samePlace).find? (·.samePlace k) := by
          conv_lhs => rw [← List.takeWhile_append_dropWhile (p := a.samePlace) (l := hs)]
          rw [List.find?_append, List.find?_eq_none.2 ?_, Option.none_or]
          intro b hb hbk
          have hab : a.samePlace b = true := List.all_eq_true.1 (List.all_takeWhile ..) b hb
          rw [Hit.samePlace_iff] at hab hbk
          exact hak (Hit.samePlace_iff.2 (hab.trans hbk))
        have hne : k ≠ a := by
          rintro rfl
          exact hak (Hit.samePlace_iff.2 rfl)
        simp [hak, hskip, hne]

/-! ### Snapshots

A snapshot sorts and drops. These are the facts by which it is known from here on. -/

/-- A snapshot is strictly sorted. -/
theorem pairwise_snapshot (hs : List Hit) :
    (snapshot hs).Pairwise fun a b => a.compare b = .lt :=
  pairwise_dropRepeated (pairwise_le_mergeSort hs)

/-- A snapshot has the hits that were gathered first at their places. -/
theorem mem_snapshot {hs : List Hit} {k : Hit} :
    k ∈ snapshot hs ↔ hs.find? (·.samePlace k) = some k := by
  rw [snapshot, mem_dropRepeated (pairwise_le_mergeSort hs), find?_mergeSort]

/-- A snapshot has a hit at each place where a hit was gathered, and at no others. -/
theorem mem_map_place_snapshot {hs : List Hit} {x : List Component × NodeId} :
    x ∈ (snapshot hs).map Hit.place ↔ x ∈ hs.map Hit.place := by
  simp only [List.mem_map]
  constructor
  · rintro ⟨k, hk, rfl⟩
    exact ⟨k, List.mem_of_find?_eq_some (mem_snapshot.1 hk), rfl⟩
  · rintro ⟨k, hk, rfl⟩
    obtain ⟨a, ha⟩ : ∃ a, hs.find? (·.samePlace k) = some a :=
      Option.isSome_iff_exists.1 (List.find?_isSome.2 ⟨k, hk, Hit.samePlace_iff.2 rfl⟩)
    have hplace : a.place = k.place := Hit.samePlace_iff.1 (by simpa using List.find?_some ha)
    refine ⟨a, mem_snapshot.2 ?_, hplace⟩
    have hsame : (·.samePlace a) = fun b : Hit => b.samePlace k := by
      funext b
      rw [Bool.eq_iff_iff, Hit.samePlace_iff, Hit.samePlace_iff, hplace]
    rw [hsame, ha]

/-- No two hits of a snapshot are at one place. -/
theorem nodup_map_place_snapshot (hs : List Hit) : ((snapshot hs).map Hit.place).Nodup := by
  refine List.pairwise_map.2 ((pairwise_snapshot hs).imp ?_)
  intro a b hlt hab
  exact absurd (Hit.samePlace_iff.2 hab) (Bool.eq_false_iff.1 (Hit.apart_of_lt hlt))

/-- Snapshots of lists with the same hit first at each place are the same. -/
theorem snapshot_congr {hs hs' : List Hit}
    (h : ∀ k : Hit, hs.find? (·.samePlace k) = hs'.find? (·.samePlace k)) :
    snapshot hs = snapshot hs' := by
  -- both have the same hits, and there is only one strictly sorted list of them
  have hmem : ∀ k, k ∈ snapshot hs ↔ k ∈ snapshot hs' := by
    intro k
    rw [mem_snapshot, mem_snapshot, h]
  have hnodup : ∀ hs, (snapshot hs).Nodup := fun hs => (nodup_map_place_snapshot hs).of_map _
  exact Hit.eq_of_perm_of_lt (pairwise_snapshot hs) (pairwise_snapshot hs')
    ((List.perm_ext_iff_of_nodup (hnodup hs) (hnodup hs')).2 hmem)

/-- A hit at a place where one was gathered before does not show, whatever is gathered besides. -/
theorem snapshot_again {hs : List Hit} {k : Hit} (h : ∃ a ∈ hs, a.samePlace k = true)
    (before behind : List Hit) :
    snapshot (before ++ (hs ++ [k]) ++ behind) = snapshot (before ++ hs ++ behind) := by
  refine snapshot_congr ?_
  intro j
  have hagain : (hs ++ [k]).find? (·.samePlace j) = hs.find? (·.samePlace j) := by
    rw [List.find?_append]
    by_cases hkj : k.samePlace j = true
    · obtain ⟨a, ha, hak⟩ := h
      rw [Hit.samePlace_iff] at hak hkj
      have hsome : (hs.find? (·.samePlace j)).isSome :=
        List.find?_isSome.2 ⟨a, ha, Hit.samePlace_iff.2 (hak.trans hkj)⟩
      obtain ⟨b, hb⟩ := Option.isSome_iff_exists.1 hsome
      simp [hb]
    · simp [hkj]
  rw [List.find?_append, List.find?_append, hagain, List.find?_append, List.find?_append]

/-- The hits of a frozen tally are the snapshots of its hits, also where it has no group. -/
theorem hitsFor_freeze (t : Tally) (i : Identity) :
    t.freeze.hitsFor i = snapshot (t.hitsFor i) := by
  rw [Results.hitsFor, groups_freeze, List.find?_map]
  by_cases hi : i ∈ t.order
  · obtain ⟨j, hj⟩ : ∃ j, t.order.find? (· == i) = some j :=
      Option.isSome_iff_exists.1 (List.find?_isSome.2 ⟨i, hi, beq_self_eq_true i⟩)
    have hij : j = i := by simpa using List.find?_some hj
    subst hij
    have hfind : t.order.find? ((·.1 == j) ∘ fun i => (i, snapshot (t.hitsFor i))) = some j := hj
    rw [hfind]
    rfl
  · have hnone : t.order.find? ((·.1 == i) ∘ fun i => (i, snapshot (t.hitsFor i))) = none := by
      simp only [List.find?_eq_none, Function.comp_apply, beq_iff_eq]
      rintro j hj rfl
      exact hi hj
    have hempty : snapshot [] = [] := by
      rw [snapshot, List.mergeSort_nil, dropRepeated]
    rw [hnone, Tally.hitsFor_of_notMem hi, hempty]
    rfl

namespace Tally

/-- Who has hits is listed. -/
theorem mem_order_of_mem_hitsFor {t : Tally} {i : Identity} {h : Hit} (hh : h ∈ t.hitsFor i) :
    i ∈ t.order := by
  by_contra hi
  rw [hitsFor_of_notMem hi] at hh
  cases hh

/-- Of a tally, its order and the snapshots of its hits show. -/
theorem freeze_congr {t t' : Tally} (horder : t.order = t'.order)
    (hhits : ∀ i, snapshot (t.hitsFor i) = snapshot (t'.hitsFor i)) : t.freeze = t'.freeze := by
  have hgroups : t.freeze.groups = t'.freeze.groups := by
    simp only [groups_freeze, horder, hhits]
  exact congrArg Results.mk hgroups

/-- A hit at a place where there is one does not show, whatever is merged around it. -/
theorem freeze_add_again {t : Tally} {i : Identity} {h : Hit}
    (hh : ∃ k ∈ t.hitsFor i, k.samePlace h = true) : (t.add i h).freeze = t.freeze ∧
      ∀ a b : Tally, ((a.merge (t.add i h)).merge b).freeze = ((a.merge t).merge b).freeze := by
  have horder : (t.add i h).order = t.order := by
    obtain ⟨k, hk, -⟩ := hh
    rw [add, order_extend, if_pos (mem_order_of_mem_hitsFor hk)]
  -- the hit is added somewhere in the middle of what is merged in the end
  have hhits : ∀ j before behind, snapshot (before ++ (t.add i h).hitsFor j ++ behind) =
      snapshot (before ++ t.hitsFor j ++ behind) := by
    intro j before behind
    rw [add, hitsFor_extend]
    by_cases hji : j = i
    · rw [if_pos hji, hji, snapshot_again hh]
    · rw [if_neg hji, List.append_nil]
  constructor
  · refine freeze_congr horder ?_
    intro j
    simpa using hhits j [] []
  · intro a b
    refine freeze_congr ?_ ?_
    · simp only [order_merge, horder]
    · intro j
      rw [hitsFor_merge, hitsFor_merge, hitsFor_merge, hitsFor_merge, hhits]

end Tally

/-! ### Ways to fill a tally

A tally can be filled in many ways, on many threads. A `Filling` is the record of one of them; what
it is seen and added in order is computed beside the tally, and two inductions over the record say
that the tally has just that (`order_tally`, `hitsFor_tally`). -/

/-- How a tally was filled: from nothing or with the groups of a plan, by additions and merges. -/
inductive Filling where
  | nothing
  | plan (p : Plan)
  | add (x : Filling) (i : Identity) (h : Hit)
  | merge (x y : Filling)

namespace Filling

/-- The tally that is filled. -/
def tally : Filling → Tally
  | nothing => .empty
  | plan p => .forPlan p
  | add x i h => x.tally.add i h
  | merge x y => x.tally.merge y.tally

/-- The identities in the order in which they are seen; those of the second of two tallies are seen
when it is merged. -/
def seen : Filling → List Identity
  | nothing => []
  | plan p => p.requests.map (·.identity)
  | add x i _ => x.seen ++ [i]
  | merge x y => x.seen ++ y.seen

/-- The hits with their identities in the order in which they are added. -/
def added : Filling → List (Identity × Hit)
  | nothing => []
  | plan _ => []
  | add x i h => x.added ++ [(i, h)]
  | merge x y => x.added ++ y.added

end Filling

/-- One more element at the end shows only if it is new. -/
theorem eraseDups_concat {α : Type} [BEq α] [LawfulBEq α] (as : List α) (a : α) :
    (as ++ [a]).eraseDups = if a ∈ as then as.eraseDups else as.eraseDups ++ [a] := by
  rw [List.eraseDups_append]
  by_cases h : a ∈ as <;> simp [List.removeAll, List.eraseDups_cons, h]

/-- It is all the same whether repetitions are dropped before or after some are chosen. -/
theorem filter_eraseDups {α : Type} [BEq α] [LawfulBEq α] (p : α → Bool) (as : List α) :
    as.eraseDups.filter p = (as.filter p).eraseDups := by
  induction as using List.reverseRecOn with
  | nil => rfl
  | append_singleton as a ih =>
      rw [eraseDups_concat, List.filter_append]
      by_cases hp : p a = true
      · rw [List.filter_cons_of_pos hp, List.filter_nil, eraseDups_concat, ← ih]
        by_cases ha : a ∈ as <;> simp [ha, hp]
      · by_cases ha : a ∈ as <;> simp [ha, hp, ih]

namespace Filling

/-- Groups for some identities, without hits, are listed in the order of first sight. -/
theorem order_foldl_extend_nil (is : List Identity) :
    (is.foldl (fun t i => Tally.extend t i []) .empty).order = is.eraseDups := by
  induction is using List.reverseRecOn with
  | nil => rfl
  | append_singleton is i ih =>
      rw [List.foldl_append, List.foldl_cons, List.foldl_nil, Tally.order_extend, ih,
        eraseDups_concat]
      simp only [List.mem_eraseDups]

/-- Identities are listed in the order in which they were first seen. -/
theorem order_tally (x : Filling) : x.tally.order = x.seen.eraseDups := by
  induction x with
  | nothing => rfl
  | plan p => rw [tally, Tally.forPlan_eq_foldl, order_foldl_extend_nil, seen]
  | add x i h ih =>
      rw [tally, Tally.add, Tally.order_extend, ih, seen, eraseDups_concat]
      simp only [List.mem_eraseDups]
  | merge x y ihx ihy =>
      rw [tally, Tally.order_merge, ihx, ihy, seen, List.eraseDups_append, filter_eraseDups]
      simp [List.removeAll]

/-- The hits for an identity are those that were added for it, in this order. -/
theorem hitsFor_tally (x : Filling) (i : Identity) :
    x.tally.hitsFor i = (x.added.filter (·.1 == i)).map (·.2) := by
  induction x with
  | nothing => exact Tally.hitsFor_of_notMem List.not_mem_nil
  -- the groups of a plan are there without hits
  | plan p =>
      rw [tally, Tally.forPlan_eq_foldl]
      generalize p.requests.map (·.identity) = is
      induction is using List.reverseRecOn with
      | nil => exact Tally.hitsFor_of_notMem List.not_mem_nil
      | append_singleton is j ih =>
          rw [List.foldl_append, List.foldl_cons, List.foldl_nil, Tally.hitsFor_extend, ih]
          simp [added]
  | add x j h ih =>
      rw [tally, Tally.add, Tally.hitsFor_extend, ih, added]
      by_cases hij : i = j
      · simp [hij]
      · simp [hij, Ne.symm hij]
  | merge x y ihx ihy => rw [tally, Tally.hitsFor_merge, ihx, ihy, added]; simp

/-- The first of the hits for an identity at a place, among all that were added. -/
theorem find?_hitsFor (x : Filling) (i : Identity) (k : Hit) :
    (x.tally.hitsFor i).find? (·.samePlace k) =
      (x.added.find? fun e => e.1 == i && e.2.samePlace k).map (·.2) := by
  have hboth : (fun e : Identity × Hit => decide ((e.1 == i) = true ∧ e.2.samePlace k = true)) =
      fun e => e.1 == i && e.2.samePlace k := by
    funext e
    rw [Bool.decide_and, Bool.decide_eq_true, Bool.decide_eq_true]
  rw [hitsFor_tally, List.find?_map, List.find?_filter]
  exact congrArg (fun p => (x.added.find? p).map (·.2)) hboth

/-- A hit for an identity was added for it. -/
theorem mem_hitsFor {x : Filling} {i : Identity} {h : Hit} :
    h ∈ x.tally.hitsFor i ↔ (i, h) ∈ x.added := by
  simp [hitsFor_tally]

/-- The first hit at a place for an identity is the first that was added there for it. -/
theorem mem_snapshot_hitsFor {x : Filling} {i : Identity} {h : Hit} :
    h ∈ snapshot (x.tally.hitsFor i) ↔
      x.added.find? (fun e => e.1 == i && e.2.samePlace h) = some (i, h) := by
  rw [mem_snapshot, find?_hitsFor, Option.map_eq_some_iff]
  constructor
  · rintro ⟨⟨j, k⟩, hfind, rfl⟩
    have hfound := List.find?_some hfind
    have hji : j = i := by
      simp only [Bool.and_eq_true, beq_iff_eq] at hfound
      exact hfound.1
    rwa [hji] at hfind
  · intro hfind
    exact ⟨_, hfind, rfl⟩

end Filling

/-! ### The number of hits

The total is counted over the groups. To count the same as a set of places it is enough that no
place occurs twice: not in a group, for snapshots are strictly sorted, and not in two, for their
identities differ. -/

namespace Results

/-- The places of the hits of a snapshot, each with its identity. -/
def places (r : Results) : List (Identity × List Component × NodeId) :=
  r.groups.flatMap fun g => g.2.map fun h => (g.1, h.place)

/-- There are as many places as hits. -/
theorem length_places (r : Results) : r.places.length = r.total := by
  have hfold : ∀ (gs : List (Identity × List Hit)) (n : Nat),
      gs.foldl (fun n g => n + g.2.length) n =
        n + (gs.flatMap fun g => g.2.map fun h => (g.1, h.place)).length := by
    intro gs
    induction gs with
    | nil => simp
    | cons g gs ih =>
        intro n
        simp [ih, Nat.add_assoc]
  rw [total, hfold, Nat.zero_add, places]

end Results

/-- The places of a frozen tally, group by group. -/
theorem places_freeze (t : Tally) : t.freeze.places =
    t.order.flatMap fun i => ((snapshot (t.hitsFor i)).map Hit.place).map (i, ·) := by
  rw [Results.places, groups_freeze, List.flatMap_map]
  simp only [List.map_map]
  rfl

/-- No place has two hits for one identity. -/
theorem nodup_places_freeze (t : Tally) : t.freeze.places.Nodup := by
  rw [places_freeze]
  refine List.pairwise_flatMap.2 ⟨?_, ?_⟩
  · intro i _
    exact (nodup_map_place_snapshot _).map (Prod.mk_right_injective i)
  · refine t.nodup.imp ?_
    intro i j hij a ha b hb hab
    obtain ⟨_, -, rfl⟩ := List.mem_map.1 ha
    obtain ⟨_, -, rfl⟩ := List.mem_map.1 hb
    exact hij (congrArg Prod.fst hab)

/-- The places are those at which hits were added. -/
theorem mem_places_freeze {x : Filling} {y : Identity × List Component × NodeId} :
    y ∈ x.tally.freeze.places ↔ y ∈ x.added.map fun e => (e.1, e.2.place) := by
  obtain ⟨i, place⟩ := y
  rw [places_freeze]
  simp only [List.mem_flatMap, List.mem_map (f := (_, ·)), mem_map_place_snapshot]
  constructor
  · rintro ⟨j, -, _, hplace, heq⟩
    obtain ⟨h, hh, rfl⟩ := List.mem_map.1 hplace
    rw [← heq]
    exact List.mem_map.2 ⟨(j, h), Filling.mem_hitsFor.1 hh, rfl⟩
  · intro hy
    obtain ⟨⟨j, h⟩, hh, heq⟩ := List.mem_map.1 hy
    rw [← heq]
    have hhits := Filling.mem_hitsFor.2 hh
    exact ⟨j, Tally.mem_order_of_mem_hitsFor hhits, h.place, List.mem_map.2 ⟨h, hhits, rfl⟩, rfl⟩

/-- **A snapshot keeps the first hit at each place, and nothing else shows.** A tally was filled by
additions and merges in any order, with any hits: the same place may have been hit with different
names, and a file may be spelled in different ways. The snapshot has one group for each identity, in
the order of first sight. In a group the hits are strictly sorted by file and node, and they are
those of which no hit at the same place was added earlier for the identity; so there is one at each
place where a hit was added. The total is the number of different identities with places. To add a
hit where there is one changes nothing, whatever is merged around it later. -/
theorem snapshot_exact (x : Filling) :
    let found := x.tally.freeze
    (found.groups = x.seen.eraseDups.map fun i => (i, found.hitsFor i)) ∧
      (∀ i, (found.hitsFor i).Pairwise fun a b => a.compare b = .lt) ∧
      (∀ i h, h ∈ found.hitsFor i ↔
        x.added.find? (fun e => e.1 == i && e.2.samePlace h) = some (i, h)) ∧
      (∀ i h, (∃ k ∈ found.hitsFor i, k.samePlace h = true) ↔
        ∃ e ∈ x.added, e.1 = i ∧ e.2.samePlace h = true) ∧
      found.total =
        (x.added.map fun e => (e.1, e.2.file.components, e.2.node)).toFinset.card ∧
      ∀ i h, (∃ e ∈ x.added, e.1 = i ∧ e.2.samePlace h = true) →
        (x.add i h).tally.freeze = found ∧
          ∀ a b : Tally, ((a.merge (x.add i h).tally).merge b).freeze =
            ((a.merge x.tally).merge b).freeze := by
  intro found
  have hgroup : ∀ i, found.hitsFor i = snapshot (x.tally.hitsFor i) := hitsFor_freeze x.tally
  -- what was added and what the tally has are the same, read as a list or by identities
  have hplace : ∀ {i h}, (∃ e ∈ x.added, e.1 = i ∧ e.2.samePlace h = true) ↔
      ∃ k ∈ x.tally.hitsFor i, k.samePlace h = true := by
    intro i h
    constructor
    · rintro ⟨⟨_, k⟩, hk, rfl, hkh⟩
      exact ⟨k, Filling.mem_hitsFor.2 hk, hkh⟩
    · rintro ⟨k, hk, hkh⟩
      exact ⟨(i, k), Filling.mem_hitsFor.1 hk, rfl, hkh⟩
  refine ⟨?_, ?_, ?_, ?_, ?_, ?_⟩
  · rw [← x.order_tally]
    simp only [hgroup]
    exact groups_freeze x.tally
  · intro i
    rw [hgroup]
    exact pairwise_snapshot _
  · intro i h
    rw [hgroup]
    exact Filling.mem_snapshot_hitsFor
  · intro i h
    have hmem := @mem_map_place_snapshot (x.tally.hitsFor i) h.place
    simp only [List.mem_map, ← Hit.samePlace_iff] at hmem
    rw [hgroup, hplace, hmem]
  · rw [← Results.length_places, ← List.toFinset_card_of_nodup (nodup_places_freeze x.tally)]
    congr 1
    ext y
    rw [List.mem_toFinset, List.mem_toFinset, mem_places_freeze]
    rfl
  · intro i h hh
    exact Tally.freeze_add_again (hplace.1 hh)

/-- Two spellings of a file, in parts that are merged: the name that was added first stays. -/
theorem snapshot_exact_respelled :
    let i : Identity := [.text "f"]
    let h : Hit := ⟨⟨"a//b.py"⟩, 1, .function, "f", none⟩
    let k : Hit := ⟨⟨"a/b.py"⟩, 1, .function, "g", none⟩
    let x : Filling := .merge (.add .nothing i h) (.add .nothing i k)
    x.tally.freeze.hitsFor i = [h] ∧ x.tally.freeze.total = 1 ∧
      (x.add i k).tally.freeze = x.tally.freeze := by
  intro i h k x
  have hsame : h.samePlace k = true := by decide
  obtain ⟨-, hsorted, hmem, -, htotal, hagain⟩ := snapshot_exact x
  refine ⟨?_, ?_, (hagain i k ⟨(i, h), by simp [x, Filling.added], rfl, hsame⟩).1⟩
  -- two hits were added at the place, and of these the second has another before it
  · have hfirst : ∀ j, j ∈ x.tally.freeze.hitsFor i ↔ j ∈ [h] := by
      intro j
      rw [hmem, List.mem_singleton]
      constructor
      · intro hfind
        have hadded : (i, j) = (i, h) ∨ (i, j) = (i, k) := by
          simpa [x, Filling.added] using List.mem_of_find?_eq_some hfind
        rcases hadded with heq | heq
        · exact (Prod.mk.inj heq).2
        · rw [(Prod.mk.inj heq).2] at hfind
          exact absurd hfind (by decide)
      · intro hj
        rw [hj]
        decide
    have hnodup : (x.tally.freeze.hitsFor i).Nodup := (hsorted i).imp Hit.ne_of_lt
    exact List.perm_singleton.1
      ((List.perm_ext_iff_of_nodup hnodup (List.nodup_singleton h)).2 hfirst)
  · rw [htotal]
    decide

end Outline
