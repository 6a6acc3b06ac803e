import Outline.Proofs.Live.Queries
import Outline.Proofs.Tree.Descent
import Outline.Proofs.Tree.Nesting

/-!
# Outline.Proofs.Live.Progress

**How far a query over several nodes gets, and what it leaves behind.** The search for an owner
(`Sought`) and the request for some children (`Collected`) go through a row of nodes and stop at the
first that decides. Each outcome tells which live nodes were obtained and which nodes were looked at
(`looked`). Only the slots of the former are filled, and factories have run only for the latter, in
the order of the row (`Tree.runs_findLive?`).

A search that stops early has done some things and not others. `Sought` and `Collected` list the
ways in which it can end, each with the nodes that were obtained and those that were looked at; the
functions `reached` and `looked` compute the two lists, and `Sought.eq` says that there is no other
way.
-/

namespace Outline

/-! ### Rows of requests

In this section nothing is known of trees: `had` is what a request for a node would come to, and the
row is any list. All proofs are inductions along the row with one case for each way to go on. -/

section

variable {had : NodeId → Except LiveError LiveNode} {p : LiveNode → Bool}

/-- The nodes that requests in a row look at: up to and with the first that fails, or the first
whose live node ends the row. -/
def looked (had : NodeId → Except LiveError LiveNode) (ends : LiveNode → Bool) :
    List NodeId → List NodeId
  | [] => []
  | i :: rest => i :: match had i with
    | .error _ => []
    | .ok n => if ends n then [] else looked had ends rest

/-- How a search through a row of nodes can end: with its answer, the nodes whose live nodes it has
obtained and the nodes it has looked at. -/
inductive Sought (had : NodeId → Except LiveError LiveNode) (p : LiveNode → Bool) :
    List NodeId → Except LiveError (Option LiveNode) → List NodeId → List NodeId → Prop
  /-- at the first live node that `p` accepts -/
  | found {before later : List NodeId} {a : NodeId} {n : LiveNode}
    (hbefore : ∀ j ∈ before, ∃ m, had j = .ok m ∧ p m = false) (ha : had a = .ok n) (hn : p n) :
    Sought had p (before ++ a :: later) (.ok (some n)) (before ++ [a]) (before ++ [a])
  /-- at the first node that fails -/
  | failed {before later : List NodeId} {a : NodeId} {e : LiveError}
    (hbefore : ∀ j ∈ before, ∃ m, had j = .ok m ∧ p m = false) (ha : had a = .error e) :
    Sought had p (before ++ a :: later) (.error e) before (before ++ [a])
  /-- behind the last node -/
  | nothing {is : List NodeId} (hall : ∀ j ∈ is, ∃ m, had j = .ok m ∧ p m = false) :
    Sought had p is (.ok none) is is

/-- How the request for all live nodes of a row can end. -/
inductive Collected (had : NodeId → Except LiveError LiveNode) :
    List NodeId → Except LiveError (List LiveNode) → List NodeId → List NodeId → Prop
  /-- with one live node for each -/
  | all {is : List NodeId} {ns : List LiveNode}
    (h : List.Forall₂ (fun j n => had j = .ok n) is ns) : Collected had is (.ok ns) is is
  /-- at the first node that fails -/
  | failed {before later : List NodeId} {a : NodeId} {e : LiveError}
    (hbefore : ∀ j ∈ before, ∃ m, had j = .ok m) (ha : had a = .error e) :
    Collected had (before ++ a :: later) (.error e) before (before ++ [a])

theorem looked_of_error {i : NodeId} {e : LiveError} (h : had i = .error e) (is : List NodeId) :
    looked had p (i :: is) = [i] := by
  rw [looked, h]

theorem looked_of_end {i : NodeId} {n : LiveNode} (h : had i = .ok n) (hn : p n = true)
    (is : List NodeId) : looked had p (i :: is) = [i] := by
  rw [looked, h]
  simp only [hn, if_true]

theorem looked_of_ok {i : NodeId} {n : LiveNode} (h : had i = .ok n) (hn : p n = false)
    (is : List NodeId) : looked had p (i :: is) = i :: looked had p is := by
  rw [looked, h]
  simp only [hn, Bool.false_eq_true, if_false]

theorem mem_of_mem_looked {is : List NodeId} {j : NodeId} (h : j ∈ looked had p is) : j ∈ is := by
  induction is with
  | nil => exact h
  | cons i is ih =>
      rw [looked] at h
      rcases List.mem_cons.1 h with rfl | h
      · exact List.mem_cons_self
      · split at h
        · cases h
        · split at h
          · cases h
          · exact List.mem_cons_of_mem i (ih h)

/-- A search goes on behind a node that has been had and is not accepted. -/
theorem Sought.cons {i : NodeId} {n : LiveNode} (hi : had i = .ok n) (hn : p n = false)
    {is got seen : List NodeId} {answer : Except LiveError (Option LiveNode)}
    (h : Sought had p is answer got seen) :
    Sought had p (i :: is) answer (i :: got) (i :: seen) := by
  have hfirst : ∃ m, had i = .ok m ∧ p m = false := ⟨n, hi, hn⟩
  cases h with
  | @found before _ _ _ hbefore ha hm =>
      exact @Sought.found had p (i :: before) _ _ _ (List.forall_mem_cons.2 ⟨hfirst, hbefore⟩) ha hm
  | failed hbefore ha =>
      exact @Sought.failed had p (i :: got) _ _ _ (List.forall_mem_cons.2 ⟨hfirst, hbefore⟩) ha
  | nothing hall => exact .nothing (List.forall_mem_cons.2 ⟨hfirst, hall⟩)

theorem sought_firstLive? (had : NodeId → Except LiveError LiveNode) (p : LiveNode → Bool)
    (is : List NodeId) :
    Sought had p is (firstLive? had p is) (reached had p is) (looked had p is) := by
  induction is with
  | nil => exact .nothing nofun
  | cons i is ih =>
      cases hi : had i with
      | error e =>
          rw [firstLive?_of_error hi, reached_of_error hi, looked_of_error hi]
          exact @Sought.failed had p [] _ _ _ nofun hi
      | ok n =>
          rw [firstLive?_of_ok hi]
          -- the live node is had: it ends the row, or the row goes on behind it
          by_cases hp : p n = true
          · rw [if_pos hp, reached_of_end hi hp, looked_of_end hi hp]
            exact @Sought.found had p [] _ _ _ nofun hi hp
          · have hp := Bool.eq_false_iff.2 hp
            rw [if_neg (Bool.eq_false_iff.1 hp), reached_of_ok hi hp, looked_of_ok hi hp]
            exact ih.cons hi hp

/-- Nodes that have been had and are not accepted are passed by. -/
theorem passed {before : List NodeId} (h : ∀ j ∈ before, ∃ m, had j = .ok m ∧ p m = false)
    (rest : List NodeId) : firstLive? had p (before ++ rest) = firstLive? had p rest ∧
      reached had p (before ++ rest) = before ++ reached had p rest ∧
      looked had p (before ++ rest) = before ++ looked had p rest := by
  induction before with
  | nil => exact ⟨rfl, rfl, rfl⟩
  | cons j before ih =>
      obtain ⟨⟨m, hj, hm⟩, hbefore⟩ := List.forall_mem_cons.1 h
      obtain ⟨hfirst, hreached, hlooked⟩ := ih hbefore
      rw [List.cons_append, firstLive?_of_ok hj, hm, if_neg Bool.false_ne_true,
        reached_of_ok hj hm, looked_of_ok hj hm, hfirst, hreached, hlooked]
      exact ⟨rfl, rfl, rfl⟩

/-- A search can end in one way only. -/
theorem Sought.eq {is got seen : List NodeId} {answer : Except LiveError (Option LiveNode)}
    (h : Sought had p is answer got seen) :
    answer = firstLive? had p is ∧ got = reached had p is ∧ seen = looked had p is := by
  cases h with
  | @found before later a n hbefore ha hn =>
      obtain ⟨hfirst, hreached, hlooked⟩ := passed hbefore (a :: later)
      rw [hfirst, hreached, hlooked, firstLive?_of_ok ha, hn, if_pos rfl, reached_of_end ha hn,
        looked_of_end ha hn]
      exact ⟨rfl, rfl, rfl⟩
  | @failed _ later a e hbefore ha =>
      obtain ⟨hfirst, hreached, hlooked⟩ := passed hbefore (a :: later)
      rw [hfirst, hreached, hlooked, firstLive?_of_error ha, reached_of_error ha,
        looked_of_error ha, List.append_nil]
      exact ⟨rfl, rfl, rfl⟩
  | nothing hall =>
      obtain ⟨hfirst, hreached, hlooked⟩ := passed hall []
      rw [List.append_nil] at hfirst hreached hlooked
      rw [hfirst, hreached, hlooked, reached, looked, List.append_nil]
      exact ⟨rfl, rfl, rfl⟩

theorem Collected.cons {i : NodeId} {n : LiveNode} (hi : had i = .ok n) {is got seen : List NodeId}
    {answer : Except LiveError (List LiveNode)} (h : Collected had is answer got seen) :
    Collected had (i :: is) (answer.map (n :: ·)) (i :: got) (i :: seen) := by
  cases h with
  | all h => exact .all (.cons hi h)
  | failed hbefore ha =>
      exact @Collected.failed had (i :: got) _ _ _ (List.forall_mem_cons.2 ⟨⟨n, hi⟩, hbefore⟩) ha

theorem collected_mapM (had : NodeId → Except LiveError LiveNode) (is : List NodeId) :
    Collected had is (is.mapM had) (reached had (fun _ => false) is)
      (looked had (fun _ => false) is) := by
  induction is with
  | nil => exact .all .nil
  | cons i is ih =>
      rw [List.mapM_cons]
      cases hi : had i with
      | error e =>
          rw [reached_of_error hi, looked_of_error hi]
          exact @Collected.failed had [] _ _ _ nofun hi
      | ok n =>
          rw [reached_of_ok hi rfl, looked_of_ok hi rfl]
          have hgo := ih.cons hi
          generalize is.mapM had = answer at hgo ⊢
          cases answer <;> exact hgo

end

/-! ### The log of factory runs

A factory runs when a node is looked at whose slot is empty and for whose kind there is one. In a
row no node comes twice, so a request does not change for which of the later ones a factory runs. -/

/-- Whether a request for a node runs a factory: its slot is empty, and the registry has a factory
for its kind. -/
def Slots.runsFor (s : Slots) (t : Tree) (r : Registry) (i : NodeId) : Bool :=
  (s.live? i).isNone && (t.node? i).any fun n => r.contains n.kind

namespace Tree

variable {t : Tree} {r : Registry} {s : Slots}

theorem runs_live (i : NodeId) :
    ((t.live r i).on s).2.runs = [i].filter (s.runsFor t r) ++ s.runs := by
  cases hi : s.live? i with
  | some n =>
      rw [on_live_of_some hi, List.filter_cons_of_neg (by simp [Slots.runsFor, hi])]
      rfl
  | none =>
      have hnoted : (s.noted t r i).runs = [i].filter (s.runsFor t r) ++ s.runs := by
        unfold Slots.noted Slots.runsFor
        -- a run is noted if there is a factory for the kind, also if it then fails
        by_cases hc : ((t.node? i).any fun n => r.contains n.kind) = true
        · rw [if_pos hc, List.filter_cons_of_pos (by simp [hi, hc])]
          rfl
        · rw [if_neg hc, List.filter_cons_of_neg (by simp [hc])]
          rfl
      rw [on_live_of_none hi, ← hnoted]
      cases r.materialize t i <;> rfl

/-- Requests in a row run the factories of the nodes that they look at, in order. -/
theorem runs_findLive? (hsize : s.nodes.size = t.size) (p : LiveNode → Bool) {is : List NodeId}
    (hnodup : is.Nodup) : ((t.findLive? r p is).on s).2.runs =
      ((looked (s.had t r) p is).filter (s.runsFor t r)).reverse ++ s.runs := by
  induction is generalizing s with
  | nil => rfl
  | cons i is ih =>
      have hone := runs_live (t := t) (r := r) (s := s) i
      have hreverse : ([i].filter (s.runsFor t r)).reverse = [i].filter (s.runsFor t r) := by
        rw [List.filter_singleton]
        cases s.runsFor t r i <;> rfl
      rw [findLive?]
      cases hn : s.had t r i with
      | error e =>
          obtain ⟨s₁, hlive, -⟩ := on_live_of_had_error hsize hn
          rw [hlive] at hone
          rw [Query.on_bind_of_error hlive, looked_of_error hn, hreverse, ← hone]
      | ok n =>
          obtain ⟨s₁, hlive, hsize₁, hhad, hfirst⟩ := on_live_of_had hsize hn
          rw [hlive] at hone
          rw [Query.on_bind_of_ok hlive]
          by_cases hp : p n = true
          · rw [if_pos hp, looked_of_end hn hp, hreverse, ← hone]
            rfl
          · -- the nodes that follow are others, so whether they need a factory is the same
            have hothers : (looked (s.had t r) p is).filter (s₁.runsFor t r) =
                (looked (s.had t r) p is).filter (s.runsFor t r) := by
              refine List.filter_congr fun j hj => ?_
              have hji : j ∉ [i] := fun h => (List.nodup_cons.1 hnodup).1
                (List.mem_singleton.1 h ▸ mem_of_mem_looked hj)
              rw [Slots.runsFor, Slots.runsFor, hfirst.live?_of_notMem hji]
            rw [if_neg hp, ih hsize₁ (List.nodup_cons.1 hnodup).2, hhad, hothers, hone,
              looked_of_ok hn (Bool.eq_false_iff.2 hp), ← List.append_assoc]
            rw [show i :: looked (s.had t r) p is = [i] ++ looked (s.had t r) p is from rfl,
              List.filter_append, List.reverse_append, hreverse]

/-- The request for all live nodes of a row leaves the slots as a search that accepts none. -/
theorem slots_mapM_live (is : List NodeId) (s : Slots) :
    ((is.mapM (t.live r)).on s).2 = ((t.findLive? r (fun _ => false) is).on s).2 := by
  induction is generalizing s with
  | nil => rfl
  | cons i is ih =>
      rw [List.mapM_cons, findLive?, Query.on_bind, Query.on_bind]
      obtain ⟨n | e, s₁⟩ := (t.live r i).on s
      · rfl
      · show (Query.on _ s₁).2 = _
        rw [Query.on_bind]
        refine Eq.trans ?_ (ih s₁)
        obtain ⟨ns | e, s₂⟩ := (is.mapM (t.live r)).on s₁ <;> rfl

/-- No node is its own owner, at any distance, -/
theorem nodup_ancestors (t : Tree) (i : NodeId) : (t.ancestors i).Nodup := by
  have hchain : (i :: t.ancestors i).IsChain fun c p => p < c :=
    (t.isChain_ancestors i).imp fun _ _ => parent?_lt
  exact (List.pairwise_cons.1 (List.isChain_iff_pairwise.1 hchain)).2.imp Nat.ne_of_gt

/-- and none is a child twice. -/
theorem nodup_childrenWhere (t : Tree) (p : Kind → Bool) (i : NodeId) :
    (t.childrenWhere p i).Nodup :=
  ((t.pairwise_children i).imp Nat.ne_of_lt).filter _

/-- The owners of a node end with one that has no parent. -/
theorem parent?_getLast_ancestors {i a : NodeId}
    (h : (i :: t.ancestors i).getLast? = some a) : t.parent? a = none := by
  cases hp : t.parent? i with
  | none =>
      rw [ancestors_of_none hp] at h
      exact Option.some.inj h ▸ hp
  | some p =>
      rw [List.getLast?_cons, getLast?_ancestors (lt_size_of_parent? hp)] at h
      have hroot : a = 0 := by
        split at h
        · rename_i h0
          exact (Option.some.inj h).symm.trans h0
        · exact (Option.some.inj h).symm
      rw [hroot]
      exact Option.eq_none_iff_forall_ne_some.2 fun q hq => Nat.not_lt_zero q (parent?_lt hq)

end Tree

/-! ### The queries

Owners are a row without repetitions from the parent up to the root, and children of some kinds one
in their order. What was proved of rows is put in for both. -/

/-- What a query has done to the slots: it has obtained the live nodes of the nodes in `got`, and
has looked at those in `seen`. -/
structure Slots.Advanced (s s' : Slots) (t : Tree) (r : Registry) (got seen : List NodeId) :
    Prop where
  /-- A node in `got` has the live node that was had for it; no other slot changes. -/
  live? : ∀ j, s'.live? j = if j ∈ got then (s.had t r j).toOption else s.live? j
  /-- A slot that was filled stays as it was. -/
  kept : ∀ j n, s.live? j = some n → s'.live? j = some n
  /-- The slots of the nodes in `got` are filled, besides those that were. -/
  filled : ∀ j, (s'.live? j).isSome ↔ (s.live? j).isSome ∨ j ∈ got
  /-- A factory has run for each node in `seen` that needed one, and for no other. -/
  runs : s'.runs = (seen.filter (s.runsFor t r)).reverse ++ s.runs

theorem Slots.advanced_of_gained {s s' : Slots} {t : Tree} {r : Registry} {ends : LiveNode → Bool}
    {is seen : List NodeId} (h : s.Gained s' t r (reached (s.had t r) ends is))
    (hruns : s'.runs = (seen.filter (s.runsFor t r)).reverse ++ s.runs) :
    s.Advanced s' t r (reached (s.had t r) ends is) seen where
  live? := h.live?
  kept _ _ := h.kept
  filled j := by
    rw [h.live? j]
    by_cases hj : j ∈ reached (s.had t r) ends is
    · obtain ⟨-, n, hn⟩ := of_mem_reached hj
      rw [if_pos hj, hn]
      exact ⟨fun _ => .inr hj, fun _ => rfl⟩
    · rw [if_neg hj]
      exact ⟨.inl, fun h => h.resolve_right hj⟩
  runs := hruns

/-- **A query over several nodes stops at the first node that decides, and has done nothing beyond
it.** The search for an owner goes from the parent up to the root; the request for children goes
through those of the kinds asked for in their order. -/
theorem query_progress (t : Tree) (r : Registry) (s : Slots) (hsize : s.nodes.size = t.size)
    (i : NodeId) :
    ((i :: t.ancestors i).IsChain (fun c p => t.parent? c = some p) ∧
        ∀ a, (i :: t.ancestors i).getLast? = some a → t.parent? a = none) ∧
      (∀ p, ∃ got seen,
        Sought (s.had t r) p (t.ancestors i) ((t.findAncestor? r p i).on s).1 got seen ∧
          s.Advanced ((t.findAncestor? r p i).on s).2 t r got seen) ∧
      ∀ p, ∃ got seen,
        Collected (s.had t r) ((t.children i).filter (t.hasKind p)) ((t.liveChildren r p i).on s).1
            got seen ∧
          s.Advanced ((t.liveChildren r p i).on s).2 t r got seen := by
  refine ⟨⟨t.isChain_ancestors i, fun a => Tree.parent?_getLast_ancestors⟩, fun p => ?_,
    fun p => ?_⟩
  · obtain ⟨hanswer, hgained⟩ := Tree.on_findLive? (r := r) hsize p (t.ancestors i)
    refine ⟨reached (s.had t r) p (t.ancestors i), looked (s.had t r) p (t.ancestors i), ?_,
      Slots.advanced_of_gained hgained (Tree.runs_findLive? hsize p (t.nodup_ancestors i))⟩
    rw [Tree.findAncestor?, hanswer]
    exact sought_firstLive? (s.had t r) p (t.ancestors i)
  -- a request for children is a search that no live node ends
  · obtain ⟨hanswer, hgained⟩ := Tree.on_mapM_live (r := r) hsize (t.childrenWhere p i)
    have hruns := Tree.runs_findLive? (r := r) hsize (fun _ => false) (t.nodup_childrenWhere p i)
    rw [← Tree.slots_mapM_live] at hruns
    refine ⟨_, _, ?_, Slots.advanced_of_gained hgained hruns⟩
    rw [Tree.liveChildren, hanswer]
    exact collected_mapM (s.had t r) (t.childrenWhere p i)

/-- The live node of the file has been made, and there are no factories: the search for the file
succeeds, and the request for its children fails at the function. -/
theorem query_progress_filled :
    let es : List Entry := [⟨.file, ⟨"a.py", .empty⟩, 0⟩, ⟨.function, ⟨"f", .empty⟩, 1⟩]
    let n : LiveNode := ⟨0, none, .file, .file "a.py" none⟩
    ∃ t, Tree.ofEntries es = .ok t ∧
      let s := (Slots.forTree t).fill 0 n
      let x := (t.findAncestor? .empty (fun m => m.kind == .file) 1).on s
      let y := (t.liveChildren .empty (fun _ => true) 0).on s
      x.1 = .ok (some n) ∧ x.2.runs = [] ∧ y.1 = .error (.unknownKind .function) ∧
        y.2.live? 0 = some n ∧ y.2.live? 1 = none := by
  intro es n
  have hnested : Nested es := nested_iff.2 ⟨List.cons_ne_nil _ _, by unfold Faultless; decide⟩
  rcases ofEntries_cases es with ⟨-, t, ht, hes⟩ | ⟨fault, -, hfault⟩
  · refine ⟨t, ht, ?_⟩
    intro s x y
    have hsize : s.nodes.size = t.size := (Slots.size_fill _ 0 n).trans Array.size_replicate
    have hpos : 0 < (Slots.forTree t).nodes.size := by
      rw [Slots.forTree, Array.size_replicate, hes.size]
      exact Nat.zero_lt_two
    have hparent : t.parent? 1 = some 0 :=
      (hes.parent 1 0).2 ⟨Nat.zero_lt_one, ⟨_, _, rfl, rfl, rfl⟩, fun j _ _ hj hj' => by omega⟩
    have hfile : s.live? 0 = some n := Slots.live?_fill hpos n 0
    have hempty : s.live? 1 = none := (Slots.live?_fill hpos n 1).trans (Slots.live?_forTree t 1)
    have hunknown : s.had t .empty 1 = .error (.unknownKind .function) := by
      obtain ⟨⟨kind, payload, parent, below⟩, hm, rfl, rfl⟩ := hes.node 1 _ rfl
      rw [Slots.had_of_none hempty, Registry.materialize, hm]
      rfl
    obtain ⟨-, hsearch, -⟩ := query_progress t .empty s hsize 1
    obtain ⟨-, -, hchildren⟩ := query_progress t .empty s hsize 0
    refine ⟨?_, ?_, ?_⟩
    · obtain ⟨got, seen, hend, -⟩ := hsearch fun m => m.kind == .file
      rw [hend.eq.1, Tree.ancestors_of_parent? hparent, firstLive?_of_ok (Slots.had_of_some hfile)]
      rfl
    · obtain ⟨got, seen, hend, hdone⟩ := hsearch fun m => m.kind == .file
      rw [hdone.runs, hend.eq.2.2, Tree.ancestors_of_parent? hparent,
        looked_of_end (Slots.had_of_some hfile) rfl,
        List.filter_cons_of_neg (by simp [Slots.runsFor, hfile])]
      rfl
    · obtain ⟨got, seen, hend, hdone⟩ := hchildren fun _ => true
      have hstill : y.2.live? 1 = none := by
        rw [hdone.live? 1, hunknown, hempty]
        split <;> rfl
      refine ⟨?_, hdone.kept 0 n hfile, hstill⟩
      -- it can only fail, for the function is a child and its slot is empty still
      generalize hlist : (t.children 0).filter (t.hasKind fun _ => true) = is at hend
      generalize ((t.liveChildren .empty (fun _ => true) 0).on s).1 = answer at hend ⊢
      cases hend with
      | all _ =>
          have hin : 1 ∈ (t.children 0).filter (t.hasKind fun _ => true) := by
            obtain ⟨m, hm, -⟩ := hes.node 1 _ rfl
            exact List.mem_filter.2 ⟨Tree.mem_children.2 hparent, by rw [Tree.hasKind, hm]; rfl⟩
          have hfilled := (hdone.filled 1).2 (.inr (hlist ▸ hin))
          rw [hstill] at hfilled
          cases hfilled
      | @failed _ later a e _ ha =>
          have hin : a ∈ t.children 0 :=
            (List.mem_filter.1 (hlist ▸ List.mem_append_right got List.mem_cons_self)).1
          have hlt := Tree.lt_size_of_parent? (Tree.mem_children.1 hin)
          rw [hes.size] at hlt
          have hone : a = 1 := Nat.le_antisymm (Nat.le_of_lt_succ hlt)
            (Tree.parent?_lt (Tree.mem_children.1 hin))
          rw [hone, hunknown] at ha
          exact congrArg Except.error (Except.error.inj ha).symm
  · exact absurd hnested hfault.not_nested

end Outline
