import Mathlib.Data.Finset.Card
import Outline.Proofs.Live.Queries
import Outline.Proofs.Tree.Nesting

/-!
# Outline.Proofs.Live.Calls

**Over any run of calls, a live node is made at most once.** A call (`LiveCall`) asks for the live
nodes of some nodes, with a registry of its own. One call adds to the slots what it obtains and
leaves all else as it was (`LiveCall.run_gained`). So over a run a slot that is filled stays as it
is (`Tree.after_append_of_some`), and the slots that are filled are those of the nodes that some
call has obtained (`Tree.isSome_after_iff`).
-/

namespace Outline

/-- A call for live nodes. -/
inductive LiveCall where
  /-- for the live node of a node -/
  | live (r : Registry) (i : NodeId)
  /-- for the live nodes of the children whose kinds `p` accepts -/
  | children (r : Registry) (p : Kind → Bool) (i : NodeId)
  /-- for the live node of the nearest owner that `p` accepts -/
  | ancestor (r : Registry) (p : LiveNode → Bool) (i : NodeId)
  /-- for the live node that has been made of a node -/
  | cached (i : NodeId)

theorem exists_ok_of_map_eq_ok {ε α β : Type} {x : Except ε α} {f : α → β} {b : β}
    (h : x.map f = .ok b) : ∃ a, x = .ok a ∧ f a = b := by
  cases x with
  | error e => cases h
  | ok a => exact ⟨a, rfl, Except.ok.inj h⟩

theorem eq_error_of_map_eq_error {ε α β : Type} {x : Except ε α} {f : α → β} {e : ε}
    (h : x.map f = .error e) : x = .error e := by
  cases x with
  | error e' => exact congrArg Except.error (Except.error.inj h)
  | ok a => cases h

namespace LiveCall

/-- The live nodes that a call answers with. -/
def query (t : Tree) : LiveCall → Query (List LiveNode)
  | live r i => do return [← t.live r i]
  | children r p i => t.liveChildren r p i
  | ancestor r p i => do return (← t.findAncestor? r p i).toList
  | cached i => do return ((← get).live? i).toList

/-- What a call comes to, and the slots after it. -/
def run (t : Tree) (c : LiveCall) (s : Slots) : Except LiveError (List LiveNode) × Slots :=
  (c.query t).on s

/-- The node that a call is made on. -/
def node : LiveCall → NodeId
  | live _ i | children _ _ i | ancestor _ _ i | cached i => i

/-- The registry that a call makes live nodes with; one that makes none has no factories. -/
def registry : LiveCall → Registry
  | live r _ | children r _ _ | ancestor r _ _ => r
  | cached _ => .empty

/-- The nodes that a call asks for, in order. -/
def asked (t : Tree) : LiveCall → List NodeId
  | live _ i => [i]
  | children _ p i => t.childrenWhere p i
  | ancestor _ _ i => t.ancestors i
  | cached _ => []

/-- Whether a call ends with a live node. -/
def ends : LiveCall → LiveNode → Bool
  | ancestor _ p _ => p
  | _ => fun _ => false

/-- The nodes whose live nodes a call obtains, directly or on its way. -/
def obtained (t : Tree) (s : Slots) (c : LiveCall) : List NodeId :=
  reached (s.had t c.registry) c.ends (c.asked t)

variable {t : Tree} {s : Slots}

/-! ### One call

### One call

The calls differ in the nodes that they ask for and in where they stop. Both are given for all of
them (`asked`, `ends`), so what a call obtains is one definition, and each of the following facts
has one case for each sort of call that reduces it to the loop behind it. -/

theorem run_live (t : Tree) (s : Slots) (r : Registry) (i : NodeId) :
    (live r i).run t s = (((t.live r i).on s).1.map ([·]), ((t.live r i).on s).2) := by
  rw [run, query, Query.on_bind]
  obtain ⟨n | e, s'⟩ := (t.live r i).on s <;> rfl

theorem run_ancestor (t : Tree) (s : Slots) (r : Registry) (p : LiveNode → Bool) (i : NodeId) :
    (ancestor r p i).run t s =
      (((t.findAncestor? r p i).on s).1.map (·.toList), ((t.findAncestor? r p i).on s).2) := by
  rw [run, query, Query.on_bind]
  obtain ⟨n | e, s'⟩ := (t.findAncestor? r p i).on s <;> rfl

theorem run_cached (t : Tree) (s : Slots) (i : NodeId) :
    (cached i).run t s = (.ok (s.live? i).toList, s) := rfl

/-- A call adds to the slots what it obtains. -/
theorem run_gained (hsize : s.nodes.size = t.size) (c : LiveCall) :
    s.Gained (c.run t s).2 t c.registry (c.obtained t s) := by
  cases c with
  | live r i =>
      rw [run_live]
      exact (Tree.on_live hsize i).2
  | children r p i => exact (Tree.on_mapM_live hsize (t.childrenWhere p i)).2
  | ancestor r p i =>
      rw [run_ancestor]
      exact (Tree.on_findLive? hsize p (t.ancestors i)).2
  | cached i => exact .refl s

/-- Every live node that a call answers with was in its slot, or the call has obtained it. -/
theorem of_mem_answer (hsize : s.nodes.size = t.size) {c : LiveCall} {ns : List LiveNode}
    (h : (c.run t s).1 = .ok ns) {n : LiveNode} (hn : n ∈ ns) :
    ∃ i, s.live? i = some n ∨ i ∈ c.obtained t s ∧ s.had t c.registry i = .ok n := by
  cases c with
  | live r i =>
      rw [run_live, (Tree.on_live hsize i).1] at h
      obtain ⟨m, hm, rfl⟩ := exists_ok_of_map_eq_ok h
      have hobtained : (live r i).obtained t s = [i] := reached_of_ok hm rfl
      rw [List.mem_singleton.1 hn, hobtained]
      exact ⟨i, .inr ⟨List.mem_cons_self, hm⟩⟩
  | children r p i =>
      rw [show (children r p i).run t s = ((t.childrenWhere p i).mapM (t.live r)).on s from rfl,
        (Tree.on_mapM_live hsize _).1] at h
      obtain ⟨j, hj, hjn⟩ := of_mem_mapM h hn
      exact ⟨j, .inr ⟨hj, hjn⟩⟩
  | ancestor r p i =>
      rw [run_ancestor] at h
      obtain ⟨m, hm, rfl⟩ := exists_ok_of_map_eq_ok h
      cases m with
      | none => cases hn
      | some m =>
          rw [List.mem_singleton.1 hn]
          rw [Tree.findAncestor?, (Tree.on_findLive? hsize p _).1] at hm
          obtain ⟨j, hj, hjm⟩ := of_firstLive?_eq_some hm
          exact ⟨j, .inr ⟨hj, hjm⟩⟩
  | cached i =>
      rw [run_cached] at h
      cases h
      exact ⟨i, .inl (Option.mem_toList.1 hn)⟩

/-- A call fails as the request for one of the nodes that it asks for. -/
theorem of_run_eq_error (hsize : s.nodes.size = t.size) {c : LiveCall} {e : LiveError}
    (h : (c.run t s).1 = .error e) : ∃ i ∈ c.asked t, s.had t c.registry i = .error e := by
  cases c with
  | live r i =>
      rw [run_live, (Tree.on_live hsize i).1] at h
      exact ⟨i, List.mem_cons_self, eq_error_of_map_eq_error h⟩
  | children r p i =>
      rw [show (children r p i).run t s = ((t.childrenWhere p i).mapM (t.live r)).on s from rfl,
        (Tree.on_mapM_live hsize _).1] at h
      exact of_mapM_eq_error h
  | ancestor r p i =>
      rw [run_ancestor] at h
      have hm := eq_error_of_map_eq_error h
      rw [Tree.findAncestor?, (Tree.on_findLive? hsize p _).1] at hm
      exact of_firstLive?_eq_error hm
  | cached i =>
      rw [run_cached] at h
      cases h

/-- What a call answers with is in a slot after it. -/
theorem slot_of_mem_answer (hsize : s.nodes.size = t.size) {c : LiveCall} {ns : List LiveNode}
    (h : (c.run t s).1 = .ok ns) {n : LiveNode} (hn : n ∈ ns) :
    ∃ i, (c.run t s).2.live? i = some n := by
  have hgained := run_gained hsize c
  obtain ⟨i, hkept | ⟨hobtained, hhad⟩⟩ := of_mem_answer hsize h hn
  · exact ⟨i, hgained.kept hkept⟩
  · exact ⟨i, hgained.live?_of_mem hobtained hhad⟩

/-- A call fails at a node that its registry can make nothing of, and leaves the slot empty. -/
theorem empty_of_run_eq_error (hsize : s.nodes.size = t.size) {c : LiveCall} {e : LiveError}
    (h : (c.run t s).1 = .error e) : ∃ i ∈ c.asked t, s.live? i = none ∧
      c.registry.materialize t i = .error e ∧ (c.run t s).2.live? i = none := by
  obtain ⟨i, hi, hfail⟩ := of_run_eq_error hsize h
  obtain ⟨hempty, hmade⟩ := Slots.of_had_eq_error hfail
  have hleft : i ∉ c.obtained t s := fun hmem => by
    obtain ⟨-, n, hn⟩ := of_mem_reached hmem
    rw [hfail] at hn
    cases hn
  exact ⟨i, hi, hempty, hmade, (run_gained hsize c).live?_of_notMem hleft ▸ hempty⟩

/-- An empty slot is filled by a request with a registry that makes something of the node. -/
theorem run_live_of_materialize (hsize : s.nodes.size = t.size) {r : Registry} {i : NodeId}
    {n : LiveNode} (hempty : s.live? i = none) (hn : r.materialize t i = .ok n) :
    ((live r i).run t s).1 = .ok [n] ∧ ((live r i).run t s).2.live? i = some n := by
  have hhad : s.had t r i = .ok n := (Slots.had_of_none hempty).trans hn
  have hobtained : (live r i).obtained t s = [i] := reached_of_ok hhad rfl
  refine ⟨?_, (run_gained hsize (live r i)).live?_of_mem ?_ hhad⟩
  · rw [run_live, (Tree.on_live hsize i).1, hhad]
    rfl
  · rw [hobtained]
    exact List.mem_cons_self

/-- A call that obtains a live node anew makes it with its own registry. -/
theorem madeFor_of_fill (hsize : s.nodes.size = t.size) {c : LiveCall} {i : NodeId} {n : LiveNode}
    (hempty : s.live? i = none) (hn : (c.run t s).2.live? i = some n) :
    MadeFor t c.registry i n := by
  rw [(run_gained hsize c).live?, hempty] at hn
  split at hn
  · rename_i hi
    obtain ⟨-, m, hm⟩ := of_mem_reached hi
    rw [hm] at hn
    cases hn
    rw [Slots.had_of_none hempty] at hm
    exact Registry.madeFor_of_materialize hm
  · cases hn

/-- A call on a node that is not there changes nothing. -/
theorem run_of_node?_eq_none (hsize : s.nodes.size = t.size) {c : LiveCall}
    (h : t.node? c.node = none) : (c.run t s).2 = s := by
  cases c with
  | live r i => rw [run_live, Tree.on_live_of_node?_eq_none hsize (i := i) h]
  | children r p i =>
      have hnone : t.childrenWhere p i = [] := by
        rw [Tree.childrenWhere, Tree.children_of_none (i := i) h, List.filter_nil]
      rw [run, query, Tree.liveChildren, hnone]
      rfl
  | ancestor r p i =>
      have hnone : t.ancestors i = [] := Tree.ancestors_of_none (by
        rw [Tree.parent?, show t.node? i = none from h, Option.bind_none])
      rw [run_ancestor, Tree.findAncestor?, hnone]
      rfl
  | cached i => rfl

end LiveCall

/-! ### Runs

### Runs

Runs are taken apart at their last call, for the slots after a run are those that the last call has
found together with what it has obtained. -/

namespace Tree

variable {t : Tree}

/-- The slots after some calls on a new tree. -/
def after (t : Tree) (calls : List LiveCall) : Slots :=
  calls.foldl (fun s c => (c.run t s).2) (.forTree t)

/-- The nodes whose live nodes some calls obtain, call by call. -/
def obtainedFrom (t : Tree) (s : Slots) : List LiveCall → List NodeId
  | [] => []
  | c :: calls => c.obtained t s ++ t.obtainedFrom (c.run t s).2 calls

/-- The nodes whose live nodes some calls on a new tree obtain. -/
def obtained (t : Tree) (calls : List LiveCall) : List NodeId := t.obtainedFrom (.forTree t) calls

theorem after_concat (calls : List LiveCall) (c : LiveCall) :
    t.after (calls ++ [c]) = (c.run t (t.after calls)).2 := by
  rw [after, List.foldl_append]
  rfl

theorem obtained_concat (calls : List LiveCall) (c : LiveCall) :
    t.obtained (calls ++ [c]) = t.obtained calls ++ c.obtained t (t.after calls) := by
  unfold obtained after
  generalize Slots.forTree t = s
  induction calls generalizing s with
  | nil => simp [obtainedFrom]
  | cons d calls ih =>
      simp only [List.cons_append, obtainedFrom, ih, List.append_assoc, List.foldl_cons]

/-- One of some calls has found the slot of `i` empty and left `n` in it, made with its registry. -/
def MadeBy (t : Tree) (calls : List LiveCall) (i : NodeId) (n : LiveNode) : Prop :=
  ∃ us c vs, calls = us ++ c :: vs ∧ (t.after us).live? i = none ∧
    (c.run t (t.after us)).2.live? i = some n ∧ MadeFor t c.registry i n

theorem size_after (calls : List LiveCall) : (t.after calls).nodes.size = t.size := by
  induction calls using List.reverseRecOn with
  | nil => exact Array.size_replicate
  | append_singleton calls c ih => rw [after_concat, (c.run_gained ih).size, ih]

/-- What is in a slot stays there over any further calls, and no factory runs for its node. -/
theorem after_append_of_some (calls more : List LiveCall) {i : NodeId} {n : LiveNode}
    (h : (t.after calls).live? i = some n) :
    (t.after (calls ++ more)).live? i = some n ∧
      (t.after (calls ++ more)).runs.count i = (t.after calls).runs.count i := by
  induction more using List.reverseRecOn with
  | nil => rw [List.append_nil]; exact ⟨h, rfl⟩
  | append_singleton more c ih =>
      have hgained := c.run_gained (t.size_after (calls ++ more))
      rw [← List.append_assoc, after_concat]
      exact ⟨hgained.kept ih.1, (hgained.runs i n ih.1).trans ih.2⟩

/-- Every live node in a slot was made by one of the calls. -/
theorem madeBy_of_after {calls : List LiveCall} {i : NodeId} {n : LiveNode}
    (h : (t.after calls).live? i = some n) : t.MadeBy calls i n := by
  induction calls using List.reverseRecOn with
  | nil =>
      rw [after, List.foldl_nil, Slots.live?_forTree] at h
      cases h
  | append_singleton calls c ih =>
      cases hi : (t.after calls).live? i with
      | some m =>
          obtain rfl : m = n := Option.some.inj ((t.after_append_of_some calls [c] hi).1 ▸ h)
          obtain ⟨us, d, vs, rfl, hmade⟩ := ih hi
          exact ⟨us, d, vs ++ [c], by rw [List.append_assoc, List.cons_append], hmade⟩
      | none =>
          rw [after_concat] at h
          exact ⟨calls, c, [], rfl, hi, h, LiveCall.madeFor_of_fill (t.size_after calls) hi h⟩

/-- The slots that are filled are those of the nodes that some call has obtained. -/
theorem isSome_after_iff (calls : List LiveCall) (i : NodeId) :
    ((t.after calls).live? i).isSome ↔ i ∈ t.obtained calls := by
  induction calls using List.reverseRecOn with
  | nil =>
      rw [after, List.foldl_nil, Slots.live?_forTree]
      simp [obtained, obtainedFrom]
  | append_singleton calls c ih =>
      have hgained := c.run_gained (t.size_after calls)
      rw [after_concat, obtained_concat, List.mem_append, ← ih, hgained.live?]
      by_cases hi : i ∈ c.obtained t (t.after calls)
      · obtain ⟨-, n, hn⟩ := of_mem_reached hi
        rw [if_pos hi, hn]
        exact ⟨fun _ => .inr hi, fun _ => rfl⟩
      · rw [if_neg hi]
        exact ⟨.inl, fun h => h.resolve_right hi⟩

/-- As many slots are counted as there are ids whose slot is filled. -/
theorem count_eq_length_filter (s : Slots) :
    s.count = ((List.range s.nodes.size).filter fun i => (s.live? i).isSome).length := by
  have hslots : s.nodes.toList = (List.range s.nodes.size).map s.live? := by
    refine List.ext_getElem (by simp) fun i hi _ => ?_
    have hlt : i < s.nodes.size := hi
    simp [Slots.live?, hlt]
  rw [Slots.count, hslots, List.filter_map, List.length_map]
  rfl

/-- As many slots are filled as there are nodes that some call has obtained. -/
theorem count_after (calls : List LiveCall) :
    (t.after calls).count = (t.obtained calls).toFinset.card := by
  rw [count_eq_length_filter, ← List.toFinset_card_of_nodup (List.nodup_range.filter _)]
  congr 1
  ext i
  simp only [List.mem_toFinset, List.mem_filter, List.mem_range, ← isSome_after_iff]
  exact and_iff_right_of_imp fun hi =>
    (Option.isSome_iff_exists.1 hi).elim fun n hn => Slots.lt_size_of_live? hn

end Tree

/-- **A live node is made at most once.** Some calls have been made on a new tree, with any
registries; now a call `c` is made, and after it some more. -/
theorem live_made_once (t : Tree) (before : List LiveCall) (c : LiveCall) (later : List LiveCall) :
    let s := t.after before
    let x := c.run t s
    let final := t.after (before ++ c :: later)
    -- a slot that is filled stays as it is, no factory runs for its node, and it answers
    (∀ i n, s.live? i = some n →
      final.live? i = some n ∧ final.runs.count i = s.runs.count i ∧
        (∀ r, (LiveCall.live r i).run t s = (.ok [n], s)) ∧
        (LiveCall.cached i).run t s = (.ok [n], s)) ∧
      (∀ ns, x.1 = .ok ns → ∀ n ∈ ns, final.live? n.id = some n) ∧
      -- it holds what the registry of the call that filled it made of its node
      (∀ i n, s.live? i = some n → t.MadeBy before i n) ∧
      -- a call fails at an empty slot, which stays empty and can still be filled
      (∀ e, x.1 = .error e → ∃ i ∈ c.asked t, s.live? i = none ∧
        c.registry.materialize t i = .error e ∧ x.2.live? i = none) ∧
      (∀ i, s.live? i = none → ∀ r n, r.materialize t i = .ok n →
        ((LiveCall.live r i).run t s).1 = .ok [n] ∧
          ((LiveCall.live r i).run t s).2.live? i = some n) ∧
      -- a call on a node that is not there changes nothing
      (t.node? c.node = none → x.2 = s ∧ ∀ r i, c = .live r i → x.1 = .error (.noNode i)) ∧
      -- the filled slots are those of the nodes that were obtained
      (∀ i, (s.live? i).isSome ↔ i ∈ t.obtained before) ∧
      s.count = (t.obtained before).toFinset.card := by
  intro s x final
  have hsize : s.nodes.size = t.size := t.size_after before
  have hfinal : final = t.after (before ++ [c] ++ later) := by
    rw [List.append_assoc, List.singleton_append]
  refine ⟨fun i n hi => ?_, fun ns hns n hn => ?_, fun i n => t.madeBy_of_after,
    fun e => LiveCall.empty_of_run_eq_error hsize, fun i hi r n hn =>
    LiveCall.run_live_of_materialize hsize hi hn, fun hc => ⟨?_, ?_⟩, t.isSome_after_iff before,
    t.count_after before⟩
  · obtain ⟨hkept, hruns⟩ := t.after_append_of_some before (c :: later) hi
    refine ⟨hkept, hruns, fun r => ?_, ?_⟩
    · rw [LiveCall.run_live, Tree.on_live_of_some hi]
      rfl
    · rw [LiveCall.run_cached, hi]
      rfl
  · obtain ⟨i, hi⟩ := LiveCall.slot_of_mem_answer hsize hns hn
    rw [← t.after_concat before c] at hi
    obtain ⟨us, d, vs, -, -, -, hmade⟩ := t.madeBy_of_after hi
    rw [hmade.id, hfinal]
    exact (t.after_append_of_some _ later hi).1
  · exact LiveCall.run_of_node?_eq_none hsize hc
  · rintro r i rfl
    rw [show x = _ from LiveCall.run_live t s r i,
      Tree.on_live_of_node?_eq_none hsize (i := i) hc]
    rfl

/-- A function is asked for without factories, then with the standard ones, and then with a factory
that would make something else of it. -/
theorem live_made_once_standard :
    let es : List Entry := [⟨.file, ⟨"a.py", .empty⟩, 0⟩, ⟨.function, ⟨"f", .empty⟩, 1⟩]
    let calls : List LiveCall := [.live .empty 1, .live .standard 1]
    let other := Registry.empty.register .function fun _ _ => .ok (.moduleScope "f")
    let n : LiveNode := ⟨1, some 0, .function, .callable "f" none none⟩
    ∃ t, Tree.ofEntries es = .ok t ∧ (t.after calls).live? 1 = some n ∧
      (LiveCall.live other 1).run t (t.after calls) = (.ok [n], t.after calls) ∧
      (t.after calls).count = 1 := by
  intro es calls other n
  have hnested : Nested es := nested_iff.2 ⟨List.cons_ne_nil _ _, by unfold Faultless; decide⟩
  rcases ofEntries_cases es with ⟨-, t, ht, hes⟩ | ⟨fault, -, hfault⟩
  · refine ⟨t, ht, ?_⟩
    obtain ⟨below, hm⟩ : ∃ below, t.node? 1 = some ⟨.function, ⟨"f", .empty⟩, some 0, below⟩ := by
      obtain ⟨⟨kind, payload, parent, below⟩, hm, rfl, rfl⟩ := hes.node 1 _ rfl
      have hparent : parent = some 0 := by
        refine (Tree.parent?_of_some hm).symm.trans ((hes.parent 1 0).2 ?_)
        exact ⟨Nat.zero_lt_one, ⟨_, _, rfl, rfl, rfl⟩, fun j _ _ hj hj' => by omega⟩
      exact ⟨below, hparent ▸ hm⟩
    have hunknown : Registry.empty.materialize t 1 = .error (.unknownKind .function) := by
      rw [Registry.materialize, hm]
      rfl
    have hmade : Registry.standard.materialize t 1 = .ok n := by
      rw [Registry.materialize, hm]
      rfl
    have hstart : (t.after []).live? 1 = none := Slots.live?_forTree t 1
    have hhad : (t.after []).had t .empty 1 = .error (.unknownKind .function) :=
      (Slots.had_of_none hstart).trans hunknown
    -- the first call fails and leaves the slot empty, the second fills it, the third reads it
    obtain ⟨-, -, -, hfail, -⟩ := live_made_once t [] (.live .empty 1) []
    obtain ⟨-, -, -, -, hfill, -⟩ := live_made_once t [.live .empty 1] (.live .standard 1) []
    obtain ⟨hkept, -, -, -, -, -, -, hcount⟩ := live_made_once t calls (.live other 1) []
    obtain ⟨i, hi, -, -, hempty⟩ := hfail (.unknownKind .function) (by
      rw [LiveCall.run_live, (Tree.on_live (t.size_after []) 1).1, hhad]
      rfl)
    rw [List.mem_singleton.1 hi] at hempty
    obtain ⟨-, hfilled⟩ := hfill 1 hempty .standard n hmade
    have hobtained : t.obtained calls = [1] := by
      have hfirst : (LiveCall.live .empty 1).obtained t (t.after []) = [] := reached_of_error hhad
      have hsecond : (LiveCall.live .standard 1).obtained t (t.after [.live .empty 1]) = [1] :=
        reached_of_ok ((Slots.had_of_none hempty).trans hmade) rfl
      rw [show calls = [] ++ [.live .empty 1] ++ [.live .standard 1] from rfl,
        Tree.obtained_concat, Tree.obtained_concat, hfirst, List.nil_append, hsecond]
      rfl
    refine ⟨hfilled, (hkept 1 n hfilled).2.2.1 other, ?_⟩
    rw [hcount, hobtained]
    rfl
  · exact absurd hnested hfault.not_nested

end Outline
