import Outline.Live.Slots
import Outline.Proofs.Tree.Preorder

/-!
# Outline.Proofs.Live.Queries

**What a query does to the slots.** A query asks for the live nodes of some nodes, one after
another. What a single request comes to is `Slots.had`: the live node in the slot, or else what the
registry makes. A request for one node changes nothing about what a request for another comes to,
nor for the same node again (`Gained.had`), so `had` at the start of a query already tells how far
the query gets (`reached`), and the slots after it are those before with what was got
(`Slots.Gained`).

A query is a computation that may fail and changes slots; `Query.on` runs it. Every query that there
is makes requests in a row and stops at the first that fails, or at the first live node that it was
looking for. That is all that the two lemmas at the end say, and what the calls of the library are
built from.
-/

namespace Outline

namespace Query

variable {α β : Type}

/-- What a query on slots comes to, and the slots after it. -/
def on (q : Query α) (s : Slots) : Except LiveError α × Slots := q.run.run s

/-- Looking at the slots changes nothing. -/
theorem on_get (s : Slots) : (get : Query Slots).on s = (.ok s, s) := rfl

/-- Queries in a row: the second sees the slots that the first leaves, unless the first fails. -/
theorem on_bind (q : Query α) (f : α → Query β) (s : Slots) :
    (q >>= f).on s = match q.on s with
      | (.ok a, s') => (f a).on s'
      | (.error e, s') => (.error e, s') := by
  rw [on, ExceptT.run_bind, StateT.run_bind, ← on]
  obtain ⟨a | e, s'⟩ := q.on s <;> rfl

/-- The first query succeeds, and the second goes on from where it left the slots. -/
theorem on_bind_of_ok {q : Query α} {s s' : Slots} {a : α} (h : q.on s = (.ok a, s'))
    (f : α → Query β) : (q >>= f).on s = (f a).on s' := by
  rw [on_bind, h]

/-- The first query fails, and the second is not made. The slots stay as the first left them. -/
theorem on_bind_of_error {q : Query α} {s s' : Slots} {e : LiveError}
    (h : q.on s = (.error e, s')) (f : α → Query β) : (q >>= f).on s = (.error e, s') := by
  rw [on_bind, h]

end Query

/-- A live node that a registry makes tells the place of its node, and its element is what the
factory of the registry returned. -/
structure MadeFor (t : Tree) (r : Registry) (i : NodeId) (n : LiveNode) : Prop where
  id : n.id = i
  parent : n.parent = t.parent? i
  element : ∃ m f, t.node? i = some m ∧ n.kind = m.kind ∧ r.factory? m.kind = some f ∧
    f t ⟨m, i⟩ = .ok n.element

/-- Making succeeds in one way only: there is a node, a factory for its kind, and an element from
it. -/
theorem Registry.madeFor_of_materialize {r : Registry} {t : Tree} {i : NodeId} {n : LiveNode}
    (h : r.materialize t i = .ok n) : MadeFor t r i n := by
  unfold materialize at h
  split at h
  · cases h
  · rename_i m hm
    split at h
    · cases h
    · rename_i f hf
      split at h
      · cases h
      · rename_i element helement
        cases h
        exact ⟨rfl, (Tree.parent?_of_some hm).symm, m, f, hm, rfl, hf, helement⟩

/-- Of a node that is not there nothing is made, whatever the registry has. -/
theorem Registry.materialize_of_node?_eq_none {t : Tree} {i : NodeId} (h : t.node? i = none)
    (r : Registry) : r.materialize t i = .error (.noNode i) := by
  rw [materialize, h]

namespace Slots

/-! ### Slots

There is a slot for each node, and it is empty or holds a live node. `Gained` says what a row of
requests does to them, by way of `had`: which slots are filled, that no slot changes what it holds,
and that the factory of a node that is there already does not run. A factory that fails has run,
too; the log tells, and so the log is not part of what requests agree on. -/

variable {t : Tree} {r : Registry} {s s' : Slots} {i j : NodeId}

/-- Filling a slot makes no slots. -/
theorem size_fill (s : Slots) (i : NodeId) (n : LiveNode) :
    (s.fill i n).nodes.size = s.nodes.size :=
  Array.size_setIfInBounds

/-- A slot that is filled holds what was put there, and the others what they held. -/
theorem live?_fill (h : i < s.nodes.size) (n : LiveNode) (j : NodeId) :
    (s.fill i n).live? j = if j = i then some n else s.live? j := by
  unfold live? fill
  rw [Array.getElem?_setIfInBounds]
  by_cases hji : j = i
  · subst hji
    simp [h]
  · rw [if_neg (Ne.symm hji), if_neg hji]

/-- What holds something is one of the slots. -/
theorem lt_size_of_live? {n : LiveNode} (h : s.live? i = some n) : i < s.nodes.size := by
  refine Nat.lt_of_not_le fun hle => ?_
  rw [live?, Array.getElem?_eq_none hle] at h
  cases h

/-- At first all slots are empty. -/
theorem live?_forTree (t : Tree) (i : NodeId) : (forTree t).live? i = none := by
  unfold live? forTree
  rw [Array.getElem?_replicate]
  split <;> rfl

/-- A node that is not there has no slot to hold anything. -/
theorem live?_of_node?_eq_none (hsize : s.nodes.size = t.size) (h : t.node? i = none) :
    s.live? i = none := by
  have hle : s.nodes.size ≤ i := hsize ▸ Array.getElem?_eq_none_iff.1 h
  rw [live?, Array.getElem?_eq_none hle]
  rfl

/-- What a request for the live node of `i` comes to: what is in the slot, or else what the registry
makes. -/
def had (s : Slots) (t : Tree) (r : Registry) (i : NodeId) : Except LiveError LiveNode :=
  match s.live? i with
  | some n => .ok n
  | none => r.materialize t i

/-- A slot that is filled is not made again. -/
theorem had_of_some {n : LiveNode} (h : s.live? i = some n) : s.had t r i = .ok n := by
  rw [had, h]

/-- An empty slot is made by the registry. -/
theorem had_of_none (h : s.live? i = none) : s.had t r i = r.materialize t i := by
  rw [had, h]

/-- A request fails only for a node whose slot is empty. -/
theorem of_had_eq_error {e : LiveError} (h : s.had t r i = .error e) :
    s.live? i = none ∧ r.materialize t i = .error e := by
  cases hi : s.live? i with
  | some n =>
      rw [had_of_some hi] at h
      cases h
  | none => exact ⟨rfl, had_of_none hi ▸ h⟩

/-- The slots with a factory run in the log, if the registry has a factory for the node. -/
def noted (s : Slots) (t : Tree) (r : Registry) (i : NodeId) : Slots :=
  if (t.node? i).any fun n => r.contains n.kind then s.note i else s

/-- The log is no slot. -/
theorem live?_noted (j : NodeId) : (s.noted t r i).live? j = s.live? j := by
  unfold noted
  split <;> rfl

theorem size_noted : (s.noted t r i).nodes.size = s.nodes.size := by
  unfold noted
  split <;> rfl

/-- A factory run for one node is no run for another. -/
theorem count_runs_noted (h : j ≠ i) : (s.noted t r i).runs.count j = s.runs.count j := by
  unfold noted
  split
  · exact List.count_cons_of_ne (Ne.symm h)
  · rfl

/-- What requests with one registry do to the slots: those of the nodes in `got` hold what was had
for them, the others what they held, and no factory runs for a node whose slot is filled. -/
structure Gained (s s' : Slots) (t : Tree) (r : Registry) (got : List NodeId) : Prop where
  live? : ∀ j, s'.live? j = if j ∈ got then (s.had t r j).toOption else s.live? j
  size : s'.nodes.size = s.nodes.size
  runs : ∀ j n, s.live? j = some n → s'.runs.count j = s.runs.count j

/-- No request, no change. -/
theorem Gained.refl (s : Slots) : s.Gained s t r [] :=
  ⟨fun j => by rw [if_neg List.not_mem_nil], rfl, fun _ _ _ => rfl⟩

/-- What is in a slot stays there. -/
theorem Gained.kept {got : List NodeId} (h : s.Gained s' t r got) {n : LiveNode}
    (hj : s.live? j = some n) : s'.live? j = some n := by
  rw [h.live? j, had_of_some hj, hj]
  split <;> rfl

/-- A node that was got to has its live node in the slot. -/
theorem Gained.live?_of_mem {got : List NodeId} (h : s.Gained s' t r got) (hj : j ∈ got)
    {n : LiveNode} (hn : s.had t r j = .ok n) : s'.live? j = some n := by
  rw [h.live? j, if_pos hj, hn]
  rfl

/-- A node that was not got to has what it had, if anything. -/
theorem Gained.live?_of_notMem {got : List NodeId} (h : s.Gained s' t r got) (hj : j ∉ got) :
    s'.live? j = s.live? j := by
  rw [h.live? j, if_neg hj]

/-- With the same registry, a request comes to the same before and after other requests. -/
theorem Gained.had {got : List NodeId} (h : s.Gained s' t r got) (j : NodeId) :
    s'.had t r j = s.had t r j := by
  cases hn : s.had t r j with
  | ok n =>
      by_cases hj : j ∈ got
      -- It was got to, and what was had is now in the slot.
      · exact had_of_some (h.live?_of_mem hj hn)
      · rw [← hn, Slots.had, Slots.had, h.live?_of_notMem hj]
  -- What fails is made anew each time, and with the same registry it fails in the same way.
  | error e =>
      obtain ⟨hempty, hmade⟩ := of_had_eq_error hn
      have hstill : s'.live? j = none := by
        rw [h.live? j, hn, hempty]
        split <;> rfl
      rw [had_of_none hstill, hmade]

/-- Requests in two rows are requests in one. What the second row has is what the first had, since a
request comes to the same before and after others. -/
theorem Gained.trans {s₁ s₂ : Slots} {got more : List NodeId} (h : s.Gained s₁ t r got)
    (h' : s₁.Gained s₂ t r more) : s.Gained s₂ t r (got ++ more) where
  live? j := by
    rw [h'.live? j, h.had j, h.live? j]
    by_cases hm : j ∈ more <;> by_cases hg : j ∈ got <;> simp [hm, hg]
  size := h'.size.trans h.size
  runs j n hj := (h'.runs j n (h.kept hj)).trans (h.runs j n hj)

end Slots

/-- The nodes that requests in a row get to: up to the first that fails, which is left out, or the
first whose live node ends the row. -/
def reached (had : NodeId → Except LiveError LiveNode) (ends : LiveNode → Bool) :
    List NodeId → List NodeId
  | [] => []
  | i :: rest => match had i with
    | .error _ => []
    | .ok n => i :: if ends n then [] else reached had ends rest

section

variable {had : NodeId → Except LiveError LiveNode} {ends : LiveNode → Bool} {i : NodeId}
  {is : List NodeId}

/-- The row ends in front of a node that fails. -/
theorem reached_of_error {e : LiveError} (h : had i = .error e) :
    reached had ends (i :: is) = [] := by
  rw [reached, h]

/-- The row goes on behind a node that does not end it. -/
theorem reached_of_ok {n : LiveNode} (h : had i = .ok n) (hn : ends n = false) :
    reached had ends (i :: is) = i :: reached had ends is := by
  rw [reached, h]
  simp only [hn, Bool.false_eq_true, if_false]

/-- The row ends with a node that does. -/
theorem reached_of_end {n : LiveNode} (h : had i = .ok n) (hn : ends n = true) :
    reached had ends (i :: is) = [i] := by
  rw [reached, h]
  simp only [hn, if_true]

/-- What is reached was asked for, and it was had. -/
theorem of_mem_reached (h : i ∈ reached had ends is) : i ∈ is ∧ ∃ n, had i = .ok n := by
  induction is with
  | nil => cases h
  | cons j is ih =>
      cases hj : had j with
      | error e =>
          rw [reached_of_error hj] at h
          cases h
      | ok n =>
          cases hn : ends n with
          | true =>
              rw [reached_of_end hj hn] at h
              rw [List.mem_singleton.1 h]
              exact ⟨List.mem_cons_self, n, hj⟩
          | false =>
              rw [reached_of_ok hj hn] at h
              rcases List.mem_cons.1 h with rfl | h
              · exact ⟨List.mem_cons_self, n, hj⟩
              · exact (ih h).imp (List.mem_cons_of_mem j) id

end

/-! ### What a row of requests comes to

Now that requests do not depend on each other, a row of them is a list of outcomes, with no slots in
it. The lemmas here are on lists: which of the requests an answer or an error came from. -/

section

variable {had : NodeId → Except LiveError LiveNode}

/-- The first live node in a row that `p` accepts, up to the first request that fails. -/
def firstLive? (had : NodeId → Except LiveError LiveNode) (p : LiveNode → Bool) :
    List NodeId → Except LiveError (Option LiveNode)
  | [] => .ok none
  | i :: rest => match had i with
    | .error e => .error e
    | .ok n => if p n then .ok (some n) else firstLive? had p rest

/-- A request that fails ends the search. -/
theorem firstLive?_of_error {p : LiveNode → Bool} {i : NodeId} {e : LiveError}
    (h : had i = .error e) (is : List NodeId) : firstLive? had p (i :: is) = .error e := by
  rw [firstLive?, h]

/-- A live node ends the search if it is accepted. -/
theorem firstLive?_of_ok {p : LiveNode → Bool} {i : NodeId} {n : LiveNode}
    (h : had i = .ok n) (is : List NodeId) :
    firstLive? had p (i :: is) = if p n then .ok (some n) else firstLive? had p is := by
  rw [firstLive?, h]

/-- A row of requests fails as one of them. -/
theorem of_mapM_eq_error {is : List NodeId} {e : LiveError} (h : is.mapM had = .error e) :
    ∃ i ∈ is, had i = .error e := by
  induction is with
  | nil => cases h
  | cons i is ih =>
      rw [List.mapM_cons] at h
      cases hi : had i with
      | error e' =>
          rw [hi] at h
          cases h
          exact ⟨i, List.mem_cons_self, hi⟩
      | ok n =>
          cases hs : is.mapM had with
          | error e' =>
              rw [hi, hs] at h
              cases h
              obtain ⟨j, hj, hje⟩ := ih hs
              exact ⟨j, List.mem_cons_of_mem i hj, hje⟩
          | ok ns =>
              rw [hi, hs] at h
              cases h

/-- The live nodes of a row that does not fail are those of the nodes it reaches. -/
theorem of_mem_mapM {is : List NodeId} {ns : List LiveNode} (h : is.mapM had = .ok ns)
    {n : LiveNode} (hn : n ∈ ns) :
    ∃ i ∈ reached had (fun _ => false) is, had i = .ok n := by
  induction is generalizing ns with
  | nil =>
      cases h
      cases hn
  | cons i is ih =>
      rw [List.mapM_cons] at h
      cases hi : had i with
      | error e =>
          rw [hi] at h
          cases h
      | ok m =>
          cases hs : is.mapM had with
          | error e =>
              rw [hi, hs] at h
              cases h
          | ok ms =>
              rw [hi, hs] at h
              cases h
              rw [reached_of_ok hi rfl]
              rcases List.mem_cons.1 hn with rfl | hn
              -- No live node ends this row, so all nodes are reached.
              · exact ⟨i, List.mem_cons_self, hi⟩
              · obtain ⟨j, hj, hjn⟩ := ih hs hn
                exact ⟨j, List.mem_cons_of_mem i hj, hjn⟩

/-- A search fails as one of its requests does. -/
theorem of_firstLive?_eq_error {p : LiveNode → Bool} {is : List NodeId} {e : LiveError}
    (h : firstLive? had p is = .error e) : ∃ i ∈ is, had i = .error e := by
  induction is with
  | nil => cases h
  | cons i is ih =>
      cases hi : had i with
      | error e' =>
          rw [firstLive?_of_error hi] at h
          cases h
          exact ⟨i, List.mem_cons_self, hi⟩
      | ok n =>
          rw [firstLive?_of_ok hi] at h
          split at h
          · cases h
          · obtain ⟨j, hj, hje⟩ := ih h
            exact ⟨j, List.mem_cons_of_mem i hj, hje⟩

/-- A live node that is found is that of a node that was reached, namely the last one. -/
theorem of_firstLive?_eq_some {p : LiveNode → Bool} {is : List NodeId} {n : LiveNode}
    (h : firstLive? had p is = .ok (some n)) : ∃ i ∈ reached had p is, had i = .ok n := by
  induction is with
  | nil => cases h
  | cons i is ih =>
      cases hi : had i with
      | error e =>
          rw [firstLive?_of_error hi] at h
          cases h
      | ok m =>
          rw [firstLive?_of_ok hi] at h
          by_cases hp : p m = true
          · rw [if_pos hp] at h
            cases h
            rw [reached_of_end hi hp]
            exact ⟨i, List.mem_cons_self, hi⟩
          · rw [if_neg hp] at h
            rw [reached_of_ok hi (Bool.eq_false_iff.2 hp)]
            obtain ⟨j, hj, hjn⟩ := ih h
            exact ⟨j, List.mem_cons_of_mem i hj, hjn⟩

end

namespace Tree

/-! ### Queries

One request is looked at by cases: the slot is filled, or it is empty and the registry fails, or it
is empty and is filled now. From then on only the two shapes are used, `on_live_of_had_error` and
`on_live_of_had`, in an induction over the nodes that are asked for. -/

variable {t : Tree} {r : Registry} {s : Slots} {i : NodeId}

/-- Making a live node notes the run of its factory, if it has one, and fills no slot. -/
theorem on_materialize : (t.materialize r i).on s = (r.materialize t i, s.noted t r i) := by
  unfold materialize Slots.noted
  split <;> rfl

/-- A slot that is filled is the answer. -/
theorem on_live_of_some {n : LiveNode} (h : s.live? i = some n) :
    (t.live r i).on s = (.ok n, s) := by
  rw [live, Query.on_bind_of_ok (Query.on_get s), h]
  rfl

/-- An empty slot is filled if the registry makes a live node, and stays empty otherwise. -/
theorem on_live_of_none (h : s.live? i = none) :
    (t.live r i).on s = (r.materialize t i, match r.materialize t i with
      | .ok n => (s.noted t r i).fill i n
      | .error _ => s.noted t r i) := by
  rw [live, Query.on_bind_of_ok (Query.on_get s), h]
  show Query.on (t.materialize r i >>= _) s = _
  rw [Query.on_bind, on_materialize]
  cases r.materialize t i <;> rfl

/-- A request for a node that is not there changes nothing, not even the log. -/
theorem on_live_of_node?_eq_none (hsize : s.nodes.size = t.size) (h : t.node? i = none)
    (r : Registry) : (t.live r i).on s = (.error (.noNode i), s) := by
  rw [on_live_of_none (Slots.live?_of_node?_eq_none hsize h), r.materialize_of_node?_eq_none h,
    Slots.noted, h]
  rfl

/-- One request: it comes to what is had, and fills the slot of its node at most. -/
theorem on_live (hsize : s.nodes.size = t.size) (i : NodeId) :
    ((t.live r i).on s).1 = s.had t r i ∧
      s.Gained ((t.live r i).on s).2 t r (reached (s.had t r) (fun _ => false) [i]) := by
  cases hi : s.live? i with
  -- The slot is filled: nothing changes, and the node counts as got to.
  | some n =>
      have hhad : s.had t r i = .ok n := Slots.had_of_some hi
      rw [on_live_of_some hi, reached_of_ok hhad rfl, reached]
      refine ⟨hhad.symm, fun j => ?_, rfl, fun _ _ _ => rfl⟩
      by_cases hji : j ∈ [i]
      · rw [if_pos hji, List.mem_singleton.1 hji, hhad]
        exact hi
      · rw [if_neg hji]
  | none =>
      have hhad : s.had t r i = r.materialize t i := Slots.had_of_none hi
      -- The factory that may run now is that of an empty slot, so the counts for filled ones stay.
      have hother : ∀ {j n}, s.live? j = some n → j ≠ i := by
        rintro j n hj rfl
        rw [hi] at hj
        cases hj
      rw [on_live_of_none hi]
      refine ⟨hhad.symm, ?_⟩
      cases hn : r.materialize t i with
      | error e =>
          rw [reached_of_error (hhad.trans hn)]
          exact ⟨fun j => by rw [if_neg List.not_mem_nil, Slots.live?_noted], Slots.size_noted,
            fun j n hj => Slots.count_runs_noted (hother hj)⟩
      | ok n =>
          obtain ⟨m, -, hm, -⟩ := (Registry.madeFor_of_materialize hn).element
          have hlt : i < (s.noted t r i).nodes.size := by
            rw [Slots.size_noted, hsize]
            exact lt_size_of_node? hm
          rw [reached_of_ok (hhad.trans hn) rfl, reached]
          refine ⟨fun j => ?_, (Slots.size_fill _ i n).trans Slots.size_noted,
            fun j m hj => Slots.count_runs_noted (hother hj)⟩
          rw [Slots.live?_fill hlt, Slots.live?_noted]
          by_cases hji : j = i
          · rw [if_pos hji, hji, if_pos List.mem_cons_self, hhad, hn]
            rfl
          · rw [if_neg hji, if_neg fun hmem => hji (List.mem_singleton.1 hmem)]

/-- A request that fails leaves the slots as they are. -/
theorem on_live_of_had_error (hsize : s.nodes.size = t.size) {e : LiveError}
    (hn : s.had t r i = .error e) :
    ∃ s₁, (t.live r i).on s = (.error e, s₁) ∧ s.Gained s₁ t r [] := by
  obtain ⟨hanswer, hgained⟩ := @on_live t r s hsize i
  rw [reached_of_error hn] at hgained
  exact ⟨((t.live r i).on s).2, by rw [← hn, ← hanswer], hgained⟩

/-- A request that does not fail leaves slots with which all requests come to the same. -/
theorem on_live_of_had (hsize : s.nodes.size = t.size) {n : LiveNode} (hn : s.had t r i = .ok n) :
    ∃ s₁, (t.live r i).on s = (.ok n, s₁) ∧ s₁.nodes.size = t.size ∧ s₁.had t r = s.had t r ∧
      s.Gained s₁ t r [i] := by
  obtain ⟨hanswer, hgained⟩ := @on_live t r s hsize i
  rw [reached_of_ok hn rfl, reached] at hgained
  refine ⟨((t.live r i).on s).2, ?_, hgained.size.trans hsize, funext hgained.had, hgained⟩
  rw [← hn, ← hanswer]

/-- Requests for some nodes in a row, up to the first that fails. -/
theorem on_mapM_live (hsize : s.nodes.size = t.size) (is : List NodeId) :
    ((is.mapM (t.live r)).on s).1 = is.mapM (s.had t r) ∧
      s.Gained ((is.mapM (t.live r)).on s).2 t r (reached (s.had t r) (fun _ => false) is) := by
  induction is generalizing s with
  | nil => exact ⟨rfl, .refl s⟩
  | cons i is ih =>
      rw [List.mapM_cons, List.mapM_cons]
      cases hn : s.had t r i with
      | error e =>
          obtain ⟨s₁, hlive, hgained⟩ := on_live_of_had_error hsize hn
          rw [Query.on_bind_of_error hlive, reached_of_error hn]
          exact ⟨rfl, hgained⟩
      | ok n =>
          obtain ⟨s₁, hlive, hsize₁, hhad, hfirst⟩ := on_live_of_had hsize hn
          obtain ⟨hanswer, hrest⟩ := ih hsize₁
          rw [hhad] at hanswer hrest
          rw [Query.on_bind_of_ok hlive, reached_of_ok hn rfl, Query.on_bind]
          have hboth := hfirst.trans hrest
          -- Whatever the rest comes to, the slots are those that the rest leaves.
          generalize (is.mapM (t.live r)).on s₁ = x at hanswer hboth
          obtain ⟨answer, s₂⟩ := x
          rw [← hanswer]
          cases answer <;> exact ⟨rfl, hboth⟩

/-- Requests in a row, up to the first live node that `p` accepts or the first that fails. -/
theorem on_findLive? (hsize : s.nodes.size = t.size) (p : LiveNode → Bool) (is : List NodeId) :
    ((t.findLive? r p is).on s).1 = firstLive? (s.had t r) p is ∧
      s.Gained ((t.findLive? r p is).on s).2 t r (reached (s.had t r) p is) := by
  induction is generalizing s with
  | nil => exact ⟨rfl, .refl s⟩
  | cons i is ih =>
      rw [findLive?]
      cases hn : s.had t r i with
      | error e =>
          obtain ⟨s₁, hlive, hgained⟩ := on_live_of_had_error hsize hn
          rw [Query.on_bind_of_error hlive, reached_of_error hn, firstLive?_of_error hn]
          exact ⟨rfl, hgained⟩
      | ok n =>
          obtain ⟨s₁, hlive, hsize₁, hhad, hfirst⟩ := on_live_of_had hsize hn
          rw [Query.on_bind_of_ok hlive, firstLive?_of_ok hn]
          by_cases hp : p n = true
          · rw [reached_of_end hn hp, if_pos hp, if_pos hp]
            exact ⟨rfl, hfirst⟩
          · obtain ⟨hanswer, hrest⟩ := ih hsize₁
            rw [hhad] at hanswer hrest
            rw [reached_of_ok hn (Bool.eq_false_iff.2 hp), if_neg hp, if_neg hp]
            exact ⟨hanswer, hfirst.trans hrest⟩

end Tree

end Outline
