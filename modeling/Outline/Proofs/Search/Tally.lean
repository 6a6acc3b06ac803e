import Mathlib.Data.List.Basic
import Outline.Search.Run

/-!
# Outline.Proofs.Search.Tally

**Tallies form a monoid under merging.** What a tally tells is its order of identities and the hits
for each (`Tally.Same`). In this sense merging is associative and the empty tally is neutral, so
the parts of a search may be merged in any bracketing, with empty tallies in between
(`Reduction`), and give one snapshot (`merge_monoid`).

`extend` is read only through `order_extend` and `get?_extend`, and `merge` only through
`order_merge` and `hitsFor_merge`.
-/

namespace Outline

namespace Tally

/-! ### What an extension adds

### What an extension adds

An extension lists the identity if it is new, and puts the hits behind those that are there. -/

theorem contains_hits (t : Tally) (i : Identity) : t.hits.contains i = decide (i ∈ t.order) := by
  rw [Bool.eq_iff_iff, ← t.listed, decide_eq_true_iff]

/-- A new identity is listed behind the others. -/
theorem order_extend (t : Tally) (i : Identity) (more : List Hit) :
    (t.extend i more).order = if i ∈ t.order then t.order else t.order ++ [i] := by
  show (if t.hits.contains i = true then _ else _) = _
  simp only [contains_hits, decide_eq_true_eq]

theorem get?_extend (t : Tally) (i : Identity) (more : List Hit) (j : Identity) :
    (t.extend i more).hits.get? j =
      if j = i then some (t.hitsFor i ++ more) else t.hits.get? j :=
  Table.get?_insert ..

theorem mem_order_extend {t : Tally} {i j : Identity} {more : List Hit} :
    j ∈ (t.extend i more).order ↔ j ∈ t.order ∨ j = i := by
  rw [order_extend]
  split
  · rename_i hi
    exact ⟨.inl, fun h => h.elim id fun hj => hj ▸ hi⟩
  · rw [List.mem_append, List.mem_singleton]

/-- The hits of an extension stand behind those for the same identity. -/
theorem hitsFor_extend (t : Tally) (i : Identity) (more : List Hit) (j : Identity) :
    (t.extend i more).hitsFor j = t.hitsFor j ++ if j = i then more else [] := by
  rw [hitsFor, get?_extend]
  by_cases h : j = i
  · rw [if_pos h, if_pos h, h]
    rfl
  · rw [if_neg h, if_neg h, List.append_nil]
    rfl

/-- The table gives a list, perhaps without hits, to the identities that are listed. -/
theorem get?_hits (t : Tally) (i : Identity) :
    t.hits.get? i = if i ∈ t.order then some (t.hitsFor i) else none := by
  have hlisted : i ∈ t.order ↔ (t.hits.get? i).isSome = true := t.listed i
  rw [hitsFor]
  cases hi : t.hits.get? i <;> simp [hlisted, hi]

theorem hitsFor_of_notMem {t : Tally} {i : Identity} (h : i ∉ t.order) : t.hitsFor i = [] := by
  rw [hitsFor, get?_hits, if_neg h]
  rfl

/-! ### What a merge adds

### What a merge adds

A merge extends the first tally by each group of the second. The identities of a tally are
different, so no group is added twice, and what a merge comes to can be said for order and hits
apart. -/

/-- Extensions for different identities, one after another. -/
theorem order_foldl_extend (f : Identity → List Hit) {is : List Identity} (h : is.Nodup)
    (t : Tally) : (is.foldl (fun t i => t.extend i (f i)) t).order =
      t.order ++ is.filter (· ∉ t.order) := by
  induction is generalizing t with
  | nil => exact (List.append_nil _).symm
  | cons i is ih =>
      obtain ⟨hi, his⟩ := List.nodup_cons.1 h
      have hrest : is.filter (· ∉ (t.extend i (f i)).order) = is.filter (· ∉ t.order) :=
        List.filter_congr fun j hj => by
          have hji : j ≠ i := fun e => hi (e ▸ hj)
          simp [mem_order_extend, hji]
      rw [List.foldl_cons, ih his, hrest, order_extend]
      by_cases hm : i ∈ t.order
      · simp [hm]
      · simp [hm]

theorem hitsFor_foldl_extend (f : Identity → List Hit) {is : List Identity} (h : is.Nodup)
    (t : Tally) (j : Identity) : (is.foldl (fun t i => t.extend i (f i)) t).hitsFor j =
      t.hitsFor j ++ if j ∈ is then f j else [] := by
  induction is generalizing t with
  | nil => exact (List.append_nil _).symm
  | cons i is ih =>
      obtain ⟨hi, his⟩ := List.nodup_cons.1 h
      rw [List.foldl_cons, ih his, hitsFor_extend, List.append_assoc]
      by_cases hji : j = i
      · subst hji
        simp [hi]
      · simp [hji]

/-- The identities of the second tally that are new stand behind those of the first. -/
theorem order_merge (a b : Tally) :
    (a.merge b).order = a.order ++ b.order.filter (· ∉ a.order) :=
  order_foldl_extend b.hitsFor b.nodup a

theorem mem_order_merge {a b : Tally} {i : Identity} :
    i ∈ (a.merge b).order ↔ i ∈ a.order ∨ i ∈ b.order := by
  rw [order_merge, List.mem_append, List.mem_filter, decide_eq_true_iff]
  exact ⟨.imp_right And.left, fun h => (em (i ∈ a.order)).imp_right fun hi =>
    ⟨h.resolve_left hi, hi⟩⟩

/-- The hits of the first tally come before those of the second. -/
theorem hitsFor_merge (a b : Tally) (i : Identity) :
    (a.merge b).hitsFor i = a.hitsFor i ++ b.hitsFor i := by
  rw [merge, hitsFor_foldl_extend b.hitsFor b.nodup]
  split
  · rfl
  · rename_i hi
    rw [hitsFor_of_notMem hi]

theorem hitsFor_foldl_merge (ts : List Tally) (a : Tally) (i : Identity) :
    (ts.foldl merge a).hitsFor i = a.hitsFor i ++ ts.flatMap (·.hitsFor i) := by
  induction ts generalizing a with
  | nil => exact (List.append_nil _).symm
  | cons t ts ih =>
      rw [List.foldl_cons, ih, hitsFor_merge, List.append_assoc, List.flatMap_cons]

theorem mem_order_foldl_merge {ts : List Tally} {a : Tally} {i : Identity} :
    i ∈ (ts.foldl merge a).order ↔ i ∈ a.order ∨ ∃ t ∈ ts, i ∈ t.order := by
  induction ts generalizing a with
  | nil => simp
  | cons t ts ih => rw [List.foldl_cons, ih, mem_order_merge, List.exists_mem_cons_iff, or_assoc]

/-! ### The tallies of a search

### The tallies of a search

A tally for a plan begins with all identities of the plan, so groups without hits are there too and
stand in the order of the plan. -/

theorem forPlan_eq_foldl (p : Plan) :
    forPlan p = (p.requests.map (·.identity)).foldl (fun t i => t.extend i []) empty := by
  rw [List.foldl_map]
  rfl

/-- A tally for a plan lists the identities of the plan, without hits. -/
theorem order_forPlan {p : Plan} (h : (p.requests.map (·.identity)).Nodup) :
    (forPlan p).order = p.requests.map (·.identity) := by
  rw [forPlan_eq_foldl, order_foldl_extend (fun _ => []) h]
  simp [empty]

theorem hitsFor_forPlan {p : Plan} (h : (p.requests.map (·.identity)).Nodup) (i : Identity) :
    (forPlan p).hitsFor i = [] := by
  rw [forPlan_eq_foldl, hitsFor_foldl_extend (fun _ => []) h,
    hitsFor_of_notMem (t := empty) List.not_mem_nil]
  simp

theorem hitsFor_foldl_add (i : Identity) (hs : List Hit) (t : Tally) (j : Identity) :
    (hs.foldl (fun t h => t.add i h) t).hitsFor j = t.hitsFor j ++ if j = i then hs else [] := by
  induction hs generalizing t with
  | nil => simp
  | cons h hs ih =>
      rw [List.foldl_cons, ih, add, hitsFor_extend, List.append_assoc]
      by_cases hji : j = i <;> simp [hji]

theorem of_mem_order_foldl_add {i j : Identity} {hs : List Hit} {t : Tally}
    (hj : j ∈ (hs.foldl (fun t h => t.add i h) t).order) : j ∈ t.order ∨ j = i := by
  induction hs generalizing t with
  | nil => exact .inl hj
  | cons h hs ih => exact (ih hj).elim mem_order_extend.1 .inr

/-! ### The monoid

### The monoid

The tables of two tallies may be kept differently although they say the same, so tallies are
compared by what they tell and not by equality. -/

/-- Two tallies tell the same: the same order, and for every identity the same list of hits. -/
structure Same (a b : Tally) : Prop where
  order : a.order = b.order
  hits : ∀ i, a.hits.get? i = b.hits.get? i

theorem Same.of_hitsFor {a b : Tally} (order : a.order = b.order)
    (hits : ∀ i, a.hitsFor i = b.hitsFor i) : a.Same b :=
  ⟨order, fun i => by rw [get?_hits, get?_hits, order, hits]⟩

theorem Same.hitsFor {a b : Tally} (h : a.Same b) (i : Identity) : a.hitsFor i = b.hitsFor i := by
  rw [Tally.hitsFor, Tally.hitsFor, h.hits]

theorem Same.refl (a : Tally) : a.Same a := ⟨rfl, fun _ => rfl⟩

theorem Same.symm {a b : Tally} (h : a.Same b) : b.Same a :=
  ⟨h.order.symm, fun i => (h.hits i).symm⟩

theorem Same.trans {a b c : Tally} (h : a.Same b) (h' : b.Same c) : a.Same c :=
  ⟨h.order.trans h'.order, fun i => (h.hits i).trans (h'.hits i)⟩

/-- Merging sees no more of tallies than what they tell. -/
theorem Same.merge {a a' b b' : Tally} (ha : a.Same a') (hb : b.Same b') :
    (a.merge b).Same (a'.merge b') :=
  .of_hitsFor (by rw [order_merge, order_merge, ha.order, hb.order]) fun i => by
    rw [hitsFor_merge, hitsFor_merge, ha.hitsFor, hb.hitsFor]

/-- Neither does a snapshot. -/
theorem Same.freeze {a b : Tally} (h : a.Same b) : a.freeze = b.freeze := by
  have hhits : a.hitsFor = b.hitsFor := funext h.hitsFor
  rw [Tally.freeze, Tally.freeze, h.order, hhits]

theorem same_empty_merge (a : Tally) : (empty.merge a).Same a :=
  .of_hitsFor (by rw [order_merge]; simp [empty]) fun i => by
    rw [hitsFor_merge, hitsFor_of_notMem List.not_mem_nil, List.nil_append]

theorem same_merge_empty (a : Tally) : (a.merge empty).Same a :=
  .of_hitsFor (by rw [order_merge]; simp [empty]) fun i => by
    rw [hitsFor_merge, hitsFor_of_notMem (t := empty) List.not_mem_nil, List.append_nil]

/-- Merging is associative. -/
theorem same_merge_assoc (a b c : Tally) : ((a.merge b).merge c).Same (a.merge (b.merge c)) := by
  refine .of_hitsFor ?_ fun i => ?_
  · -- an identity of `c` is new to `a` and `b` together if it is new to both
    have hnew : c.order.filter (· ∉ (a.merge b).order) =
        (c.order.filter (· ∉ b.order)).filter (· ∉ a.order) := by
      rw [List.filter_filter]
      exact List.filter_congr fun i _ => by simp [mem_order_merge]
    rw [order_merge, hnew, order_merge a b, order_merge a, order_merge b, List.filter_append,
      List.append_assoc]
  · rw [hitsFor_merge, hitsFor_merge, hitsFor_merge, hitsFor_merge, List.append_assoc]

end Tally

/-! ### Reductions

### Reductions

How the parts of a search are merged is decided while it runs, so it is taken as any tree of merges
over them. -/

/-- A way to merge the tallies of some parts: in any bracketing, with empty tallies anywhere. -/
inductive Reduction (α : Type) where
  | empty
  | part (a : α)
  | merge (x y : Reduction α)

namespace Reduction

variable {α : Type}

/-- What is left when all is merged. -/
def value (tally : α → Tally) : Reduction α → Tally
  | empty => .empty
  | part a => tally a
  | merge x y => (x.value tally).merge (y.value tally)

/-- The parts from left to right. -/
def parts : Reduction α → List α
  | empty => []
  | part a => [a]
  | merge x y => x.parts ++ y.parts

/-- A reduction behind a tally tells what its parts tell if they are merged to it one by one. -/
theorem same_foldl_parts (tally : α → Tally) (x : Reduction α) (t : Tally) :
    ((x.parts.map tally).foldl Tally.merge t).Same (t.merge (x.value tally)) := by
  induction x generalizing t with
  | empty => exact t.same_merge_empty.symm
  | part a => exact .refl _
  | merge x y ihx ihy =>
      rw [parts, List.map_append, List.foldl_append]
      exact (ihy _).trans (((ihx t).merge (.refl _)).trans (t.same_merge_assoc _ _))

/-- A reduction tells what its parts tell if they are merged from the left. -/
theorem same_value (tally : α → Tally) (x : Reduction α) :
    (x.value tally).Same ((x.parts.map tally).foldl Tally.merge .empty) :=
  (Tally.same_empty_merge _).symm.trans (x.same_foldl_parts tally .empty).symm

end Reduction

/-- **Merging is a monoid, so every reduction gives one answer.** Merging is associative and the
empty tally is neutral on both sides. A reduction gives the snapshot that its parts give if they are
merged one by one from the left, and a reduction of shards gives the results of the search. -/
theorem merge_monoid :
    (∀ a b c : Tally, ((a.merge b).merge c).Same (a.merge (b.merge c))) ∧
      (∀ a : Tally, (Tally.empty.merge a).Same a ∧ (a.merge .empty).Same a) ∧
      (∀ x : Reduction Tally, (x.value id).Same (x.parts.foldl Tally.merge .empty) ∧
        (x.value id).freeze = (x.parts.foldl Tally.merge .empty).freeze) ∧
      ∀ (x : Reduction Shard) (p : Plan),
        ((Tally.forPlan p).merge (x.value (·.tally p))).freeze = search x.parts p := by
  refine ⟨Tally.same_merge_assoc, fun a => ⟨a.same_empty_merge, a.same_merge_empty⟩,
    fun x => ?_, fun x p => ?_⟩
  · have hsame := x.same_value id
    rw [List.map_id] at hsame
    exact ⟨hsame, hsame.freeze⟩
  · rw [search]
    exact Tally.Same.freeze ((Tally.Same.refl (.forPlan p)).merge (x.same_value (·.tally p)))

end Outline
