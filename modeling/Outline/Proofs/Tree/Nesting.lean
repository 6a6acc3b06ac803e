import Mathlib.Data.List.Induction
import Outline.Proofs.Tree.Rows
import Outline.Tree.Entry

/-!
# Outline.Proofs.Tree.Nesting

**Trees from flat listings.** A listing makes a tree exactly if its depths nest and its payloads
are without fault; otherwise the first entry that does not fit is reported; and the tree that is
made describes the listing so completely that the listing can be read off it again
(`ofEntries_exact`).

The rules of nesting are stated over the listing alone (`Entry.faultBehind`, `Nested`,
`Belongs`), without the chain of open entries that `Reading.add` keeps. The proof has two
layers: one step of the reading keeps the invariant `ReadSoFar`, which says what the chain means
in terms of the listing, and induction from the end of the listing lifts it to whole runs.
-/

namespace Outline

/-! ### The rules of a listing -/

/-- What is wrong with the depth of an entry behind the given ones. -/
def Entry.nestingFault? (before : List Entry) (depth : Nat) : Option BuildError :=
  match before.getLast? with
  | none => if depth = 0 then none else some (.badNesting 0 depth 0)
  | some last =>
    if depth = 0 then some (.secondRoot before.length)
    else if last.depth + 1 < depth then
      some (.badNesting before.length depth (last.depth + 1))
    else none

/-- What is wrong with an entry behind the given ones: a fault of its depth counts first, then
one of its payload. -/
def Entry.faultBehind (before : List Entry) (e : Entry) : Option BuildError :=
  (Entry.nestingFault? before e.depth).or (e.payload.fault?.map .malformedPayload)

/-- What is wrong with the entry at a position of a listing. -/
def Entry.faultAt? (es : List Entry) (i : Nat) : Option BuildError :=
  es[i]?.bind (Entry.faultBehind (es.take i))

/-- The error that a listing gives: it has no entry, or the first faulty one decides. -/
def FirstFault (es : List Entry) (fault : BuildError) : Prop :=
  (es = [] ∧ fault = .empty) ∨
    ∃ i, Entry.faultAt? es i = some fault ∧ ∀ j < i, Entry.faultAt? es j = none

/-- A listing that makes a tree. -/
structure Nested (es : List Entry) : Prop where
  nonempty : es ≠ []
  /-- The first entry is the root. -/
  first : ∀ e, es[0]? = some e → e.depth = 0
  /-- Every other entry is below the root, and at most one level below the entry before it. -/
  later : ∀ i d e, es[i]? = some d → es[i + 1]? = some e → 1 ≤ e.depth ∧ e.depth ≤ d.depth + 1
  payload : ∀ e ∈ es, e.payload.fault? = none

/-- Entry `p` is the last one in front of entry `i` that lies one level higher. -/
structure Belongs (es : List Entry) (i p : Nat) : Prop where
  before : p < i
  above : ∃ d e, es[p]? = some d ∧ es[i]? = some e ∧ d.depth + 1 = e.depth
  last : ∀ j x e, p < j → j < i → es[j]? = some x → es[i]? = some e → x.depth + 1 ≠ e.depth

/-- The entries of a tree: its nodes in pre-order, each with the number of its owners. -/
def Tree.entries (t : Tree) : List Entry :=
  t.preorder.filterMap fun i => (t.node? i).map fun n => ⟨n.kind, n.payload, t.depth i⟩

/-- A tree is what a listing says. -/
structure Describes (es : List Entry) (t : Tree) : Prop where
  size : t.size = es.length
  /-- Node `i` is entry `i`. -/
  node : ∀ i e, es[i]? = some e → ∃ n, t.node? i = some n ∧ n.kind = e.kind ∧ n.payload = e.payload
  /-- The depth of an entry is the number of owners. -/
  depth : ∀ i e, es[i]? = some e → t.depth i = e.depth
  parent : ∀ i p, t.parent? i = some p ↔ Belongs es i p
  preorder : t.preorder = List.range es.length
  /-- The listing can be read off the tree. -/
  entries : t.entries = es

/-! ### The invariant of reading

### The invariant of reading

Reading keeps a chain of the entries that may still get something below them. Each end of the chain
is again a chain, for a higher level, so the invariant speaks of all ends at once: its first entry
lies as deep as the end is long, and whatever stands behind it lies deeper. -/

/-- Entry `p` is in front of entry `i`, one level higher, and nothing between them rises above
the level of `i`. -/
structure Owns (es : List Entry) (p i : Nat) : Prop where
  before : p < i
  above : ∃ d e, es[p]? = some d ∧ es[i]? = some e ∧ d.depth + 1 = e.depth
  between : ∀ j x e, p < j → j < i → es[j]? = some x → es[i]? = some e → e.depth ≤ x.depth

/-- What has been read of a listing: the rows of the arena are the entries, and the chain holds,
innermost first, for every level the last entry on it, as long as no later entry rose above. -/
structure ReadSoFar (es : List Entry) (r : Reading) : Prop where
  size : r.arena.size = es.length
  row : ∀ i e, es[i]? = some e → ∃ parent, r.arena.rows[i]? = some ⟨e.kind, parent, e.payload⟩ ∧
    (parent = none → i = 0 ∧ e.depth = 0) ∧ ∀ p : Nat, parent = some p → Owns es p i
  chain_length : r.chain.length = (es.getLast?.map (·.depth + 1)).getD 0
  chain : ∀ (j : Nat) (outer : List NodeId), (j :: outer) <:+ r.chain →
    (∃ e, es[j]? = some e ∧ e.depth = outer.length) ∧
      ∀ k x, j < k → es[k]? = some x → outer.length < x.depth

theorem ReadSoFar.nil : ReadSoFar [] {} where
  size := rfl
  row i e h := by simp at h
  chain_length := rfl
  chain j outer h := by simp at h

/-- An entry of a listing with one more is one of those before, or the last. -/
theorem getElem?_snoc {es : List Entry} {e x : Entry} {i : Nat} (h : (es ++ [e])[i]? = some x) :
    (i < es.length ∧ es[i]? = some x) ∨ (i = es.length ∧ e = x) := by
  rcases Nat.lt_or_ge i es.length with hi | hi
  · rw [List.getElem?_append_left hi] at h
    exact .inl ⟨hi, h⟩
  · rw [List.getElem?_append_right hi] at h
    obtain ⟨hlt, hx⟩ := List.getElem?_eq_some_iff.1 h
    simp only [List.length_singleton] at hlt
    exact .inr ⟨by omega, by simpa using hx⟩

/-- Ownership among the entries so far does not depend on what follows. -/
theorem Owns.append {es : List Entry} {p i : Nat} (h : Owns es p i) (more : List Entry) :
    Owns (es ++ more) p i := by
  obtain ⟨d, e, hd, he, hde⟩ := h.above
  have hi := (List.getElem?_eq_some_iff.1 he).1
  have hget : ∀ j ≤ i, (es ++ more)[j]? = es[j]? := fun j hj =>
    List.getElem?_append_left (Nat.lt_of_le_of_lt hj hi)
  refine ⟨h.before, ⟨d, e, ?_, ?_, hde⟩, fun j x e' hpj hji hx he' => ?_⟩
  · rw [hget p (Nat.le_of_lt h.before), hd]
  · rw [hget i (Nat.le_refl i), he]
  · rw [hget j (Nat.le_of_lt hji)] at hx
    rw [hget i (Nat.le_refl i)] at he'
    exact h.between j x e' hpj hji hx he'

/-- The check that reading makes is the rule of the listing: the chain is as long as the last
entry is deep, and one more. -/
theorem ReadSoFar.nestingFault?_eq {es : List Entry} {r : Reading} (h : ReadSoFar es r)
    (depth : Nat) : r.nestingFault? depth = Entry.nestingFault? es depth := by
  have hlength := h.chain_length
  rw [Reading.nestingFault?, Entry.nestingFault?, h.size]
  cases hlast : es.getLast? with
  | none =>
      rw [List.getLast?_eq_none_iff.1 hlast]
      by_cases hd : depth = 0 <;> simp [hd]
  | some last =>
      rw [hlast] at hlength
      have hne : es.length ≠ 0 := by
        intro h0
        rw [List.length_eq_zero_iff.1 h0] at hlast
        cases hlast
      simp only [Option.map_some, Option.getD_some] at hlength
      rw [if_neg hne, hlength]

/-- Where an entry fits, as many entries stay open as it is deep. -/
theorem length_drop_chain {es : List Entry} {r : Reading} (h : ReadSoFar es r) {depth : Nat}
    (hn : Entry.nestingFault? es depth = none) :
    (r.chain.drop (r.chain.length - depth)).length = depth ∧ (depth = 0 ↔ es = []) := by
  have hlength := h.chain_length
  rw [Entry.nestingFault?] at hn
  rw [List.length_drop]
  cases hlast : es.getLast? with
  | none =>
      rw [hlast] at hn
      simp only [ite_eq_left_iff, reduceCtorEq, imp_false, Decidable.not_not] at hn
      rw [List.getLast?_eq_none_iff.1 hlast, hn]
      simp
  | some last =>
      rw [hlast] at hn hlength
      simp only [Option.map_some, Option.getD_some] at hn hlength
      have hne : es ≠ [] := by
        rintro rfl
        cases hlast
      split at hn
      · cases hn
      · rename_i hd
        split at hn
        · cases hn
        · exact ⟨by omega, fun h0 => absurd h0 hd, fun h0 => absurd h0 hne⟩

/-- The innermost entry left open owns the entry that is read. -/
theorem ReadSoFar.owns_head {es : List Entry} {r : Reading} (h : ReadSoFar es r) {e : Entry}
    {j : Nat} {outer : List NodeId} (hs : (j :: outer) <:+ r.chain)
    (hd : outer.length + 1 = e.depth) : Owns (es ++ [e]) j es.length := by
  obtain ⟨⟨d, hdj, hdd⟩, hlater⟩ := h.chain j outer hs
  have hj := (List.getElem?_eq_some_iff.1 hdj).1
  refine ⟨hj, ⟨d, e, ?_, by simp, by omega⟩, fun k x e' hjk hk hx he' => ?_⟩
  · rw [List.getElem?_append_left hj, hdj]
  · rw [List.getElem?_append_left hk] at hx
    obtain rfl : e = e' := by simpa using he'
    have := hlater k x hjk hx
    omega

/-- The invariant after an entry is attached below the innermost entry of `left`, which is what
stays open of the chain. -/
theorem ReadSoFar.push {es : List Entry} {r : Reading} (h : ReadSoFar es r) {e : Entry}
    {left : List NodeId} {arena : Arena} (hsuffix : left <:+ r.chain)
    (hlength : left.length = e.depth)
    (hnone : left.head? = none → es.length = 0 ∧ e.depth = 0)
    (howns : ∀ p : Nat, left.head? = some p → Owns (es ++ [e]) p es.length)
    (hrows : arena.rows = r.arena.rows ++ [⟨e.kind, left.head?, e.payload⟩]) :
    ReadSoFar (es ++ [e]) ⟨arena, r.arena.size :: left⟩ where
  size := by
    rw [← arena.length_rows, hrows, List.length_append, r.arena.length_rows, h.size,
      List.length_append]
    rfl
  row i x hx := by
    rw [hrows]
    rcases getElem?_snoc hx with ⟨hi, hx⟩ | ⟨rfl, rfl⟩
    · obtain ⟨parent, hrow, hroot, hparent⟩ := h.row i x hx
      refine ⟨parent, ?_, hroot, fun p hp => (hparent p hp).append [e]⟩
      rw [List.getElem?_append_left (by rw [r.arena.length_rows, h.size]; exact hi), hrow]
    · refine ⟨left.head?, ?_, hnone, howns⟩
      have hlast : r.arena.rows.length = es.length := by rw [r.arena.length_rows, h.size]
      rw [List.getElem?_append_right (Nat.le_of_eq hlast), hlast, Nat.sub_self]
      rfl
  chain_length := by
    rw [List.getLast?_append, List.length_cons, hlength]
    rfl
  chain j outer hj := by
    rcases List.suffix_cons_iff.1 hj with heq | hj
    · -- the entry itself: no entry stands behind it
      obtain ⟨rfl, rfl⟩ := List.cons.inj heq
      refine ⟨⟨e, by simp [h.size], hlength.symm⟩, fun k x hk hx => ?_⟩
      have hklt := (List.getElem?_eq_some_iff.1 hx).1
      rw [List.length_append, List.length_singleton] at hklt
      rw [h.size] at hk
      omega
    · obtain ⟨⟨x, hx, hdepth⟩, hlater⟩ := h.chain j outer (hj.trans hsuffix)
      have hjlt := (List.getElem?_eq_some_iff.1 hx).1
      refine ⟨⟨x, by rw [List.getElem?_append_left hjlt, hx], hdepth⟩, fun k y hjk hy => ?_⟩
      rcases getElem?_snoc hy with ⟨-, hy⟩ | ⟨-, rfl⟩
      · exact hlater k y hjk hy
      · have := hj.length_le
        rw [List.length_cons, hlength] at this
        omega

/-- One step of the reading: it fails with the fault of the entry, or goes on with the entry
read. -/
theorem ReadSoFar.add {es : List Entry} {r : Reading} (h : ReadSoFar es r) (e : Entry) :
    match Entry.faultBehind es e with
    | some fault => r.add e = .error fault
    | none => ∃ r', r.add e = .ok r' ∧ ReadSoFar (es ++ [e]) r' := by
  unfold Reading.add Entry.faultBehind
  rw [h.nestingFault?_eq]
  cases hn : Entry.nestingFault? es e.depth with
  | some fault => rfl
  | none =>
      rw [Option.none_or]
      cases hf : e.payload.fault? with
      | some fault => simp only [Arena.attach_of_fault hf, Option.map_some]
      | none =>
          obtain ⟨hlength, hroot⟩ := length_drop_chain h hn
          have hsuffix := List.drop_suffix (r.chain.length - e.depth) r.chain
          -- Of what stays open only its length matters, and that it is an end of the chain.
          generalize r.chain.drop (r.chain.length - e.depth) = left at hlength hsuffix ⊢
          have howns : ∀ p : Nat, left.head? = some p → Owns (es ++ [e]) p es.length := by
            intro p hp
            obtain ⟨outer, rfl⟩ := List.head?_eq_some_iff.1 hp
            exact h.owns_head hsuffix (by rw [← hlength, List.length_cons])
          have hnone : left.head? = none → es.length = 0 ∧ e.depth = 0 := by
            intro hp
            rw [List.head?_eq_none_iff.1 hp, List.length_nil] at hlength
            exact ⟨by rw [hroot.1 hlength.symm, List.length_nil], hlength.symm⟩
          have hfits : (⟨e.kind, left.head?, e.payload⟩ : DocumentNode).Fits r.arena.size :=
            ⟨hf, fun hp => h.size ▸ (hnone hp).1, fun p hp => h.size ▸ (howns p hp).before⟩
          obtain ⟨arena, harena, hrows⟩ := Arena.attach_of_fits hfits
          exact ⟨_, by simp only [harena], h.push hsuffix hlength hnone howns hrows⟩

/-! ### Whole listings

### Whole listings

A fault of an entry depends on what stands before it only, so the first fault of a listing is the
fault at which reading stops. -/

/-- The fault at a position does not depend on what follows. -/
theorem Entry.faultAt?_append {es : List Entry} {i : Nat} (h : i < es.length) (more : List Entry) :
    Entry.faultAt? (es ++ more) i = Entry.faultAt? es i := by
  rw [Entry.faultAt?, Entry.faultAt?, List.getElem?_append_left h,
    List.take_append_of_le_length (Nat.le_of_lt h)]

theorem Entry.faultAt?_last (es : List Entry) (e : Entry) :
    Entry.faultAt? (es ++ [e]) es.length = Entry.faultBehind es e := by
  simp [Entry.faultAt?]

/-- No entry of a listing has a fault. -/
def Faultless (es : List Entry) : Prop := ∀ i < es.length, Entry.faultAt? es i = none

theorem foldlM_snoc {α β ε : Type} (f : β → α → Except ε β) (as : List α) (a : α) (b : β) :
    (as ++ [a]).foldlM f b = (as.foldlM f b).bind (f · a) := by
  rw [List.foldlM_append]
  cases as.foldlM f b with
  | error x => rfl
  | ok c => exact bind_pure (f c a)

/-- Reading a listing keeps the invariant up to the first fault, which is the answer. -/
theorem readSoFar_foldlM (es : List Entry) :
    (Faultless es ∧ ∃ r, es.foldlM Reading.add {} = .ok r ∧ ReadSoFar es r) ∨
      ∃ i fault, es.foldlM Reading.add {} = .error fault ∧
        Entry.faultAt? es i = some fault ∧ ∀ j < i, Entry.faultAt? es j = none := by
  -- The invariant speaks of all entries so far, so the induction takes entries off the end.
  induction es using List.reverseRecOn with
  | nil => exact .inl ⟨fun i h => absurd h (Nat.not_lt_zero i), {}, rfl, .nil⟩
  | append_singleton es e ih =>
      rw [foldlM_snoc]
      rcases ih with ⟨hall, r, hr, h⟩ | ⟨i, fault, hr, hi, hbefore⟩
      · have hadd := h.add e
        have hlast := Entry.faultAt?_last es e
        have hbefore : ∀ i < es.length, Entry.faultAt? (es ++ [e]) i = none := fun i hi => by
          rw [Entry.faultAt?_append hi, hall i hi]
        rw [hr]
        cases hf : Entry.faultBehind es e with
        | some fault =>
            rw [hf] at hadd hlast
            exact .inr ⟨es.length, fault, hadd, hlast, hbefore⟩
        | none =>
            rw [hf] at hadd hlast
            obtain ⟨r', hr', h'⟩ := hadd
            refine .inl ⟨fun i hi => ?_, r', hr', h'⟩
            rw [List.length_append, List.length_singleton] at hi
            rcases Nat.lt_or_ge i es.length with hlt | hge
            · exact hbefore i hlt
            · rw [show i = es.length by omega, hlast]
      · have hlt : ∀ j ≤ i, j < es.length := by
          intro j hj
          obtain ⟨x, hx, -⟩ := Option.bind_eq_some_iff.1 hi
          exact Nat.lt_of_le_of_lt hj (List.getElem?_eq_some_iff.1 hx).1
        refine .inr ⟨i, fault, ?_, ?_, fun j hj => ?_⟩
        · rw [hr]
          rfl
        · rw [Entry.faultAt?_append (hlt i (Nat.le_refl i)), hi]
        · rw [Entry.faultAt?_append (hlt j (Nat.le_of_lt hj)), hbefore j hj]

theorem Entry.faultBehind_eq_none_iff {before : List Entry} {e : Entry} :
    Entry.faultBehind before e = none ↔
      Entry.nestingFault? before e.depth = none ∧ e.payload.fault? = none := by
  rw [Entry.faultBehind, Option.or_eq_none_iff, Option.map_eq_none_iff]

theorem Entry.nestingFault?_nil {depth : Nat} :
    Entry.nestingFault? [] depth = none ↔ depth = 0 := by
  simp [Entry.nestingFault?]

theorem Entry.nestingFault?_take {es : List Entry} {i depth : Nat} {last : Entry}
    (h : es[i]? = some last) : Entry.nestingFault? (es.take (i + 1)) depth = none ↔
      1 ≤ depth ∧ depth ≤ last.depth + 1 := by
  have hlast : (es.take (i + 1)).getLast? = some last := by
    rw [List.getLast?_take, if_neg (Nat.succ_ne_zero i), Nat.add_sub_cancel, h]
    rfl
  rw [Entry.nestingFault?, hlast]
  by_cases hd : depth = 0
  · simp [hd]
  · simp only [hd, if_false, ite_eq_right_iff, reduceCtorEq, imp_false, Nat.not_lt]
    omega

/-- The listings that nest are those with an entry and without a fault. -/
theorem nested_iff {es : List Entry} : Nested es ↔ es ≠ [] ∧ Faultless es := by
  constructor
  · intro h
    refine ⟨h.nonempty, fun i hi => ?_⟩
    have he : es[i]? = some es[i] := List.getElem?_eq_getElem hi
    rw [Entry.faultAt?, he, Option.bind_some, Entry.faultBehind_eq_none_iff]
    refine ⟨?_, h.payload _ (List.getElem_mem hi)⟩
    cases i with
    | zero => exact Entry.nestingFault?_nil.2 (h.first _ he)
    | succ i =>
        have hd : es[i]? = some es[i] := List.getElem?_eq_getElem (Nat.lt_of_succ_lt hi)
        exact (Entry.nestingFault?_take hd).2 (h.later i _ _ hd he)
  · rintro ⟨hne, hall⟩
    have hat : ∀ i e, es[i]? = some e →
        Entry.nestingFault? (es.take i) e.depth = none ∧ e.payload.fault? = none := by
      intro i e he
      have hi := hall i (List.getElem?_eq_some_iff.1 he).1
      rw [Entry.faultAt?, he, Option.bind_some] at hi
      exact Entry.faultBehind_eq_none_iff.1 hi
    refine ⟨hne, fun e he => ?_, fun i d e hd he => ?_, fun e he => ?_⟩
    · exact Entry.nestingFault?_nil.1 (hat 0 e he).1
    · exact (Entry.nestingFault?_take hd).1 (hat (i + 1) e he).1
    · obtain ⟨i, hi⟩ := List.mem_iff_getElem?.1 he
      exact (hat i e hi).2

/-! ### The tree that was read

### The tree that was read

Rows keep kinds, payloads and parents, and everything else about a tree follows from these: levels
by climbing from parent to parent, and the pre-order from what lies between a parent and its
child. -/

/-- Among entries that nest, what is owned belongs to its owner. -/
theorem Owns.belongs {es : List Entry} {p i : Nat} (h : Owns es p i) : Belongs es i p where
  before := h.before
  above := h.above
  last j x e hpj hji hx he := by
    have := h.between j x e hpj hji hx he
    omega

/-- At most one entry is the one that an entry belongs to. -/
theorem Belongs.unique {es : List Entry} {i p q : Nat} (hp : Belongs es i p)
    (hq : Belongs es i q) : p = q := by
  have hle : ∀ {p q : Nat}, Belongs es i p → Belongs es i q → q ≤ p := by
    intro p q hp hq
    obtain ⟨d, e, hd, he, hde⟩ := hq.above
    by_contra hlt
    exact hp.last q d e (Nat.lt_of_not_le hlt) hq.before hd he hde
  exact Nat.le_antisymm (hle hq hp) (hle hp hq)

/-- A list is what its positions hold. -/
theorem filterMap_range_getElem? {α : Type} (as : List α) :
    (List.range as.length).filterMap (as[·]?) = as := by
  induction as using List.reverseRecOn with
  | nil => rfl
  | append_singleton as a ih =>
      have hinit : (List.range as.length).filterMap ((as ++ [a])[·]?) =
          (List.range as.length).filterMap (as[·]?) :=
        List.filterMap_congr fun i hi => List.getElem?_append_left (List.mem_range.1 hi)
      rw [List.length_append, List.length_singleton, List.range_succ, List.filterMap_append, hinit,
        ih]
      simp

section

variable {es : List Entry} {r : Reading} {t : Tree}

theorem ReadSoFar.node (h : ReadSoFar es r) (ht : r.arena.toTree = .ok t) {i : Nat} {e : Entry}
    (he : es[i]? = some e) :
    ∃ n, t.node? i = some n ∧ n.kind = e.kind ∧ n.payload = e.payload := by
  obtain ⟨parent, hrow, -⟩ := h.row i e he
  rw [← Arena.rows_of_toTree ht, t.getElem?_rows] at hrow
  obtain ⟨n, hn, hnr⟩ := Option.map_eq_some_iff.1 hrow
  simp only [Node.row, DocumentNode.mk.injEq] at hnr
  exact ⟨n, hn, hnr.1, hnr.2.2⟩

theorem ReadSoFar.size_tree (h : ReadSoFar es r) (ht : r.arena.toTree = .ok t) :
    t.size = es.length := by
  rw [← t.length_rows, Arena.rows_of_toTree ht, r.arena.length_rows, h.size]

/-- A parent in the tree that was read owns its child in the listing. -/
theorem ReadSoFar.owns (h : ReadSoFar es r) (ht : r.arena.toTree = .ok t) {i p : Nat}
    (hp : t.parent? i = some p) : Owns es p i := by
  have hi : i < es.length := h.size_tree ht ▸ Tree.lt_size_of_parent? hp
  obtain ⟨parent, hrow, -, howns⟩ := h.row i _ (List.getElem?_eq_getElem hi)
  rw [t.parent?_eq_rows, Arena.rows_of_toTree ht, hrow, Option.bind_some] at hp
  exact howns p hp

/-- A node without a parent is the root entry. -/
theorem ReadSoFar.root (h : ReadSoFar es r) (ht : r.arena.toTree = .ok t) {i : Nat} {e : Entry}
    (he : es[i]? = some e) (hp : t.parent? i = none) : i = 0 ∧ e.depth = 0 := by
  obtain ⟨parent, hrow, hroot, -⟩ := h.row i e he
  rw [t.parent?_eq_rows, Arena.rows_of_toTree ht, hrow, Option.bind_some] at hp
  exact hroot hp

/-- Nodes have as many owners as their entries are deep. -/
theorem ReadSoFar.depth (h : ReadSoFar es r) (ht : r.arena.toTree = .ok t) {i : Nat} {e : Entry}
    (he : es[i]? = some e) : t.depth i = e.depth := by
  -- The induction climbs to the root.
  induction i using Nat.strongRecOn generalizing e with
  | ind i ih =>
      cases hp : t.parent? i with
      | none => rw [Tree.depth_of_none hp, (h.root ht he hp).2]
      | some p =>
          obtain ⟨d, e', hd, he', hde⟩ := (h.owns ht hp).above
          obtain rfl : e = e' := Option.some.inj (he.symm.trans he')
          rw [Tree.depth_of_parent? hp, ih p (Tree.parent?_lt hp) hd, hde]

/-- What stands between a node and its parent lies below the parent. -/
theorem ReadSoFar.compact (h : ReadSoFar es r) (ht : r.arena.toTree = .ok t) : t.Compact := by
  intro i p j hp hpj hji
  have howns := h.owns ht hp
  obtain ⟨d, e, hd, he, hde⟩ := howns.above
  have hi := (List.getElem?_eq_some_iff.1 he).1
  have hj : es[j]? = some es[j] := List.getElem?_eq_getElem (Nat.lt_trans hji hi)
  rw [h.depth ht hd, h.depth ht hj]
  have := howns.between j _ e hpj hji hj he
  omega

theorem ReadSoFar.parent?_iff (h : ReadSoFar es r) (ht : r.arena.toTree = .ok t) (i p : Nat) :
    t.parent? i = some p ↔ Belongs es i p := by
  refine ⟨fun hp => (h.owns ht hp).belongs, fun hb => ?_⟩
  cases hp : t.parent? i with
  | some q => rw [hb.unique (h.owns ht hp).belongs]
  | none =>
      obtain ⟨d, e, hd, he, hde⟩ := hb.above
      have := (h.root ht he hp).2
      omega

theorem ReadSoFar.describes (h : ReadSoFar es r) (ht : r.arena.toTree = .ok t) :
    Describes es t := by
  have hpre : t.preorder = List.range es.length := by
    rw [Tree.preorder_eq_range (h.compact ht), h.size_tree ht]
  refine ⟨h.size_tree ht, fun i e => h.node ht, fun i e => h.depth ht, h.parent?_iff ht, hpre, ?_⟩
  have hentry : ∀ i ∈ List.range es.length,
      ((t.node? i).map fun n => (⟨n.kind, n.payload, t.depth i⟩ : Entry)) = es[i]? := by
    intro i hi
    have hlt := List.mem_range.1 hi
    have he : es[i]? = some es[i] := List.getElem?_eq_getElem hlt
    obtain ⟨n, hn, hkind, hpayload⟩ := h.node ht he
    rw [hn, he, Option.map_some, hkind, hpayload, h.depth ht he]
  rw [Tree.entries, hpre, List.filterMap_congr hentry, filterMap_range_getElem?]

end

/-! ### The main statement -/

/-- A listing with a first fault does not nest. -/
theorem FirstFault.not_nested {es : List Entry} {fault : BuildError} (h : FirstFault es fault) :
    ¬ Nested es := by
  rw [nested_iff]
  rintro ⟨hne, hall⟩
  rcases h with ⟨rfl, -⟩ | ⟨i, hi, -⟩
  · exact hne rfl
  · obtain ⟨e, he, -⟩ := Option.bind_eq_some_iff.1 hi
    rw [hall i (List.getElem?_eq_some_iff.1 he).1] at hi
    cases hi

theorem FirstFault.unique {es : List Entry} {a b : BuildError} (ha : FirstFault es a)
    (hb : FirstFault es b) : a = b := by
  have hnil : ∀ i fault, Entry.faultAt? [] i = some fault → False := by
    intro i fault h
    rw [Entry.faultAt?, List.getElem?_nil] at h
    cases h
  rcases ha with ⟨rfl, rfl⟩ | ⟨i, hi, hibefore⟩
  · rcases hb with ⟨-, rfl⟩ | ⟨j, hj, -⟩
    · rfl
    · exact (hnil j b hj).elim
  · rcases hb with ⟨rfl, -⟩ | ⟨j, hj, hjbefore⟩
    · exact (hnil i a hi).elim
    · rcases Nat.lt_trichotomy i j with hij | rfl | hji
      · rw [hjbefore i hij] at hi
        cases hi
      · exact Option.some.inj (hi.symm.trans hj)
      · rw [hibefore j hji] at hj
        cases hj

/-- What reading a listing comes to. -/
theorem ofEntries_cases (es : List Entry) :
    (Nested es ∧ ∃ t, Tree.ofEntries es = .ok t ∧ Describes es t) ∨
      ∃ fault, Tree.ofEntries es = .error fault ∧ FirstFault es fault := by
  rw [nested_iff, Tree.ofEntries]
  rcases readSoFar_foldlM es with ⟨hall, r, hr, h⟩ | ⟨i, fault, hr, hfirst⟩
  · rw [hr]
    by_cases hne : es = []
    · have hsize : r.arena.size = 0 := by rw [h.size, hne, List.length_nil]
      exact .inr ⟨.empty, Arena.toTree_of_zero hsize, .inl ⟨hne, rfl⟩⟩
    · have hsize : 0 < r.arena.size := h.size ▸ List.length_pos_iff.2 hne
      obtain ⟨t, ht, -⟩ := Arena.toTree_of_pos hsize
      exact .inl ⟨⟨hne, hall⟩, t, ht, h.describes ht⟩
  · rw [hr]
    exact .inr ⟨fault, rfl, .inr ⟨i, hfirst⟩⟩

/-- The tree of a listing is what the listing says. -/
theorem describes_of_ofEntries {es : List Entry} {t : Tree} (h : Tree.ofEntries es = .ok t) :
    Describes es t := by
  rcases ofEntries_cases es with ⟨-, s, hs, hdescribes⟩ | ⟨fault, hfault, -⟩
  · rw [h] at hs
    cases hs
    exact hdescribes
  · rw [h] at hfault
    cases hfault

/-- A node of a tree is one of the entries that the tree was made of. -/
theorem Describes.exists_entry {es : List Entry} {t : Tree} (h : Describes es t) {i : NodeId}
    {n : Node} (hn : t.node? i = some n) :
    ∃ e, es[i]? = some e ∧ n.kind = e.kind ∧ n.payload = e.payload := by
  have hi : i < es.length := h.size ▸ Tree.lt_size_of_node? hn
  have he : es[i]? = some es[i] := List.getElem?_eq_getElem hi
  obtain ⟨m, hm, hkind, hpayload⟩ := h.node i _ he
  obtain rfl := Option.some.inj (hn.symm.trans hm)
  exact ⟨es[i], he, hkind, hpayload⟩

theorem exists_tree_of_nested {es : List Entry} (h : Nested es) :
    ∃ t, Tree.ofEntries es = .ok t := by
  rcases ofEntries_cases es with ⟨-, t, ht, -⟩ | ⟨fault, -, hfault⟩
  · exact ⟨t, ht⟩
  · exact absurd h hfault.not_nested

/-- One entry is a listing. -/
theorem exists_tree_of_single {e : Entry} (hdepth : e.depth = 0)
    (hfault : e.payload.fault? = none) : ∃ t, Tree.ofEntries [e] = .ok t :=
  exists_tree_of_nested {
    nonempty := List.cons_ne_nil e []
    first := fun _ hd => Option.some.inj hd ▸ hdepth
    later := fun _ _ _ _ he => nomatch he
    payload := fun _ hd => List.mem_singleton.1 hd ▸ hfault }

/-- **Trees from flat listings.** A listing makes a tree exactly if it nests and its payloads are
without fault. Otherwise the error is that of the first entry with a fault, or `empty`. A tree
that is made is what the listing says, with the order of the ids as its pre-order, and the listing
can be read off it. -/
theorem ofEntries_exact (es : List Entry) :
    ((∃ t, Tree.ofEntries es = .ok t) ↔ Nested es) ∧
      (∀ fault, Tree.ofEntries es = .error fault ↔ FirstFault es fault) ∧
      ∀ t, Tree.ofEntries es = .ok t → Describes es t := by
  refine ⟨?_, fun fault => ?_, fun t => describes_of_ofEntries⟩
  · rcases ofEntries_cases es with ⟨hn, t, ht, -⟩ | ⟨fault, hfault, hfirst⟩
    · exact ⟨fun _ => hn, fun _ => ⟨t, ht⟩⟩
    · refine ⟨fun ⟨t, ht⟩ => ?_, fun hn => absurd hn hfirst.not_nested⟩
      rw [hfault] at ht
      cases ht
  · rcases ofEntries_cases es with ⟨hn, t, ht, -⟩ | ⟨other, hother, hfirst⟩
    · refine ⟨fun h => ?_, fun h => absurd hn h.not_nested⟩
      rw [ht] at h
      cases h
    · refine ⟨fun h => ?_, fun h => by rw [hother, hfirst.unique h]⟩
      rw [hother] at h
      cases h
      exact hfirst

/-- A listing with two declarations after an inner one is closed. -/
theorem ofEntries_exact_nested :
    let es : List Entry := [⟨.file, ⟨"a.py", .empty⟩, 0⟩, ⟨.classType, ⟨"A", .empty⟩, 1⟩,
      ⟨.method, ⟨"m", .empty⟩, 2⟩, ⟨.function, ⟨"f", .empty⟩, 1⟩]
    Nested es ∧ ∃ t, Tree.ofEntries es = .ok t ∧ Describes es t := by
  intro es
  have hn : Nested es := nested_iff.2 ⟨List.cons_ne_nil _ _, by unfold Faultless; decide⟩
  obtain ⟨t, ht⟩ := (ofEntries_exact es).1.2 hn
  exact ⟨hn, t, ht, (ofEntries_exact es).2.2 t ht⟩

end Outline
