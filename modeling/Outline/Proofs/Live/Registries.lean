import Outline.Proofs.Live.Calls
import Outline.Proofs.Tree.Index

/-!
# Outline.Proofs.Live.Registries

**The last registration for a kind decides, and the standard factories only fill gaps.** A registry
is made in steps (`Registration`). What the steps come to for a kind is told by `Settled`, and every
step keeps it true (`Registry.settled_ofSteps`). The index of a tree misses no node
(`Tree.contains_kindSet`), so a registry that has a factory for all kinds that it counts fails for
no node for want of one (`Registry.materialize_ne_unknownKind`), and no call with it does.
-/

namespace Outline

namespace KindSet

/-- Inserting kinds one after another adds them to those that are there. -/
theorem contains_foldl_insert (ks : List Kind) (s : KindSet) (k : Kind) :
    (ks.foldl insert s).contains k = true ↔ s.contains k = true ∨ k ∈ ks := by
  induction ks generalizing s with
  | nil => simp
  | cons l ks ih =>
      rw [List.foldl_cons, ih, contains_insert, Bool.or_eq_true, decide_eq_true_iff,
        List.mem_cons, or_assoc, eq_comm (a := l)]

/-- The set of some kinds has these as its members. -/
theorem contains_ofList {ks : List Kind} {k : Kind} : (ofList ks).contains k = true ↔ k ∈ ks := by
  rw [ofList, contains_foldl_insert, contains_empty]
  simp

/-- The members are listed in the order of all kinds. -/
theorem pairwise_toList (s : KindSet) : s.toList.Pairwise fun j k => j.index < k.index := by
  have hall : Kind.all.Pairwise fun j k => j.index < k.index := by decide
  exact hall.filter _

end KindSet

/-! ### Making a registry

### Making a registry

A factory that is registered takes the place of another, while the standard factory never does. So
the last registration for a kind decides however often the standard factory comes in, and it is
enough to know whether it comes in at all. -/

/-- A step in the making of a registry. -/
inductive Registration where
  /-- A factory for a kind, in place of any other. -/
  | register (k : Kind) (f : Factory)
  /-- The standard factory for the kinds that have none. -/
  | standard

/-- What some steps come to for a kind: the factory of the last registration for it; without one,
the standard factory if that comes in anywhere; and else none. -/
inductive Settled (steps : List Registration) (k : Kind) : Option Factory → Prop
  | registered {before after : List Registration} {f : Factory}
    (h : steps = before ++ .register k f :: after) (hlast : ∀ g, .register k g ∉ after) :
    Settled steps k (some f)
  | standard (hnever : ∀ g, .register k g ∉ steps) (h : .standard ∈ steps) :
    Settled steps k (some standardFactory)
  | none (hnever : ∀ g, .register k g ∉ steps) (h : .standard ∉ steps) : Settled steps k none

/-- A step that is no registration for a kind, and does not bring in the standard factory either or
comes too late for that, changes nothing about it. -/
theorem Settled.concat {steps : List Registration} {k : Kind} {f? : Option Factory}
    (h : Settled steps k f?) {step : Registration} (hother : ∀ g, step ≠ .register k g)
    (hlate : step = .standard → f?.isSome) : Settled (steps ++ [step]) k f? := by
  have hnever : ∀ {ss : List Registration}, (∀ g, .register k g ∉ ss) →
      ∀ g, .register k g ∉ ss ++ [step] := by
    intro ss hss g hg
    rcases List.mem_append.1 hg with hg | hg
    · exact hss g hg
    · exact hother g (List.mem_singleton.1 hg).symm
  cases h with
  | registered h hlast =>
      subst h
      exact .registered (by rw [List.append_assoc, List.cons_append]) (hnever hlast)
  | standard hnone h => exact .standard (hnever hnone) (List.mem_append_left _ h)
  | none hnone h =>
      refine .none (hnever hnone) fun hmem => ?_
      rcases List.mem_append.1 hmem with hmem | hmem
      · exact h hmem
      · exact Bool.false_ne_true (hlate (List.mem_singleton.1 hmem).symm)

/-- Of two members at places of a list, one comes after the other unless they are at one place. -/
theorem eq_or_mem_of_append_cons_eq {α : Type} {before after before' after' : List α} {a b : α}
    (h : before ++ a :: after = before' ++ b :: after') : a = b ∨ b ∈ after ∨ a ∈ after' := by
  rcases List.append_eq_append_iff.1 h with ⟨between, -, h⟩ | ⟨between, -, h⟩
  · rcases List.cons_eq_append_iff.1 h with ⟨-, h⟩ | ⟨rest, -, rfl⟩
    · exact .inl (List.cons.inj h).1.symm
    · exact .inr (.inl (List.mem_append_right _ List.mem_cons_self))
  · rcases List.cons_eq_append_iff.1 h with ⟨-, h⟩ | ⟨rest, -, rfl⟩
    · exact .inl (List.cons.inj h).1
    · exact .inr (.inr (List.mem_append_right _ List.mem_cons_self))

/-- What the steps come to for a kind is settled: there is one last registration at most. -/
theorem Settled.unique {steps : List Registration} {k : Kind} {f? g? : Option Factory}
    (hf : Settled steps k f?) (hg : Settled steps k g?) : f? = g? := by
  cases hf with
  | @registered before after f hf hflast =>
      cases hg with
      | @registered before' after' g hg hglast =>
          rcases eq_or_mem_of_append_cons_eq (hf.symm.trans hg) with h | h | h
          · cases h
            rfl
          · exact absurd h (hflast g)
          · exact absurd h (hglast f)
      | standard hnever _ | none hnever _ =>
          exact absurd (hf ▸ List.mem_append_right _ List.mem_cons_self) (hnever f)
  | standard hnever hin =>
      cases hg with
      | @registered before after g hg _ =>
          exact absurd (hg ▸ List.mem_append_right _ List.mem_cons_self) (hnever g)
      | standard _ _ => rfl
      | none _ hout => exact absurd hin hout
  | none hnever hout =>
      cases hg with
      | @registered before after g hg _ =>
          exact absurd (hg ▸ List.mem_append_right _ List.mem_cons_self) (hnever g)
      | standard _ hin => exact absurd hin hout
      | none _ _ => rfl

namespace Registry

/-- The registry after one more step. -/
def add (r : Registry) : Registration → Registry
  | .register k f => r.register k f
  | .standard => r.withStandard

/-- The registry that some steps make. -/
def ofSteps (steps : List Registration) : Registry := steps.foldl add empty

theorem ofSteps_concat (steps : List Registration) (step : Registration) :
    ofSteps (steps ++ [step]) = (ofSteps steps).add step := by
  rw [ofSteps, List.foldl_append]
  rfl

theorem factory?_register (r : Registry) (k : Kind) (f : Factory) (l : Kind) :
    (r.register k f).factory? l = if l = k then some f else r.factory? l := rfl

theorem factory?_withStandard (r : Registry) (k : Kind) :
    r.withStandard.factory? k = (r.factory? k).or (some standardFactory) := rfl

/-- The factory of a kind is what the steps come to for it. -/
theorem settled_ofSteps (steps : List Registration) (k : Kind) :
    Settled steps k ((ofSteps steps).factory? k) := by
  induction steps using List.reverseRecOn with
  | nil => exact .none (fun g => List.not_mem_nil) List.not_mem_nil
  | append_singleton steps step ih =>
      rw [ofSteps_concat]
      cases step with
      | register l f =>
          rw [add, factory?_register]
          by_cases hkl : k = l
          · rw [if_pos hkl, hkl]
            exact .registered rfl fun g => List.not_mem_nil
          · rw [if_neg hkl]
            exact ih.concat (fun g hg => hkl (Registration.register.inj hg).1.symm) nofun
      | standard =>
          rw [add, factory?_withStandard]
          cases hf : (ofSteps steps).factory? k with
          | some f =>
              rw [hf] at ih
              exact ih.concat (fun g => Registration.noConfusion) fun _ => rfl
          | none =>
              -- the gap is filled: no registration for the kind has come before, nor is this one
              rw [hf] at ih
              cases ih with
              | none hnever h =>
                  refine .standard (fun g hg => ?_) (List.mem_append_right _ List.mem_cons_self)
                  rcases List.mem_append.1 hg with hg | hg
                  · exact hnever g hg
                  · cases List.mem_singleton.1 hg

/-! ### Covering kinds

### Covering kinds

The required kinds are gone through in the order of all kinds, and the first without a factory is
reported. -/

variable {r r' : Registry} {required : KindSet} {k : Kind}

theorem contains_eq_false : (!r.contains k) = true ↔ r.factory? k = none := by
  rw [contains, Bool.not_eq_true', ← Bool.not_eq_true, Option.not_isSome_iff_eq_none]

theorem covering_eq_ok_iff : r.covering required = .ok r' ↔
    r' = r ∧ ∀ k, required.contains k = true → (r.factory? k).isSome := by
  have hnone : required.toList.find? (!r.contains ·) = none ↔
      ∀ k, required.contains k = true → (r.factory? k).isSome := by
    simp only [List.find?_eq_none, KindSet.mem_toList, contains_eq_false, Option.isSome_iff_ne_none,
      ne_eq]
  rw [← hnone, covering]
  cases required.toList.find? (!r.contains ·) with
  | none => exact ⟨fun h => ⟨(Except.ok.inj h).symm, rfl⟩, fun h => congrArg Except.ok h.1.symm⟩
  | some k => exact ⟨(nomatch ·), (nomatch ·.2)⟩

/-- What is reported missing is the first required kind without a factory. -/
theorem covering_eq_error_iff {e : LiveError} : r.covering required = .error e ↔
    ∃ k, e = .unknownKind k ∧ required.contains k = true ∧ r.factory? k = none ∧
      ∀ j, j.index < k.index → required.contains j = true → (r.factory? j).isSome := by
  have hfirst : ∀ k, required.toList.find? (!r.contains ·) = some k ↔
      required.contains k = true ∧ r.factory? k = none ∧
        ∀ j, j.index < k.index → required.contains j = true → (r.factory? j).isSome := by
    intro k
    rw [List.find?_eq_some_iff_append, contains_eq_false]
    constructor
    · rintro ⟨hk, before, after, hsplit, hbefore⟩
      have hmem : k ∈ required.toList := by
        rw [hsplit]
        exact List.mem_append_right _ List.mem_cons_self
      refine ⟨(required.mem_toList k).1 hmem, hk, fun j hjk hj => ?_⟩
      have hsorted := required.pairwise_toList
      rw [hsplit, List.pairwise_append, List.pairwise_cons] at hsorted
      have hj := (required.mem_toList j).2 hj
      rw [hsplit] at hj
      rcases List.mem_append.1 hj with hj | hj
      · simpa [contains] using hbefore j hj
      · rcases List.mem_cons.1 hj with rfl | hj
        · exact absurd hjk (Nat.lt_irrefl _)
        · exact absurd hjk (Nat.lt_asymm (hsorted.2.1.1 j hj))
    · rintro ⟨hmem, hk, hearlier⟩
      obtain ⟨before, after, hsplit⟩ := List.append_of_mem ((required.mem_toList k).2 hmem)
      refine ⟨hk, before, after, hsplit, fun j hj => ?_⟩
      have hsorted := required.pairwise_toList
      rw [hsplit, List.pairwise_append] at hsorted
      have hrequired : required.contains j = true := by
        rw [← required.mem_toList, hsplit]
        exact List.mem_append_left _ hj
      simpa [contains] using hearlier j (hsorted.2.2 j hj k List.mem_cons_self) hrequired
  rw [covering]
  cases hfind : required.toList.find? (!r.contains ·) with
  | none =>
      refine ⟨(nomatch ·), ?_⟩
      rintro ⟨k, -, hk⟩
      rw [(hfirst k).2 hk] at hfind
      cases hfind
  | some k =>
      refine ⟨fun h => ⟨k, (Except.error.inj h).symm, (hfirst k).1 hfind⟩, ?_⟩
      rintro ⟨j, rfl, hj⟩
      rw [(hfirst j).2 hj] at hfind
      cases hfind
      rfl

end Registry

/-! ### Trees whose kinds are covered

### Trees whose kinds are covered

What kinds a tree has is read off the counts of its index. Live nodes that other calls have left
behind need no factory, so only the registry of the call itself matters. -/

/-- The kinds that occur in a tree. -/
def Tree.kindSet (t : Tree) : KindSet := .ofList (t.kindCounts.map (·.1))

/-- The index misses no node, so the kind of every node is among those that occur. -/
theorem Tree.contains_kindSet {t : Tree} {i : NodeId} {n : Node} (h : t.node? i = some n) :
    t.kindSet.contains n.kind = true := by
  have hlisted : i ∈ t.nodesOfKind n.kind := mem_nodesOfKind.2 ⟨n, h, rfl⟩
  refine KindSet.contains_ofList.2 (List.mem_map.2 ⟨(n.kind, _), mem_kindCounts.2 ⟨rfl, ?_⟩, rfl⟩)
  exact Nat.ne_of_gt (List.length_pos_of_mem hlisted)

/-- A registry that covers the kinds of a tree has a factory for every node of it. -/
theorem Registry.materialize_ne_unknownKind {t : Tree} {r r' : Registry}
    (h : r.covering t.kindSet = .ok r') (i : NodeId) (k : Kind) :
    r'.materialize t i ≠ .error (.unknownKind k) := by
  obtain ⟨rfl, hall⟩ := covering_eq_ok_iff.1 h
  intro hunknown
  unfold materialize at hunknown
  split at hunknown
  · cases hunknown
  · rename_i n hn
    obtain ⟨f, hf⟩ := Option.isSome_iff_exists.1 (hall n.kind (Tree.contains_kindSet hn))
    rw [hf] at hunknown
    dsimp only at hunknown
    split at hunknown <;> cases hunknown

/-- A call fails for want of a factory only where its own registry has none. -/
theorem LiveCall.run_ne_unknownKind {t : Tree} {s : Slots} (hsize : s.nodes.size = t.size)
    {c : LiveCall} (h : ∀ i k, c.registry.materialize t i ≠ .error (.unknownKind k)) (k : Kind) :
    (c.run t s).1 ≠ .error (.unknownKind k) := by
  intro hunknown
  obtain ⟨i, -, -, hmade, -⟩ := empty_of_run_eq_error hsize hunknown
  exact h i k hmade

/-- **The last registration for a kind decides, and the standard factories only fill gaps.** Some
steps have made a registry. What the steps come to for a kind is its factory there. Kinds are
covered exactly if they all have one; otherwise the first that has none is reported. A registry that
covers the kinds of a tree has a factory for every node, so no call with it fails for want of one,
whatever calls with other registries have come before. -/
theorem registry_law (steps : List Registration) :
    let r := Registry.ofSteps steps
    (∀ k f?, r.factory? k = f? ↔ Settled steps k f?) ∧
      (∀ required r', r.covering required = .ok r' ↔
        r' = r ∧ ∀ k, required.contains k = true → (r.factory? k).isSome) ∧
      (∀ required e, r.covering required = .error e ↔
        ∃ k, e = .unknownKind k ∧ required.contains k = true ∧ r.factory? k = none ∧
          ∀ j, j.index < k.index → required.contains j = true → (r.factory? j).isSome) ∧
      ∀ (t : Tree) r', r.covering t.kindSet = .ok r' →
        (∀ i k, r'.materialize t i ≠ .error (.unknownKind k)) ∧
          ∀ before (c : LiveCall), c.registry = r' ∨ (∃ i, c = .cached i) →
            ∀ k, (c.run t (t.after before)).1 ≠ .error (.unknownKind k) := by
  intro r
  have hsettled : ∀ k, Settled steps k (r.factory? k) := Registry.settled_ofSteps steps
  refine ⟨fun k f? => ⟨fun h => h ▸ hsettled k, (hsettled k).unique⟩,
    fun required r' => Registry.covering_eq_ok_iff,
    fun required e => Registry.covering_eq_error_iff, fun t r' hcovers => ?_⟩
  have hnever := Registry.materialize_ne_unknownKind hcovers
  refine ⟨hnever, fun before c hc => ?_⟩
  rcases hc with rfl | ⟨i, rfl⟩
  · exact LiveCall.run_ne_unknownKind (t.size_after before) hnever
  · intro k h
    rw [LiveCall.run_cached] at h
    cases h

/-- Functions have a factory of their own, though the standard ones come in before and after. A
registry with that one only does not cover files. -/
theorem registry_law_function :
    let es : List Entry := [⟨.file, ⟨"a.py", .empty⟩, 0⟩, ⟨.function, ⟨"f", .empty⟩, 1⟩]
    let own : Factory := fun _ _ => .ok (.moduleScope "f")
    let r := Registry.ofSteps [.standard, .register .function own, .standard]
    r.factory? .function = some own ∧ r.factory? .file = some standardFactory ∧
      (Registry.ofSteps [.register .function own]).covering (.ofList [.function, .method, .file]) =
        .error (.unknownKind .file) ∧
      ∃ t, Tree.ofEntries es = .ok t ∧ r.covering t.kindSet = .ok r ∧
        ∀ i k, ((LiveCall.live r i).run t (t.after [.live .empty 1])).1 ≠
          .error (.unknownKind k) := by
  intro es own r
  obtain ⟨hfactory, hcovers, -, htrees⟩ :=
    registry_law [.standard, .register .function own, .standard]
  obtain ⟨-, -, hmissing, -⟩ := registry_law [.register .function own]
  refine ⟨(hfactory _ _).2 (.registered (show _ = [.standard] ++ _ :: _ from rfl) (by simp)),
    (hfactory _ _).2 (.standard (by simp) (by simp)),
    (hmissing _ _).2 ⟨.file, rfl, by decide, rfl, fun j hj => ?_⟩, ?_⟩
  · exact absurd hj (Nat.not_lt_zero _)
  have hnested : Nested es := nested_iff.2 ⟨List.cons_ne_nil _ _, by unfold Faultless; decide⟩
  rcases ofEntries_cases es with ⟨-, t, ht, -⟩ | ⟨fault, -, hfault⟩
  · have hall : r.covering t.kindSet = .ok r := by
      refine (hcovers _ _).2 ⟨rfl, fun k _ => ?_⟩
      by_cases hk : k = .function
      · rw [hk]
        rfl
      · rw [(hfactory k _).2 (.standard (by simp [hk]) (by simp))]
        rfl
    exact ⟨t, ht, hall, fun i => (htrees t r hall).2 [.live .empty 1] _ (.inl rfl)⟩
  · exact absurd hnested hfault.not_nested

end Outline
