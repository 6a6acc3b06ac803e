import Mathlib.Data.List.Induction
import Outline.Proofs.Tree.Index
import Outline.Proofs.Tree.Preorder
import Outline.Search.Request

/-!
# Outline.Proofs.Search.Requests

**What a plan asks for, and where it looks.** Requests with one identity are the same request
(`Request.identity_injective`), so a plan has each request once, where it was first submitted
(`Plan.requests_ofRequests`). A request for one kind, answered from the index, finds what it would
find in the whole pre-order (`Request.scan_eq`).
-/

namespace Outline

/-! ### Identities

An identity is a list of values: the target, the tag of the strategy and the kind if there is one.
Its length tells whether there is a kind, so nothing of a request is lost. -/

theorem Strategy.tag_injective : Function.Injective Strategy.tag := by
  intro s s' h
  cases s <;> cases s' <;> first | rfl | exact absurd h (by decide)

namespace Request

/-- The identity tells the target, the strategy and the kind. -/
theorem identity_injective : Function.Injective identity := by
  rintro ⟨target, strategy, kind⟩ ⟨target', strategy', kind'⟩ h
  simp only [identity, List.cons_append, List.nil_append, List.cons.injEq,
    IdentityValue.text.injEq] at h
  obtain ⟨rfl, htag, hkind⟩ := h
  obtain rfl := Strategy.tag_injective htag
  cases kind with
  | none =>
      cases kind' with
      | none => rfl
      | some k' => cases hkind
  | some k =>
      cases kind' with
      | none => cases hkind
      | some k' =>
          have hname : k.name = k'.name := by simpa using hkind
          rw [Kind.name_inj hname]

end Request

namespace Plan

/-! ### Plans

Plans are made request by request from the left, so the inductions are from the last one. -/

theorem requests_add (p : Plan) (r : Request) :
    (p.add r).requests = if r ∈ p.requests then p.requests else p.requests ++ [r] := by
  -- to have the identity of some request is to be that request
  have hany : (p.requests.any (·.identity == r.identity)) = decide (r ∈ p.requests) := by
    rw [Bool.eq_iff_iff, decide_eq_true_iff, List.any_eq_true]
    simp only [beq_iff_eq, Request.identity_injective.eq_iff, exists_eq_right]
  rw [add, hany]
  by_cases h : r ∈ p.requests <;> simp [h]

theorem ofRequests_concat (rs : List Request) (r : Request) :
    ofRequests (rs ++ [r]) = (ofRequests rs).add r := by
  rw [ofRequests, List.foldl_append]
  rfl

/-- A plan has each request once, in the order of first submission. -/
theorem requests_ofRequests (rs : List Request) :
    (ofRequests rs).requests = rs.eraseDups := by
  induction rs using List.reverseRecOn with
  | nil => rfl
  | append_singleton rs r ih =>
      rw [ofRequests_concat, requests_add, ih, List.eraseDups_append]
      by_cases h : r ∈ rs <;> simp [List.removeAll, List.eraseDups_cons, List.mem_eraseDups, h]

theorem mem_requests_ofRequests {rs : List Request} {r : Request} :
    r ∈ (ofRequests rs).requests ↔ r ∈ rs := by
  rw [requests_ofRequests, List.mem_eraseDups]

theorem nodup_requests_ofRequests (rs : List Request) : (ofRequests rs).requests.Nodup := by
  induction rs using List.reverseRecOn with
  | nil => exact List.nodup_nil
  | append_singleton rs r ih =>
      rw [ofRequests_concat, requests_add]
      split
      · exact ih
      · rename_i h
        exact List.nodup_append.2 ⟨ih, List.pairwise_singleton _ r,
          fun s hs r' hr' e => h (List.mem_singleton.1 hr' ▸ e ▸ hs)⟩

end Plan

namespace Request

variable {t : Tree} {r : Request}

/-! ### What a request finds

With a kind only the index for that kind is gone through. The index is the pre-order restricted to
the kind, and a request for the kind takes no others. -/

theorem accepts_iff {n : Node} : r.accepts n = true ↔
    (r.kind = none ∨ r.kind = some n.kind) ∧
      r.strategy.matchesName n.payload.name r.target = true := by
  rw [accepts, Bool.and_eq_true]
  cases r.kind <;> simp

/-- A request finds the nodes of the pre-order that answer it. -/
theorem scan_eq (r : Request) (t : Tree) :
    r.scan t = t.preorder.filter fun i => (t.node? i).any r.accepts := by
  rw [scan]
  cases hk : r.kind with
  | none => rfl
  | some k =>
      show (t.nodesOfKind k).filter _ = _
      rw [Tree.nodesOfKind_eq, List.filter_filter]
      refine List.filter_congr fun i _ => ?_
      rw [Tree.hasKind]
      cases t.node? i with
      | none => rfl
      | some n =>
          -- what answers the request has its kind anyway
          rw [Bool.eq_iff_iff, Option.any_some, Option.any_some, Bool.and_eq_true, beq_iff_eq]
          refine and_iff_left_of_imp fun h => ?_
          rcases (accepts_iff.1 h).1 with hnone | hsome
          · exact absurd (hk.symm.trans hnone) (by simp)
          · exact (Option.some.inj (hk.symm.trans hsome)).symm

theorem mem_scan {i : NodeId} :
    i ∈ r.scan t ↔ ∃ n, t.node? i = some n ∧ r.accepts n = true := by
  rw [scan_eq, List.mem_filter, Tree.mem_preorder_iff, Option.any_eq_true]
  exact and_iff_right_of_imp fun ⟨n, hn, _⟩ => Tree.lt_size_of_node? hn

theorem nodup_scan (r : Request) (t : Tree) : (r.scan t).Nodup := by
  rw [scan_eq]
  exact t.nodup_preorder.filter _

end Request

end Outline
