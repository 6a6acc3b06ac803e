import Mathlib.Order.Compare
import Outline.Path.Basic

/-!
# Outline.Proofs.Path.Order

**Paths are ordered by their components.** The order of paths is total and transitive, and it puts
two paths at one place exactly if they spell the same path (`Path.compare_eq_iff`).
-/

namespace Outline

/-- What is compared by a part is ordered as the parts are. -/
theorem transCmp_on {α β : Type} {cmp : β → β → Ordering} [Std.TransCmp cmp] (f : α → β) :
    Std.TransCmp fun a b => cmp (f a) (f b) where
  eq_swap := Std.OrientedCmp.eq_swap
  isLE_trans := Std.TransCmp.isLE_trans

/-- Of two things one comes first, or they come together. -/
theorem isLE_total {α : Type} {cmp : α → α → Ordering} [Std.OrientedCmp cmp] (a b : α) :
    ((cmp a b).isLE || (cmp b a).isLE) = true := by
  have hswap : cmp b a = (cmp a b).swap := Std.OrientedCmp.eq_swap
  rw [hswap]
  cases cmp a b <;> rfl

namespace Component

/-- The text of a name; the other components have none. -/
def nameText : Component → String
  | name s => s
  | _ => ""

/-- Components are ordered by rank, and those of one rank by their names. -/
theorem compare_eq_compareLex :
    compare = compareLex (compareOn rank) (compareOn nameText) := by
  funext a b
  cases a <;> cases b <;> rfl

instance : Std.TransCmp compare := compare_eq_compareLex ▸ inferInstance

theorem eq_of_compare {a b : Component} (h : a.compare b = .eq) : a = b := by
  cases a with
  | name s =>
      cases b with
      | name t => exact congrArg name (Std.LawfulEqOrd.eq_of_compare h)
      | _ => cases h
  | _ =>
      cases b <;> first | rfl | cases h

instance : Std.LawfulEqCmp compare := ⟨eq_of_compare⟩

end Component

namespace Path

theorem compareComponents_eq_compareLex :
    compareComponents = List.compareLex Component.compare := by
  funext as bs
  induction as generalizing bs with
  | nil => cases bs <;> rfl
  | cons a as ih =>
      cases bs with
      | nil => rfl
      | cons b bs => rw [compareComponents, ih, List.compareLex_cons_cons]

instance : Std.TransCmp compareComponents := compareComponents_eq_compareLex ▸ inferInstance

instance : Std.LawfulEqCmp compareComponents := compareComponents_eq_compareLex ▸ inferInstance

instance : Std.TransCmp compare := transCmp_on components

theorem compare_eq_iff {p q : Path} : p.compare q = .eq ↔ p.same q = true := by
  rw [same, beq_iff_eq]
  show compareComponents p.components q.components = .eq ↔ _
  exact Std.LawfulEqCmp.compare_eq_iff_eq

theorem same_comm (p q : Path) : p.same q = q.same p := Bool.beq_comm

end Path

end Outline
