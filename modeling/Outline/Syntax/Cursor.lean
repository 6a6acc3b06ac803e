import Outline.Syntax.Node

/-!
# Cursors in syntax trees

A cursor stands at a node of a syntax tree and keeps the way that led there, so that it can move
without the tree: to the first child, to the next sibling, and back to the parent. It counts the
steps that a walk may still take from where it stands (`Cursor.remaining`).
-/

namespace Outline

/-- A place in a syntax tree. -/
structure Cursor where
  node : SyntaxNode
  /-- The siblings behind the node. -/
  behind : List SyntaxNode := []
  /-- The nodes above, nearest first, each with the siblings behind it. -/
  above : List (SyntaxNode × List SyntaxNode) := []

namespace Cursor

/-- The first child of the node. -/
def firstChild? (c : Cursor) : Option Cursor :=
  match c.node.children with
  | [] => none
  | n :: r => some ⟨n, r, (c.node, c.behind) :: c.above⟩

/-- The sibling directly behind the node. -/
def nextSibling? (c : Cursor) : Option Cursor :=
  match c.behind with
  | [] => none
  | n :: r => some ⟨n, r, c.above⟩

/-- The node that the node is directly below. -/
def parent? (c : Cursor) : Option Cursor :=
  match c.above with
  | [] => none
  | (n, r) :: up => some ⟨n, r, up⟩

/-- The construct that the node is directly below; the root is below none. -/
def parentKind (c : Cursor) : String :=
  match c.above with
  | [] => ""
  | (n, _) :: _ => n.kind

/-! ### Where the moves lead -/

theorem of_firstChild?_eq_some {c d : Cursor} (h : c.firstChild? = some d) :
    c.node.children = d.node :: d.behind ∧ d.above = (c.node, c.behind) :: c.above := by
  unfold firstChild? at h
  split at h
  · cases h
  · rename_i hchildren
    cases h
    exact ⟨hchildren, rfl⟩

theorem of_firstChild?_eq_none {c : Cursor} (h : c.firstChild? = none) : c.node.children = [] := by
  unfold firstChild? at h
  split at h
  · assumption
  · cases h

theorem of_nextSibling?_eq_some {c d : Cursor} (h : c.nextSibling? = some d) :
    c.behind = d.node :: d.behind ∧ d.above = c.above := by
  unfold nextSibling? at h
  split at h
  · cases h
  · rename_i hbehind
    cases h
    exact ⟨hbehind, rfl⟩

theorem of_nextSibling?_eq_none {c : Cursor} (h : c.nextSibling? = none) : c.behind = [] := by
  unfold nextSibling? at h
  split at h
  · assumption
  · cases h

theorem of_parent?_eq_some {c p : Cursor} (h : c.parent? = some p) :
    c.above = (p.node, p.behind) :: p.above := by
  unfold parent? at h
  split at h
  · cases h
  · rename_i habove
    cases h
    exact habove

theorem of_parent?_eq_none {c : Cursor} (h : c.parent? = none) : c.above = [] := by
  unfold parent? at h
  split at h
  · assumption
  · cases h

/-! ### Steps that are left -/

/-- A bound on the steps that a walk takes behind the nodes above. -/
def remainingAbove : List (SyntaxNode × List SyntaxNode) → Nat
  | [] => 0
  | (_, r) :: up => SyntaxNode.weights r + remainingAbove up

/-- A bound on the steps that a walk takes behind the node and all below it. -/
def remainingBehind (c : Cursor) : Nat :=
  SyntaxNode.weights c.behind + remainingAbove c.above

/-- A bound on the steps that a walk takes from the node on. -/
def remaining (c : Cursor) : Nat :=
  c.node.weight + c.remainingBehind

/-- A node is left behind in at least one step. -/
theorem remainingBehind_lt (c : Cursor) : c.remainingBehind < c.remaining := by
  have := c.node.weights_children_lt
  simp only [remaining]
  omega

theorem remaining_firstChild {c d : Cursor} (h : c.firstChild? = some d) :
    d.remaining < c.remaining := by
  obtain ⟨hchildren, habove⟩ := of_firstChild?_eq_some h
  have hweight := c.node.weights_children_lt
  rw [hchildren, SyntaxNode.weights] at hweight
  simp only [remaining, remainingBehind, habove, remainingAbove]
  omega

theorem remaining_nextSibling {c d : Cursor} (h : c.nextSibling? = some d) :
    d.remaining = c.remainingBehind := by
  obtain ⟨hbehind, habove⟩ := of_nextSibling?_eq_some h
  simp only [remaining, remainingBehind, hbehind, habove, SyntaxNode.weights]
  omega

theorem remaining_parent {c p : Cursor} (h : c.parent? = some p) :
    p.remainingBehind ≤ c.remainingBehind := by
  simp only [remainingBehind, of_parent?_eq_some h, remainingAbove]
  omega

theorem length_above_parent {c p : Cursor} (h : c.parent? = some p) :
    p.above.length < c.above.length := by
  rw [of_parent?_eq_some h]
  exact Nat.lt_succ_self _

end Cursor

end Outline
