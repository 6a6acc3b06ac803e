import Outline.Json.Value
import Outline.Path.Basic
import Outline.Report.Ink
import Outline.Tree.Basic

/-!
# What an indexing run did

An index summary counts the trees of a run and their nodes by kind, and lists the files that
failed. This module provides:

* `IndexSummary` with `addTree` and `addFailure`;
* `IndexSummary.toValue` — the summary as JSON; and
* `IndexSummary.lines` — the summary for people.
-/

namespace Outline

/-- A file that failed, and why. -/
structure IndexFailure where
  file : Path
  error : String
  deriving DecidableEq, Repr

/-- The trees and failures of a run. -/
structure IndexSummary where
  path : Path
  filesIndexed : Nat := 0
  nodes : Nat := 0
  /-- The number of nodes of each kind. -/
  kinds : Kind → Nat := fun _ => 0
  failures : List IndexFailure := []

namespace IndexSummary

/-- Count a tree. -/
def addTree (s : IndexSummary) (t : Tree) : IndexSummary :=
  { s with
    filesIndexed := s.filesIndexed + 1
    nodes := s.nodes + t.size
    kinds := fun k => s.kinds k + (t.nodesOfKind k).length }

/-- List a failure. -/
def addFailure (s : IndexSummary) (file : Path) (error : String) : IndexSummary :=
  { s with failures := s.failures ++ [⟨file, error⟩] }

/-- The kinds that occurred, with the number of their nodes. -/
def kindCounts (s : IndexSummary) : List (Kind × Nat) :=
  (Kind.all.map fun k => (k, s.kinds k)).filter (·.2 ≠ 0)

/-- A failure as JSON. -/
def failureValue (f : IndexFailure) : Json.Value :=
  .obj [("file", .str f.file.text), ("error", .str f.error)]

/-- The summary as JSON; failures are left out if there are none. -/
def toValue (s : IndexSummary) : Json.Value :=
  .obj ([("path", .str s.path.text), ("files_indexed", .int s.filesIndexed),
    ("nodes", .int s.nodes),
    ("kinds", .obj (s.kindCounts.map fun (k, n) => (k.name, .int n)))] ++
    if s.failures.isEmpty then [] else [("failures", .arr (s.failures.map failureValue))])

/-- The lines about kinds. -/
def kindLines (s : IndexSummary) (ink : Ink) : List String :=
  if s.kindCounts.isEmpty then []
  else ["  " ++ ink.paint .bold "Kinds" ++ ":"] ++
    (s.kindCounts.map fun (k, n) =>
      "    " ++ ink.kind 12 k ++ " " ++ padLeft 6 (toString n)) ++ [""]

/-- The lines about failures. -/
def failureLines (s : IndexSummary) (ink : Ink) : List String :=
  if s.failures.isEmpty then []
  else ["  " ++ ink.paint .bold "Failures" ++ " (" ++ toString s.failures.length ++ "):"] ++
    (s.failures.flatMap fun f =>
      ["    " ++ ink.paint .red "ERROR" ++ " " ++ ink.paint .blue f.file.text,
        "          " ++ f.error]) ++ [""]

/-- The summary for people. -/
def lines (s : IndexSummary) (ink : Ink) : List String :=
  ink.header ++
    ["  " ++ ink.paint .dimmed "Indexed: " ++ s.path.text, "",
      "  " ++ ink.paint .bold (toString s.filesIndexed) ++ " files, " ++
        ink.paint .bold (toString s.nodes) ++ " stubs", ""] ++
    s.kindLines ink ++ s.failureLines ink

end IndexSummary

end Outline
