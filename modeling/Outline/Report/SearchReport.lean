import Outline.Report.Ink
import Outline.Search.Results

/-!
# The results of a search as a report

This module provides `Results.toReport`, the results with the counts of their plan as JSON, and
`Results.reportLines`, the results for people. Files are shown as seen from a directory.
-/

namespace Outline

/-- A path as seen from a directory, or as it is if it does not lead below it. -/
def Path.seenFrom (p root : Path) : Path := (p.relativeTo root).getD p

namespace Results

/-- The results of a plan as JSON. -/
def toReport (r : Results) (p : Plan) : Json.Value :=
  .obj [("requests", .int p.requests.length), ("merged", .int p.merged), ("total", .int r.total),
    ("results", r.toValue)]

/-- A hit in one line. -/
def hitLine (ink : Ink) (root : Path) (h : Hit) : String :=
  "    " ++ ink.kind 12 h.kind ++ " " ++ padRight 24 h.name ++ " " ++
    ink.paint .blue (h.file.seenFrom root).text ++
    ((h.line.map fun l => ink.paint .dimmed (":" ++ toString l)).getD "")

/-- The hits for an identity. -/
def groupLines (ink : Ink) (root : Path) (g : Identity × List Hit) : List String :=
  ["  " ++ ink.paint .bold "Query" ++ " " ++ Identity.display g.1 ++ " (" ++
    toString g.2.length ++ "):"] ++ g.2.map (hitLine ink root) ++ [""]

/-- The results of a plan for people. -/
def reportLines (r : Results) (p : Plan) (ink : Ink) (root : Path) : List String :=
  ink.header ++
    (if p.merged = 0 then []
      else ["  " ++ ink.paint .dimmed ("(" ++ toString p.merged ++ " duplicate requests merged)"),
        ""]) ++
    r.groups.flatMap (groupLines ink root) ++
    (if r.isEmpty then ["  " ++ ink.paint .yellow "No matches", ""] else [])

end Results

end Outline
