import Outline.FileSystem.Basic
import Outline.Json.Reader
import Outline.Syntax.Plain.Python

/-!
# Listings of syntax trees

Parsers are other programs. What a parser makes of a source file may stand in a file beside it, as
a listing: JSON with the member `nodes`, an array with one row for each node in pre-order, and the
member `has_error`. A row holds the depth, the field or null, the construct, 1 for a named node and
else 0, the first byte, the byte behind the last one, and the line. This module provides:

* `SyntaxTree.ofListing?` — the tree that a listing is of; and
* `Grammar.beside`, which takes the trees of source files from the listings beside them.
-/

namespace Outline

namespace Listing

open Json (Reader)

/-- A truth value. -/
def readFlag : Reader Bool := do
  match ← Reader.next with
  | .bool b => return b
  | t => throw (Reader.mismatch t)

/-- The row of a node. -/
def readRow : Reader (Nat × SyntaxNode) := do
  match ← Reader.next with
  | .openArray => do
    let depth ← Reader.field true Reader.nat32
    let field ← Reader.field false (Reader.optional Reader.text)
    let kind ← Reader.field false Reader.text
    let named ← Reader.field false Reader.nat32
    let start ← Reader.field false Reader.nat32
    let stop ← Reader.field false Reader.nat32
    let row ← Reader.field false Reader.nat32
    Reader.closeArray
    return (depth, .mk field kind (named = 1) start stop row [])
  | t => throw (Reader.mismatch t)

/-- One more member of a listing. -/
def readMember (l : List (Nat × SyntaxNode) × Bool) (key : String) :
    Reader (List (Nat × SyntaxNode) × Bool) := do
  match key with
  | "nodes" => return (← Reader.items readRow, l.2)
  | "has_error" => return (l.1, ← readFlag)
  | _ =>
    Reader.passOver
    return l

/-- The rows of a listing, and whether the text has an error. -/
def read : Reader (List (Nat × SyntaxNode) × Bool) := do
  match ← Reader.next with
  | .openObject => Reader.members readMember ([], false)
  | t => throw (Reader.mismatch t)

/-- What is added to the name of a source file for its listing. -/
def nameSuffix : String := ".nodes.json"

end Listing

/-- The syntax tree that a listing is of. -/
def SyntaxTree.ofListing? (listing : Bytes) : Option SyntaxTree := do
  let (rows, hasError) ← (Json.Reader.run Listing.read listing).toOption
  return ⟨← SyntaxNode.ofPreorder rows, hasError⟩

namespace FileSystem

/-- The location of the listing of a source file. -/
def listingAt (l : Location) : Location :=
  l.dropLast ++ (l.getLast?.map (· ++ Listing.nameSuffix)).toList

/-- The tree that stands beside a file, if the file has the given extension and content. -/
def treeBeside? (fs : FileSystem) (extension : String) (source : Bytes) (l : Location) :
    Option SyntaxTree :=
  match fs.entry? l, fs.entry? (listingAt l) with
  | some (.file content), some (.file listing) =>
    if (pathOf l).extension?.map ("." ++ ·) = some extension && content == source then
      SyntaxTree.ofListing? listing
    else none
  | _, _ => none

end FileSystem

/-- The grammar that takes trees from listings beside source files, and without one tells what it
can. -/
def Grammar.beside (fs : FileSystem) : Grammar := fun extension source =>
  (fs.entries.entries.findSome? fun (l, _) => fs.treeBeside? extension source l).getD
    (Grammar.plain extension source)

end Outline
