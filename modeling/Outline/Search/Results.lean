import Outline.Path.Basic
import Outline.Search.Request
import Outline.Table

/-!
# Gathering and snapshots of results

Hits are gathered by request identity and later frozen into a snapshot. This module provides:

* `Hit` — one declaration that answers a request;
* `Tally` — hits by identity, identities in the order in which they came first; tallies of parts
  of a search are merged into one, and
* `Results` — the snapshot: in each group the hits are sorted by file and node, and of several
  hits at one place the first stays.
-/

namespace Outline

/-- One declaration that answers a request. -/
structure Hit where
  file : Path
  node : NodeId
  kind : Kind
  name : String
  line : Option Nat := none
deriving DecidableEq, Repr

namespace Hit

/-- The order of hits: by file, then by node. -/
def compare (a b : Hit) : Ordering :=
  (a.file.compare b.file).then (Ord.compare a.node b.node)

/-- Whether two hits are at one place. -/
def samePlace (a b : Hit) : Bool :=
  a.file.same b.file && a.node == b.node

/-- A hit as JSON; a missing line is left out. The file is written as it is spelled, which a text
always can be: only a path with a name that is not UTF-8 would have no JSON. -/
def toValue (h : Hit) : Json.Value :=
  .obj ([("file", .str h.file.text), ("node", .nat h.node), ("kind", .str h.kind.name),
    ("name", .str h.name)] ++ (h.line.map fun l => ("line", Json.Value.nat l)).toList)

end Hit

/-- Hits gathered by identity. -/
structure Tally where
  /-- The identities in the order in which they came first. -/
  order : List Identity
  /-- The hits for each identity; there may be none. -/
  hits : Table Identity (List Hit)
  /-- No identity is listed twice. -/
  nodup : order.Nodup
  /-- The listed identities are those that the table has. -/
  listed : ∀ i, i ∈ order ↔ hits.contains i = true

namespace Tally

/-- The tally without identities. -/
def empty : Tally :=
  ⟨[], .empty, List.nodup_nil, fun _ => by simp [Table.contains, Table.get?_empty]⟩

instance : Inhabited Tally := ⟨empty⟩

/-- The hits for an identity; for one that is not listed there are none. -/
def hitsFor (t : Tally) (i : Identity) : List Hit := (t.hits.get? i).getD []

/-- The tally with more hits for an identity. One that is new is listed last, also if no hits are
added. -/
def extend (t : Tally) (i : Identity) (more : List Hit) : Tally where
  order := if t.hits.contains i then t.order else t.order ++ [i]
  hits := t.hits.insert i (t.hitsFor i ++ more)
  nodup := by
    split
    · exact t.nodup
    · rename_i hnew
      refine List.nodup_append.2 ⟨t.nodup, List.pairwise_singleton _ i, fun j hj k hk hjk => ?_⟩
      rw [hjk, List.mem_singleton.1 hk] at hj
      exact hnew ((t.listed i).1 hj)
  listed j := by
    have hj := t.listed j
    rw [Table.contains_insert]
    split <;> by_cases hji : j = i <;> simp_all

/-- The tally with one more hit for an identity. -/
def add (t : Tally) (i : Identity) (h : Hit) : Tally :=
  t.extend i [h]

/-- The tally with an empty list of hits for each request of a plan. -/
def forPlan (p : Plan) : Tally :=
  p.requests.foldl (fun t r => t.extend r.identity []) empty

/-- The hits of the first tally, then those of the second. -/
def merge (a b : Tally) : Tally :=
  b.order.foldl (fun t i => t.extend i (b.hitsFor i)) a

end Tally

/-- A snapshot of the results of a search. -/
structure Results where
  groups : List (Identity × List Hit)

/-- A list of hits without those that are at the place of the hit just before. -/
def dropRepeated : List Hit → List Hit
  | [] => []
  | h :: r => h :: dropRepeated (r.dropWhile h.samePlace)
termination_by hs => hs.length
decreasing_by
  have := (r.dropWhile_sublist h.samePlace).length_le
  rw [List.length_cons]
  omega

/-- The snapshot of a tally. -/
def Tally.freeze (t : Tally) : Results :=
  ⟨t.order.map fun i =>
    (i, dropRepeated ((t.hitsFor i).mergeSort fun a b => (a.compare b).isLE))⟩

namespace Results

/-- The hits for an identity. -/
def hitsFor (r : Results) (i : Identity) : List Hit :=
  ((r.groups.find? (·.1 == i)).map (·.2)).getD []

/-- The number of hits. -/
def total (r : Results) : Nat :=
  r.groups.foldl (fun n g => n + g.2.length) 0

/-- Whether nothing was found. -/
def isEmpty (r : Results) : Bool :=
  r.total == 0

/-- Results as JSON. -/
def toValue (r : Results) : Json.Value :=
  .obj [("groups", .arr (r.groups.map fun g =>
    .obj [("identity", g.1.toValue), ("hits", .arr (g.2.map (·.toValue)))]))]

end Results

end Outline
