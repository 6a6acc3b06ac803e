import Outline.Search.Results

/-!
# Running a search

A search runs over shards, each the tree of one file. Every shard is scanned by itself for all
requests of a plan; the tallies of the shards are merged behind a tally that has a group for
each request, so that a request without hits has a group too.
-/

namespace Outline

/-- The tree of one file. -/
structure Shard where
  file : Path
  tree : Tree

namespace Shard

/-- The hit for a node. -/
def hit? (s : Shard) (i : NodeId) : Option Hit :=
  (s.tree.node? i).map fun n => ⟨s.file, i, n.kind, n.payload.name, n.payload.line?⟩

/-- The hits of a shard for a request, in pre-order. -/
def hits (s : Shard) (r : Request) : List Hit :=
  (r.scan s.tree).filterMap s.hit?

/-- The hits of a shard for all requests of a plan. -/
def tally (s : Shard) (p : Plan) : Tally :=
  p.requests.foldl (fun t r => (s.hits r).foldl (fun t h => t.add r.identity h) t) .empty

end Shard

/-- The results of a plan over shards. -/
def search (shards : List Shard) (p : Plan) : Results :=
  let found := (shards.map (·.tally p)).foldl Tally.merge .empty
  ((Tally.forPlan p).merge found).freeze

end Outline
