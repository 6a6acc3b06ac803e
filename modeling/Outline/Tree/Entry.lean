import Outline.Tree.Basic

/-!
# Trees from flat listings

A listing gives the declarations of a file in pre-order, each with its depth. `Tree.ofEntries`
rebuilds the nesting from the depths: an entry belongs to the last entry before it that lies one
level higher. It refuses a listing at the first entry that does not fit: the nesting of an
entry is looked at before its payload.
-/

namespace Outline

/-- One line of a listing. -/
structure Entry where
  kind : Kind
  payload : Payload
  depth : Nat
deriving DecidableEq, Inhabited

/-- A listing read so far: the nodes, and those that the next entry may belong to, innermost
first. -/
structure Reading where
  arena : Arena := .empty
  chain : List NodeId := []

namespace Reading

/-- Whether an entry of the given depth fits behind the entries read so far. -/
def nestingFault? (r : Reading) (depth : Nat) : Option BuildError :=
  if r.arena.size = 0 then
    if depth ≠ 0 then some (.badNesting 0 depth 0) else none
  else if depth = 0 then some (.secondRoot r.arena.size)
  else if r.chain.length < depth then
    some (.badNesting r.arena.size depth r.chain.length)
  else none

/-- Read one more entry. -/
def add (r : Reading) (e : Entry) : Except BuildError Reading :=
  match r.nestingFault? e.depth with
  | some fault => .error fault
  | none =>
    let chain := r.chain.drop (r.chain.length - e.depth)
    match r.arena.attach chain.head? e.kind e.payload with
    | .error fault => .error fault
    | .ok arena => .ok ⟨arena, r.arena.size :: chain⟩

end Reading

/-- The tree that a listing describes. -/
def Tree.ofEntries (es : List Entry) : Except BuildError Tree :=
  match es.foldlM Reading.add {} with
  | .error fault => .error fault
  | .ok r => r.arena.toTree

end Outline
