import Outline.Json.Value
import Outline.Search.Strategy
import Outline.Text.Quoted
import Outline.Tree.Basic

/-!
# Requests and plans

A request asks for declarations by name. Its identity lists what it asks for; requests with one
identity are answered once. This module provides:

* `Identity` — a list of values, shown so that different identities look different;
* `Request` — a target, a strategy and, if wanted, a kind, and
* `Plan` — requests without repetitions, in the order of their first submission.
-/

namespace Outline

/-- One value of an identity. -/
inductive IdentityValue where
  | text (s : String)
  | int (n : Int)
  | bool (b : Bool)
deriving DecidableEq, Repr

namespace IdentityValue

/-- How a value is shown: texts are quoted. -/
def display : IdentityValue → String
  | text s => Text.quoted s
  | int n => toString n
  | bool b => if b then "true" else "false"

/-- A value as JSON. -/
def toValue : IdentityValue → Json.Value
  | text s => .str s
  | int n => .int n
  | bool b => .bool b

end IdentityValue

/-- What a request asks for, as a list of values. -/
abbrev Identity := List IdentityValue

namespace Identity

/-- How an identity is shown. -/
def display (i : Identity) : String :=
  "[" ++ ", ".intercalate (i.map (·.display)) ++ "]"

/-- An identity as JSON. -/
def toValue (i : Identity) : Json.Value :=
  .arr (i.map (·.toValue))

end Identity

/-- A question for declarations by name. -/
structure Request where
  target : String
  strategy : Strategy
  /-- The kind of the declarations, if only one is wanted. -/
  kind : Option Kind := none
deriving DecidableEq, Repr

namespace Request

/-- What the request asks for. -/
def identity (r : Request) : Identity :=
  [.text r.target, .text r.strategy.tag] ++ (r.kind.map fun k => .text k.name).toList

/-- Whether a declaration answers the request. -/
def accepts (r : Request) (n : Node) : Bool :=
  r.kind.all (· == n.kind) && r.strategy.matchesName n.payload.name r.target

/-- The nodes of a tree that answer the request, in pre-order. A request for one kind looks only
at the nodes of that kind. -/
def scan (r : Request) (t : Tree) : List NodeId :=
  let candidates := match r.kind with
    | some k => t.nodesOfKind k
    | none => t.preorder
  candidates.filter fun i => (t.node? i).any r.accepts

end Request

/-- Requests to be answered together. -/
structure Plan where
  /-- The requests, one for each identity, in the order of submission. -/
  requests : List Request
  /-- How many requests were dropped since an equal one had come before. -/
  merged : Nat

namespace Plan

/-- The plan with one more request. -/
def add (p : Plan) (r : Request) : Plan :=
  if p.requests.any (·.identity == r.identity) then { p with merged := p.merged + 1 }
  else { p with requests := p.requests ++ [r] }

/-- The plan for a list of requests. -/
def ofRequests (rs : List Request) : Plan :=
  rs.foldl add ⟨[], 0⟩

end Plan

end Outline
