import Outline.Yaml.Token

/-!
# YAML documents

A document is one node: a scalar, a sequence, a mapping, or an alias of another node. This module
provides:

* `Node` — the nodes, aliases included;
* `Anchors` — the nodes that aliases can name; and
* `Document` with `Document.ofText?` — the one document of a text, and `Document.resolve?`, the
  node that a node stands for.

Texts that hold more than one document are refused. Where a node may be left out, it is an empty
plain scalar.
-/

namespace Outline.Yaml

/-- A node. -/
inductive Node
  | scalar (text : String) (style : Style) (tag : Option String)
  | sequence (items : List Node)
  | mapping (pairs : List (Node × Node))
  /-- The node that the anchor with this number marks. -/
  | alias (number : Nat)
  deriving Inhabited

/-- The node that stands where none is written. -/
def Node.missing : Node := .scalar "" .plain none

/-! ### Anchors -/

/-- The anchors of a document. An anchor gets as its number the count of the names in use before
it; the numbers are listed in the order in which the anchors begin. -/
structure Anchors where
  names : List (String × Nat) := []
  begun : Array Nat := #[]
  ended : List (Nat × Node) := []

namespace Anchors

/-- The number that a name stands for now. -/
def number? (a : Anchors) (name : String) : Option Nat := a.names.lookup name

/-- Begin the node that an anchor marks. -/
def begin (a : Anchors) (name : String) : Anchors :=
  let n := a.names.length
  { a with names := (name, n) :: a.names.filter (·.1 != name), begun := a.begun.push n }

/-- End the node that began as the `i`-th. -/
def finish (a : Anchors) (i : Nat) (n : Node) : Anchors := { a with ended := (i, n) :: a.ended }

/-- The node that a number stands for: of the anchors with that number, the last that began. -/
def node? (a : Anchors) (number : Nat) : Option Node := do
  let (_, i) ← a.begun.toList.zipIdx.reverse.find? (·.1 == number)
  a.ended.lookup i

end Anchors

/-! ### Properties -/

/-- The tag handles of a document and what they stand for. -/
abbrev Handles := List (String × String)

/-- The handles that need no directive. -/
def standardHandles : Handles := [("!", "!"), ("!!", "tag:yaml.org,2002:")]

/-- The tag that a handle and a suffix stand for. -/
def tag? (hs : Handles) (handle suffix : String) : Option String :=
  if handle.isEmpty then some suffix else (hs.lookup handle).map (· ++ suffix)

/-- What stands in front of a node. -/
structure Properties where
  anchor : Option String := none
  tag : Option String := none

/-- Whether nothing stands in front of a node. -/
def Properties.isEmpty (p : Properties) : Bool := p.anchor.isNone && p.tag.isNone

/-- The name of the alias in front of these tokens, and the tokens behind it. -/
def aliased? : List Token → Option (String × List Token)
  | .alias name :: r => some (name, r)
  | _ => none

/-- The anchor and the tag in front of a node, in either order, and the tokens behind them. -/
def properties? (hs : Handles) : List Token → Option (Properties × List Token)
  | .anchor a :: .tag h s :: r => (tag? hs h s).map fun t => (⟨some a, some t⟩, r)
  | .anchor a :: r => some (⟨some a, none⟩, r)
  | .tag h s :: .anchor a :: r => (tag? hs h s).map fun t => (⟨some a, some t⟩, r)
  | .tag h s :: r => (tag? hs h s).map fun t => (⟨none, some t⟩, r)
  | ts => some ({}, ts)

/-- Properties take nothing but tokens of their own. -/
theorem length_properties?_le {hs : Handles} {ts r : List Token} {p : Properties}
    (h : properties? hs ts = some (p, r)) : r.length ≤ ts.length := by
  unfold properties? at h
  split at h
  · obtain ⟨_, _, h⟩ := Option.map_eq_some_iff.1 h; simp_all; omega
  · simp_all
  · obtain ⟨_, _, h⟩ := Option.map_eq_some_iff.1 h; simp_all; omega
  · obtain ⟨_, _, h⟩ := Option.map_eq_some_iff.1 h; simp_all
  · simp_all

/-! ### Nodes -/

/-- Whether a node is left out in front of these tokens, inside a mapping written by
indentation. -/
def endsBlockItem : List Token → Bool
  | .key :: _ => true
  | .value :: _ => true
  | .blockEnd :: _ => true
  | _ => false

/-- Whether a node is left out in front of these tokens, inside brackets that `close` ends. -/
def endsFlowItem (close : Token) : List Token → Bool
  | .flowEntry :: _ => true
  | t :: _ => t == close
  | [] => false

/-- The tokens of the next item inside brackets, or of their end; all items but the first have a
comma in front of them. -/
def flowItem? (close : Token) (first : Bool) : List Token → Option (List Token)
  | [] => none
  | t :: r =>
    if first || t = close then some (t :: r)
    else if t = .flowEntry then some r
    else none

/-- At most a comma is taken away. -/
theorem length_flowItem?_le {close : Token} {first : Bool} {ts inner : List Token}
    (h : flowItem? close first ts = some inner) : inner.length ≤ ts.length := by
  unfold flowItem? at h
  split at h
  · simp at h
  · split at h
    · simp_all
    · split at h
      · simp only [Option.some.injEq] at h
        subst h
        simp
      · simp at h

/-- What has been read: a value, the anchors so far and the tokens left. -/
abbrev Reading (α : Type) := α × Anchors × List Token

mutual

/-- A node. If not `block`, it stands inside brackets; if `indentless`, the entries of a sequence
may begin right here, without a token that begins the sequence. -/
def node? (hs : Handles) (block indentless : Bool) (a : Anchors) (ts : List Token) :
    Option (Reading Node) :=
  match aliased? ts with
  | some (name, r) => (a.number? name).map fun n => (.alias n, a, r)
  | none =>
    match h : properties? hs ts with
    | none => none
    | some (p, r) =>
      have := length_properties?_le h
      match p.anchor with
      | none => content? hs block indentless p a r
      | some name => do
        let i := a.begun.size
        let (n, a, rest) ← content? hs block indentless p (a.begin name) r
        return (n, a.finish i n, rest)
termination_by 6 * ts.length + 3

/-- A node behind its properties. -/
def content? (hs : Handles) (block indentless : Bool) (p : Properties) (a : Anchors)
    (ts : List Token) : Option (Reading Node) :=
  let missing := if p.isEmpty then none else some (Node.scalar "" .plain p.tag, a, ts)
  match ts with
  | .blockEntry :: r =>
    if indentless then do
      let (items, a, rest) ← blockItems? hs true a (.blockEntry :: r)
      return (.sequence items, a, rest)
    else missing
  | .scalar text style :: r => some (.scalar text style p.tag, a, r)
  | .flowSequenceStart :: r => do
    let (items, a, rest) ← flowItems? hs true a r
    return (.sequence items, a, rest)
  | .flowMappingStart :: r => do
    let (pairs, a, rest) ← flowPairs? hs true a r
    return (.mapping pairs, a, rest)
  | .blockSequenceStart :: r =>
    if block then do
      let (items, a, rest) ← blockItems? hs false a r
      return (.sequence items, a, rest)
    else missing
  | .blockMappingStart :: r =>
    if block then do
      let (pairs, a, rest) ← blockPairs? hs a r
      return (.mapping pairs, a, rest)
    else missing
  | _ => missing
termination_by 6 * ts.length + 2

/-- The items of a sequence written by indentation. If `indentless`, the sequence has no end of its
own: it ends in front of the first token that is no entry. -/
def blockItems? (hs : Handles) (indentless : Bool) (a : Anchors) (ts : List Token) :
    Option (Reading (List Node)) :=
  match ts with
  | .blockEntry :: r => do
    let missing := match r with
      | .blockEntry :: _ => true
      | .blockEnd :: _ => true
      | _ => indentless && endsBlockItem r
    let (n, a, rest) ← if missing then some (Node.missing, a, r) else node? hs true false a r
    if rest.length ≤ r.length then
      let (items, a, rest) ← blockItems? hs indentless a rest
      return (n :: items, a, rest)
    else none
  | .blockEnd :: r => some ([], a, if indentless then .blockEnd :: r else r)
  | ts => if indentless then some ([], a, ts) else none
termination_by 6 * ts.length + 1

/-- The pairs of a mapping written by indentation. -/
def blockPairs? (hs : Handles) (a : Anchors) (ts : List Token) :
    Option (Reading (List (Node × Node))) :=
  match ts with
  | .key :: r => do
    let (k, a, rest) ←
      if endsBlockItem r then some (Node.missing, a, r) else node? hs true true a r
    let (v, a, rest) ← match rest with
      | .value :: s =>
        if endsBlockItem s then some (Node.missing, a, s)
        else if s.length ≤ r.length then node? hs true true a s
        else none
      | _ => some (Node.missing, a, rest)
    if rest.length ≤ r.length then
      let (pairs, a, rest) ← blockPairs? hs a rest
      return ((k, v) :: pairs, a, rest)
    else none
  | .blockEnd :: r => some ([], a, r)
  | _ => none
termination_by 6 * ts.length + 1

/-- The items of a sequence in brackets. A pair among them is a mapping of its own. -/
def flowItems? (hs : Handles) (first : Bool) (a : Anchors) (ts : List Token) :
    Option (Reading (List Node)) :=
  match h : flowItem? .flowSequenceEnd first ts with
  | none => none
  | some inner =>
    have := length_flowItem?_le h
    match inner with
    | .flowSequenceEnd :: r => some ([], a, r)
    | .key :: r => do
      have : r.length < ts.length := length_flowItem?_le h
      let (pair, a, rest) ← flowPair? hs .flowSequenceEnd a r
      if rest.length < ts.length then
        let (items, a, rest) ← flowItems? hs false a rest
        return (.mapping [pair] :: items, a, rest)
      else none
    | inner => do
      let (n, a, rest) ← node? hs false false a inner
      if rest.length < ts.length then
        let (items, a, rest) ← flowItems? hs false a rest
        return (n :: items, a, rest)
      else none
termination_by 6 * ts.length + 5

/-- A pair in brackets, from behind the token that begins its key. -/
def flowPair? (hs : Handles) (close : Token) (a : Anchors) (ts : List Token) :
    Option (Reading (Node × Node)) := do
  let inSequence := close == .flowSequenceEnd
  let missing := endsFlowItem close ts || ts.head? == some .value
  -- A missing key in a sequence takes the token behind it along.
  let (k, a, rest) ←
    if missing then some (Node.missing, a, if inSequence then ts.tail else ts)
    else node? hs false false a ts
  match rest with
  | .value :: r =>
    let (v, a, rest) ←
      if endsFlowItem close r then some (Node.missing, a, r)
      else if r.length ≤ ts.length then node? hs false false a r
      else none
    return ((k, v), a, rest)
  | _ => return ((k, Node.missing), a, rest)
termination_by 6 * ts.length + 4

/-- The pairs of a mapping in brackets. -/
def flowPairs? (hs : Handles) (first : Bool) (a : Anchors) (ts : List Token) :
    Option (Reading (List (Node × Node))) :=
  match h : flowItem? .flowMappingEnd first ts with
  | none => none
  | some inner =>
    have := length_flowItem?_le h
    match inner with
    | .flowMappingEnd :: r => some ([], a, r)
    | .key :: r => do
      have : r.length < ts.length := length_flowItem?_le h
      let (pair, a, rest) ← flowPair? hs .flowMappingEnd a r
      if rest.length < ts.length then
        let (pairs, a, rest) ← flowPairs? hs false a rest
        return (pair :: pairs, a, rest)
      else none
    | inner => do
      let (k, a, rest) ← node? hs false false a inner
      if rest.length < ts.length then
        let (pairs, a, rest) ← flowPairs? hs false a rest
        return ((k, Node.missing) :: pairs, a, rest)
      else none
termination_by 6 * ts.length + 5

end

/-! ### Documents -/

/-- A document: its node, unless the text is empty, and the nodes that aliases name. -/
structure Document where
  root : Option Node
  anchors : Anchors

/-- The directives in front of a document: whether one states the version, and the handles. -/
def directives? (version : Bool) (hs : Handles) : List Token → Option (Handles × List Token)
  | .versionDirective major minor :: r =>
    if !version && major = 1 && (minor = 1 || minor = 2) then directives? true hs r else none
  | .tagDirective handle expansion :: r =>
    if (hs.lookup handle).isSome then none else directives? version ((handle, expansion) :: hs) r
  | ts => some (hs, ts)

/-- Whether these tokens begin no node, so that a document may leave it out. -/
def endsDocument : List Token → Bool
  | [] => true
  | .versionDirective _ _ :: _ => true
  | .tagDirective _ _ :: _ => true
  | .documentStart :: _ => true
  | .documentEnd :: _ => true
  | _ => false

/-- The one document of a list of tokens. -/
def Document.ofTokens? (ts : List Token) : Option Document :=
  if ts.isEmpty then some ⟨none, {}⟩
  else do
    let (hs, rest) ← directives? false [] ts
    let hs := hs ++ standardHandles
    let (n, a, rest) ← match rest with
      | .documentStart :: r =>
        if endsDocument r then some (Node.missing, {}, r) else node? hs true false {} r
      | _ => if rest.length < ts.length then none else node? hs true false {} rest
    if (rest.dropWhile (· == .documentEnd)).isEmpty then some ⟨some n, a⟩ else none

/-- The one document of a text. -/
def Document.ofText? (text : String) : Option Document :=
  (Token.ofText? text).bind Document.ofTokens?

/-- The node that a node stands for. -/
def Document.resolve? (d : Document) : Node → Option Node
  | .alias number => d.anchors.node? number
  | n => some n

end Outline.Yaml
