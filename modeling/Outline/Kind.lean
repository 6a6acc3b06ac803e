import Outline.Text.Quoted

/-!
# Kinds of declarations

A declaration is of one of fourteen kinds. The order of `Kind.all` is the order in which kinds
are listed everywhere: in counts, in sets and in messages. `KindSet` is a set of kinds.
-/

namespace Outline

/-- What a declaration declares. -/
inductive Kind where
  /-- the source file itself -/
  | file
  /-- a module, package or namespace -/
  | moduleDecl
  | classType
  | interfaceType
  | structType
  | enumType
  | traitType
  /-- a block that implements members for a type -/
  | implBlock
  | function
  /-- a function that belongs to a type -/
  | method
  | field
  | constant
  | typeAlias
  | importDecl
deriving DecidableEq, Repr, Inhabited

namespace Kind

/-- All kinds in their order. -/
def all : List Kind :=
  [file, moduleDecl, classType, interfaceType, structType, enumType, traitType, implBlock,
    function, method, field, constant, typeAlias, importDecl]

/-- The position of a kind in `all`. -/
def index : Kind → Nat
  | file => 0
  | moduleDecl => 1
  | classType => 2
  | interfaceType => 3
  | structType => 4
  | enumType => 5
  | traitType => 6
  | implBlock => 7
  | function => 8
  | method => 9
  | field => 10
  | constant => 11
  | typeAlias => 12
  | importDecl => 13

/-- Every kind has a position. -/
theorem index_lt (k : Kind) : k.index < 14 := by
  cases k <;> decide

/-- The position of a kind determines it. -/
theorem index_inj {a b : Kind} (h : a.index = b.index) : a = b := by
  cases a <;> cases b <;> first | rfl | cases h

/-- The name of a kind in reports, requests and persisted outlines. -/
def name : Kind → String
  | file => "file"
  | moduleDecl => "module"
  | classType => "class"
  | interfaceType => "interface"
  | structType => "struct"
  | enumType => "enum"
  | traitType => "trait"
  | implBlock => "impl"
  | function => "function"
  | method => "method"
  | field => "field"
  | constant => "const"
  | typeAlias => "type_alias"
  | importDecl => "import"

/-- The name of a kind in descriptions of single nodes: words begin with a capital and are
joined. -/
def label : Kind → String
  | file => "File"
  | moduleDecl => "Module"
  | classType => "Class"
  | interfaceType => "Interface"
  | structType => "Struct"
  | enumType => "Enum"
  | traitType => "Trait"
  | implBlock => "Impl"
  | function => "Function"
  | method => "Method"
  | field => "Field"
  | constant => "Const"
  | typeAlias => "TypeAlias"
  | importDecl => "Import"

/-- The kind with the given name. -/
def ofName? (s : String) : Option Kind :=
  all.find? (·.name == s)

/-- The message for a text that names no kind. -/
def unknownMessage (s : String) : String :=
  "unknown stub kind " ++ Text.quoted s

/-- Reading a kind's name gives the kind. -/
theorem ofName?_name (k : Kind) : ofName? k.name = some k := by
  cases k <;> decide

/-- The name of a kind determines it. -/
theorem name_inj {a b : Kind} (h : a.name = b.name) : a = b := by
  have hname := ofName?_name a
  rw [h, ofName?_name] at hname
  exact (Option.some.inj hname).symm

/-- Kinds whose declarations own methods and fields. -/
def isTypeLike : Kind → Bool
  | classType | interfaceType | structType | enumType | traitType | implBlock => true
  | _ => false

/-- Kinds whose declarations can be called. -/
def isCallable : Kind → Bool
  | function | method => true
  | _ => false

end Kind

/-- A set of kinds: bit `k.index` tells whether `k` is a member. -/
structure KindSet where
  /-- The membership bits. -/
  bits : BitVec 14
deriving DecidableEq, Repr

namespace KindSet

/-- The set without members. -/
def empty : KindSet := ⟨0#14⟩

/-- Whether `k` is a member. -/
def contains (s : KindSet) (k : Kind) : Bool :=
  s.bits.getLsbD k.index

/-- The set with `k` added. -/
def insert (s : KindSet) (k : Kind) : KindSet :=
  ⟨s.bits ||| BitVec.twoPow 14 k.index⟩

/-- The set of the kinds in a list. -/
def ofList (ks : List Kind) : KindSet :=
  ks.foldl insert empty

/-- The members in the order of `Kind.all`. -/
def toList (s : KindSet) : List Kind :=
  Kind.all.filter s.contains

/-- Whether the set has no member. -/
def isEmpty (s : KindSet) : Bool :=
  s.bits == 0#14

/-- The kinds whose declarations own methods and fields. -/
def types : KindSet :=
  ofList [.classType, .interfaceType, .structType, .enumType, .traitType, .implBlock]

/-- The kinds whose declarations can be called. -/
def callables : KindSet :=
  ofList [.function, .method]

/-- Nothing is in the empty set. -/
@[simp] theorem contains_empty (k : Kind) : empty.contains k = false := by
  simp [contains, empty]

/-- Adding a kind makes it a member and leaves the others as they were. -/
@[simp] theorem contains_insert (s : KindSet) (k l : Kind) :
    (s.insert k).contains l = (s.contains l || decide (k = l)) := by
  have hk := k.index_lt
  have hl := l.index_lt
  simp only [contains, insert, BitVec.getLsbD_or, BitVec.getLsbD_twoPow]
  by_cases h : k = l
  · simp [h, hl]
  · have : k.index ≠ l.index := fun e => h (Kind.index_inj e)
    simp [h, this]

/-- A member of the list of members is a member, and conversely. -/
theorem mem_toList (s : KindSet) (k : Kind) : k ∈ s.toList ↔ s.contains k = true := by
  simp only [toList, List.mem_filter, and_iff_right_iff_imp]
  intro _
  cases k <;> decide

end KindSet

end Outline
