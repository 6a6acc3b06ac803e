/-!
# How a name is matched

The three strategies from the strictest to the widest: whatever an exact match finds, a match
of the beginning finds, and whatever that finds, a match anywhere finds.
-/

namespace Outline

/-- Whether `pattern` stands somewhere in a text. -/
def occursIn (pattern : List Char) : List Char → Bool
  | [] => pattern.isEmpty
  | c :: r => pattern.isPrefixOf (c :: r) || occursIn pattern r

/-- How the name of a declaration is compared with the target of a request. -/
inductive Strategy where
  /-- The name is the target. -/
  | exact
  /-- The name begins with the target. -/
  | beginning
  /-- The name contains the target. -/
  | anywhere
deriving DecidableEq, Repr

namespace Strategy

/-- The name of a strategy. -/
def tag : Strategy → String
  | exact => "exact"
  | beginning => "prefix"
  | anywhere => "textOccurrence"

/-- The strategy with the given name; the widest one has a short name too. -/
def ofName? : String → Option Strategy
  | "exact" => some exact
  | "prefix" => some beginning
  | "text" | "textOccurrence" => some anywhere
  | _ => none

/-- The message for a text that names no strategy. -/
def unknownMessage (s : String) : String :=
  "unknown strategy `" ++ s ++ "` (expected exact, prefix, or text)"

/-- Whether a name matches a target. -/
def matchesName (s : Strategy) (name target : String) : Bool :=
  match s with
  | exact => name == target
  | beginning => target.toList.isPrefixOf name.toList
  | anywhere => occursIn target.toList name.toList

end Strategy

end Outline
