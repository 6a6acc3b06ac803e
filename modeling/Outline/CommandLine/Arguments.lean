import Outline.Table

/-!
# Arguments of a command line

A command takes options and values in order. An option is written `--format json`,
`--format=json`, `-f json`, `-fjson` or `-f=json`; what follows `--` is never an option. This
module provides:

* `Signature` — the options, values and commands that a command knows;
* `UsageFault` — what can be wrong with arguments; asking for help counts as such; and
* `Signature.read` — the values of the arguments, up to the name of a command.

Arguments are taken one after another, and the first fault counts. The values of an option or
of a place are looked at when the next one begins, or at the end. So these values are
`pending` for a while, and a fault that comes up in the meantime hides one in them.
-/

namespace Outline

/-- Why a command does not run. -/
inductive UsageFault
  | missingRequiredArgument
  | unknownArgument
  | invalidValue
  | argumentConflict
  | invalidSubcommand
  | missingSubcommand
  | tooManyValues
  | help
  | version
  /-- There were no arguments at all. -/
  | helpForLackOfArguments
  deriving DecidableEq, Repr

/-- Whether a command was asked for help or its version, which is no failure. -/
def UsageFault.isRequest : UsageFault → Bool
  | .help => true
  | .version => true
  | _ => false

/-- An option with a value, or a place for values. -/
structure Parameter where
  name : String
  /-- The letter of an option. -/
  letter : Char := ' '
  /-- Whether the value may be empty; a path may not. -/
  mayBeEmpty : Bool := true
  /-- Whether the parameter takes all values that come. -/
  takesAll : Bool := false
  deriving DecidableEq

/-- What a command knows. -/
structure Signature where
  options : List Parameter := []
  /-- Options without a value, each with what it asks for. -/
  requests : List (String × Char × UsageFault) := []
  places : List Parameter := []
  commands : List String := []

/-- The values read so far. -/
structure Values where
  given : List (String × List String) := []
  /-- Values that are not looked at yet, the latest first. -/
  pending : Option (Parameter × List String) := none
  /-- The option whose value comes next. -/
  expecting : Option Parameter := none
  /-- The number of places that are filled. -/
  filled : Nat := 0
  /-- Whether `--` was read. -/
  onlyValues : Bool := false

namespace Values

/-- The values of a parameter. -/
def all (v : Values) (name : String) : List String := (v.given.lookup name).getD []

/-- The first value of a parameter. -/
def first? (v : Values) (name : String) : Option String := (v.all name).head?

/-- Look at the values of a parameter and keep them. -/
def keep (v : Values) (p : Parameter) (values : List String) : Except UsageFault Values :=
  if values.isEmpty then .error .invalidValue
  else if !p.takesAll && (v.given.lookup p.name).isSome then .error .argumentConflict
  else if !p.mayBeEmpty && values.any (·.isEmpty) then .error .invalidValue
  else .ok { v with
    given := (p.name, v.all p.name ++ values) :: v.given.filter (·.1 != p.name) }

/-- Look at the values that are pending. -/
def settle (v : Values) : Except UsageFault Values :=
  match v.pending with
  | none => .ok v
  | some (p, values) => { v with pending := none }.keep p values.reverse

/-- Begin an option whose value comes next. -/
def expect (v : Values) (p : Parameter) : Except UsageFault Values := do
  let v ← v.settle
  return { v with pending := some (p, []), expecting := some p }

/-- Take an option with its value. -/
def take (v : Values) (p : Parameter) (value : String) : Except UsageFault Values := do
  let v ← v.settle
  let v ← v.keep p [value]
  return { v with expecting := none }

/-- Take the value of the option that expects one. -/
def answer (v : Values) (p : Parameter) (value : String) : Values :=
  { v with pending := some (p, [value]), expecting := none }

/-- Take a value for a place. -/
def place (v : Values) (p : Parameter) (value : String) : Except UsageFault Values := do
  let more := p.takesAll && (v.pending.map (·.1)) == some p
  let v ← if more then pure v else v.settle
  let before := if more then (v.pending.map (·.2)).getD [] else []
  return { v with
    pending := some (p, value :: before)
    filled := if p.takesAll then v.filled else v.filled + 1 }

end Values

/-- How an argument is written. -/
inductive Shape
  /-- Two dashes alone. -/
  | escape
  /-- An option by its name, with a value if one is attached. -/
  | named (name : String) (attached : Option String)
  /-- An option by its letter, with what follows the letter. -/
  | lettered (letter : Char) (rest : List Char)
  | plain

/-- The shape of an argument. A dash alone is a plain value. -/
def Shape.of (argument : String) : Shape :=
  match argument.toList with
  | ['-', '-'] => .escape
  | '-' :: '-' :: r =>
    .named (String.ofList (r.takeWhile (· ≠ '=')))
      (match r.dropWhile (· ≠ '=') with
        | [] => none
        | _ :: value => some (String.ofList value))
  | '-' :: c :: r => .lettered c r
  | _ => .plain

/-- The value that is attached to a letter; an equals sign before it does not count. -/
def attachedValue? : List Char → Option String
  | [] => none
  | '=' :: r => some (String.ofList r)
  | r => some (String.ofList r)

namespace Signature

/-- Take an option by its name. -/
def readNamed (s : Signature) (v : Values) (name : String) (attached : Option String) :
    Except UsageFault Values :=
  match s.options.find? (·.name == name), s.requests.find? (·.1 == name) with
  | some p, _ =>
    match attached with
    | some value => v.take p value
    | none => v.expect p
  | none, some (_, _, request) =>
    if attached.isSome then .error .tooManyValues
    else v.settle.bind fun _ => .error request
  | none, none => .error .unknownArgument

/-- Take an option by its letter. -/
def readLettered (s : Signature) (v : Values) (letter : Char) (rest : List Char) :
    Except UsageFault Values :=
  match s.options.find? (·.letter == letter), s.requests.find? (·.2.1 == letter) with
  | some p, _ =>
    match attachedValue? rest with
    | some value => v.take p value
    | none => v.expect p
  | none, some (_, _, request) => v.settle.bind fun _ => .error request
  | none, none => .error .unknownArgument

/-- What is wrong with a value for which there is no place. -/
def surplus (s : Signature) (v : Values) (value : String) : UsageFault :=
  if s.commands.isEmpty || (v.onlyValues && s.commands.contains value) then .unknownArgument
  else .invalidSubcommand

/-- Take a value that is not an option. -/
def readValue (s : Signature) (v : Values) (value : String) : Except UsageFault Values :=
  match s.places[v.filled]? with
  | some p => v.place p value
  | none => .error (s.surplus v value)

/-- Take an argument that is not the name of a command. -/
def readArgument (s : Signature) (v : Values) (argument : String) : Except UsageFault Values :=
  if v.onlyValues then s.readValue v argument
  else match Shape.of argument with
  | .escape => .ok { v with onlyValues := true }
  | .named name attached => s.readNamed v name attached
  | .lettered letter rest => s.readLettered v letter rest
  | .plain =>
    match v.expecting with
    | some p => .ok (v.answer p argument)
    | none => s.readValue v argument

/-- Take arguments up to the name of a command; the answer has the name and what follows it. -/
def read (s : Signature) (v : Values) :
    List String → Except UsageFault (Values × Option (String × List String))
  | [] => .ok (v, none)
  | argument :: r =>
    if !v.onlyValues && v.expecting.isNone && s.commands.contains argument then
      .ok (v, some (argument, r))
    else do s.read (← s.readArgument v argument) r

/-- The values of all arguments of a command without commands of its own; every place has to be
filled. -/
def readAll (s : Signature) (arguments : List String) : Except UsageFault Values := do
  let (v, _) ← s.read {} arguments
  let v ← v.settle
  if s.places.all fun p => !(v.all p.name).isEmpty then return v
  else .error .missingRequiredArgument

end Signature

end Outline
