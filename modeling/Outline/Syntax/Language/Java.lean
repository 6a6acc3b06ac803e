import Outline.Syntax.Rule

/-!
# Java

Modifiers stand together in front of a declaration. They give its visibility, and a field that
is both static and final is a constant.
-/

namespace Outline.Java

/-- The declaring constructs. -/
def rules : List (String × Rule) := [
  ("package_declaration", { kind := .moduleDecl, name := .firstNamed }),
  ("import_declaration", { kind := .importDecl, name := .firstNamed }),
  ("class_declaration", { kind := .classType }),
  ("record_declaration", { kind := .classType }),
  ("interface_declaration", { kind := .interfaceType }),
  ("annotation_type_declaration", { kind := .interfaceType }),
  ("enum_declaration", { kind := .enumType }),
  ("method_declaration", { kind := .method }),
  ("constructor_declaration", { kind := .method }),
  ("field_declaration", { kind := .field, name := .fieldPath ["declarator", "name"] }),
  ("constant_declaration", { kind := .constant, name := .fieldPath ["declarator", "name"] })]

/-- The visibilities in the order in which they are looked for. -/
def visibilities : List String := ["public", "protected", "private"]

/-- The pieces of a text between spaces. -/
def spaced : List Char → List (List Char)
  | [] => [[]]
  | c :: r =>
    if c = ' ' then [] :: spaced r
    else match spaced r with
      | w :: ws => (c :: w) :: ws
      | [] => [[c]]

/-- Amend a declaration by the modifiers in front of it. -/
def applyModifiers (modifiers : String) (d : Draft) : Draft :=
  let words := (spaced modifiers.toList).map String.ofList
  let d := d.set? "visibility" (visibilities.find? words.contains)
  let d := if d.kind == .field && words.contains "static" && words.contains "final" then
      { d with kind := .constant }
    else d
  d.set "modifiers" modifiers

/-- Amend an import: one of all members says so in its name, a static one by an attribute. -/
def amendImport (s : Site) (d : Draft) : Draft :=
  let d := if (s.node.childOfKind? "asterisk").isSome then
      d.rename? (some (d.payload.name ++ ".*"))
    else d
  if "import static ".toList.isPrefixOf ((s.text? (some s.node)).getD "").toList then
    d.set "static" "true"
  else d

/-- Amend a declaration by its construct. -/
def amend (s : Site) (d : Draft) : Draft :=
  let d := match s.text? (s.node.childOfKind? "modifiers") with
    | some modifiers => applyModifiers modifiers d
    | none => d
  match s.node.kind with
  | "class_declaration" =>
    d.set? "extends" (s.text? ((s.node.child? "superclass").bind (·.firstNamed?)))
  | "import_declaration" => amendImport s d
  | _ => d

/-- The language. -/
def language : Language := ⟨"java", rules, amend⟩

end Outline.Java
