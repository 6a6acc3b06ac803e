import Outline.Syntax.Rule

/-!
# TypeScript

A class names what it extends in a clause of its heritage. A declaration directly below an
export statement is exported.
-/

namespace Outline.TypeScript

/-- The declaring constructs. -/
def rules : List (String × Rule) := [
  ("import_statement", { kind := .importDecl, name := .field "source" }),
  ("internal_module", { kind := .moduleDecl }),
  ("class_declaration", { kind := .classType }),
  ("abstract_class_declaration", { kind := .classType }),
  ("interface_declaration", { kind := .interfaceType }),
  ("enum_declaration", { kind := .enumType }),
  ("type_alias_declaration", { kind := .typeAlias }),
  ("function_declaration", { kind := .function }),
  ("generator_function_declaration", { kind := .function }),
  ("method_definition", { kind := .method }),
  ("method_signature", { kind := .method }),
  ("abstract_method_signature", { kind := .method }),
  ("public_field_definition", { kind := .field }),
  ("property_signature", { kind := .field })]

/-- What a class extends. -/
def base? (s : Site) : Option SyntaxNode := do
  let heritage ← s.node.childOfKind? "class_heritage"
  (← heritage.childOfKind? "extends_clause").child? "value"

/-- Amend a declaration by its construct. -/
def amend (s : Site) (d : Draft) : Draft :=
  let d := d.set? "visibility" (s.text? (s.node.childOfKind? "accessibility_modifier"))
  let d := match s.node.kind with
    | "class_declaration" | "abstract_class_declaration" => d.set? "extends" (s.text? (base? s))
    | _ => d
  if s.parentKind == "export_statement" then d.set "exported" "true" else d

/-- The language. -/
def language : Language := ⟨"typescript", rules, amend⟩

end Outline.TypeScript
