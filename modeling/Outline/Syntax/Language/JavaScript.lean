import Outline.Syntax.Rule

/-!
# JavaScript

A class may extend any expression. A member whose name begins with a number sign is private.
-/

namespace Outline.JavaScript

/-- The declaring constructs. -/
def rules : List (String × Rule) := [
  ("import_statement", { kind := .importDecl, name := .field "source" }),
  ("class_declaration", { kind := .classType }),
  ("function_declaration", { kind := .function }),
  ("generator_function_declaration", { kind := .function }),
  ("method_definition", { kind := .method }),
  ("field_definition", { kind := .field, name := .field "property" })]

/-- Amend a declaration by its construct. -/
def amend (s : Site) (d : Draft) : Draft :=
  let d := if s.node.kind == "class_declaration" then
      d.set? "extends" (s.text? ((s.node.childOfKind? "class_heritage").bind (·.firstNamed?)))
    else d
  if d.payload.name.toList.head? == some '#' then d.set "visibility" "private" else d

/-- The language. -/
def language : Language := ⟨"javascript", rules, amend⟩

end Outline.JavaScript
