import Outline.Syntax.Rule
import Outline.Text.Uppercase

/-!
# Go

A declaration is exported if its name begins with a capital letter. What a type declaration
declares shows only in the type behind it, and a method names the type it belongs to in a
receiver parameter, possibly behind stars and before type arguments.
-/

namespace Outline.Go

/-- The declaring constructs. -/
def rules : List (String × Rule) := [
  ("package_clause", { kind := .moduleDecl, name := .firstNamed }),
  ("import_spec", { kind := .importDecl, name := .field "path" }),
  ("function_declaration", { kind := .function }),
  ("method_declaration", { kind := .method }),
  ("type_spec", { kind := .typeAlias }),
  ("type_alias", { kind := .typeAlias }),
  ("field_declaration", { kind := .field }),
  ("method_elem", { kind := .method }),
  ("method_spec", { kind := .method }),
  ("const_spec", { kind := .constant })]

/-- The name of a receiver's type, without stars and type arguments. -/
def baseType? (type : String) : Option String :=
  let name := (type.toList.dropWhile (· == '*')).takeWhile (· != '[')
  match Text.strip Text.isBlank name with
  | [] => none
  | cs => some (String.ofList cs)

/-- The type that a method belongs to. -/
def receiver? (s : Site) : Option String := do
  let parameter ← (← s.node.child? "receiver").firstNamed?
  baseType? (← s.text? (parameter.child? "type"))

/-- A declaration whose name begins with a capital letter is exported. -/
def markExported (d : Draft) : Draft :=
  if d.payload.name.toList.head?.any Text.isUppercase then d.set "visibility" "exported" else d

/-- Amend a declaration by its construct. -/
def amend (s : Site) (d : Draft) : Draft :=
  match s.node.kind with
  | "type_spec" =>
    let kind := match (s.node.child? "type").map (·.kind) with
      | some "struct_type" => Kind.structType
      | some "interface_type" => .interfaceType
      | _ => .typeAlias
    markExported { d with kind := kind }
  | "method_declaration" => markExported (d.set? "receiver" (receiver? s))
  | "import_spec" => d.set? "alias" (s.text? (s.node.child? "name"))
  | "package_clause" => d
  | _ => markExported d

/-- The language. -/
def language : Language := ⟨"go", rules, amend⟩

end Outline.Go
