import Outline.Syntax.Rule

/-!
# Rust

A function inside a type or an implementation block is a method. Visibility is a construct of
its own, and an import under another name is known by the path of what it imports.
-/

namespace Outline.Rust

/-- The declaring constructs. -/
def rules : List (String × Rule) := [
  ("mod_item", { kind := .moduleDecl }),
  ("struct_item", { kind := .structType }),
  ("union_item", { kind := .structType }),
  ("enum_item", { kind := .enumType }),
  ("trait_item", { kind := .traitType }),
  ("impl_item", { kind := .implBlock, name := .field "type" }),
  ("function_item", { kind := .function, nestedKind := some .method }),
  ("function_signature_item", { kind := .function, nestedKind := some .method }),
  ("field_declaration", { kind := .field }),
  ("const_item", { kind := .constant }),
  ("static_item", { kind := .constant }),
  ("type_item", { kind := .typeAlias }),
  ("use_declaration", { kind := .importDecl, name := .field "argument" })]

/-- Amend a declaration by its construct. -/
def amend (s : Site) (d : Draft) : Draft :=
  let d := d.set? "visibility" (s.text? (s.node.childOfKind? "visibility_modifier"))
  match s.node.kind with
  | "impl_item" => d.set? "trait" (s.text? (s.node.child? "trait"))
  | "static_item" => d.set "static" "true"
  | "use_declaration" =>
    match s.node.child? "argument" with
    | some argument =>
      if argument.kind == "use_as_clause" then
        (d.rename? (s.text? (argument.child? "path"))).set? "alias"
          (s.text? (argument.child? "alias"))
      else d
    | none => d
  | _ => d

/-- The language. -/
def language : Language := ⟨"rust", rules, amend⟩

end Outline.Rust
