import Outline.Syntax.Rule

/-!
# Python

A function inside a class is a method. A name that begins with an underscore is private, unless
two underscores stand at either end.
-/

namespace Outline.Python

/-- The declaring constructs. -/
def rules : List (String × Rule) := [
  ("class_definition", { kind := .classType }),
  ("function_definition", { kind := .function, nestedKind := some .method }),
  ("import_statement", { kind := .importDecl }),
  ("import_from_statement", { kind := .importDecl, name := .field "module_name" })]

/-- Whether a name has two underscores at either end. -/
def isSpecialName (name : List Char) : Bool :=
  ['_', '_'].isPrefixOf name && ['_', '_'].isSuffixOf name

/-- A declaration whose name begins with an underscore is private. -/
def markPrivate (d : Draft) : Draft :=
  let name := d.payload.name.toList
  if name.head? == some '_' && !isSpecialName name then d.set "visibility" "private" else d

/-- Amend an import under another name: it is known by the path of what it imports. -/
def amendImport (s : Site) (imported : SyntaxNode) (d : Draft) : Draft :=
  if imported.kind == "aliased_import" then
    (d.rename? (s.text? (imported.child? "name"))).set? "alias"
      (s.text? (imported.child? "alias"))
  else d

/-- Amend a declaration by its construct. -/
def amend (s : Site) (d : Draft) : Draft :=
  match s.node.kind with
  | "class_definition" =>
    markPrivate (d.set? "extends"
      (s.text? ((s.node.child? "superclasses").bind (·.firstNamed?))))
  | "import_statement" =>
    match s.node.child? "name" with
    | some imported => markPrivate (amendImport s imported d)
    | none => d
  | _ => markPrivate d

/-- The language. -/
def language : Language := ⟨"python", rules, amend⟩

end Outline.Python
