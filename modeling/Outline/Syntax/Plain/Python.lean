import Outline.Syntax.Languages
import Outline.Syntax.Plain.Line

/-!
# Python by its lines

Where no parser is at hand, the lines of a Python text show much of its structure: a line stands
inside the nearest line before it that is indented less. This module provides
`Grammar.plain`, which finds the classes, functions and imports of a Python text in this way and
takes all other statements as they are. A definition spans its head only, and no text is refused.
Texts in other languages have no structure for it.
-/

namespace Outline

namespace Python

open SyntaxNode (mk)

/-- A node over some tokens, at a depth; none over none. -/
def spanning (depth : Nat) (field : Option String) (kind : String) (ts : List Token) :
    List (Nat × SyntaxNode) :=
  match ts.head?, ts.getLast? with
  | some a, some b => [(depth, mk field kind true a.start b.stop a.row [])]
  | _, _ => []

/-- The nodes for the bases of a class, which stand in brackets. -/
def basesNodes (depth : Nat) (ts : List Token) : List (Nat × SyntaxNode) :=
  let inner := (ts.drop 1).dropLast
  spanning depth (some "superclasses") "argument_list" ts ++
    (Token.separate "," 0 inner).flatMap (spanning (depth + 1) none "argument")

/-- The nodes for something that is imported, maybe under another name. -/
def importedNodes (depth : Nat) (ts : List Token) : List (Nat × SyntaxNode) :=
  let path := ts.takeWhile (·.word ≠ "as")
  match ts.drop path.length with
  | _ :: other =>
    spanning depth (some "name") "aliased_import" ts ++
      spanning (depth + 1) (some "name") "dotted_name" path ++
      spanning (depth + 1) (some "alias") "identifier" other
  | [] => spanning depth (some "name") "dotted_name" path

/-- The nodes for the head of a line, without its body. -/
def headNodes (depth : Nat) (ts : List Token) : List (Nat × SyntaxNode) :=
  match ts.map (·.word), ts with
  | "class" :: _, _ :: name :: rest =>
    spanning depth none "class_definition" ts ++
      spanning (depth + 1) (some "name") "identifier" [name] ++
      basesNodes (depth + 1) (rest.dropWhile (·.word ≠ "("))
  | "def" :: _, _ :: name :: _ =>
    spanning depth none "function_definition" ts ++
      spanning (depth + 1) (some "name") "identifier" [name]
  | "async" :: "def" :: _, _ :: _ :: name :: _ =>
    spanning depth none "function_definition" ts ++
      spanning (depth + 1) (some "name") "identifier" [name]
  | "import" :: _, _ :: rest =>
    spanning depth none "import_statement" ts ++
      (Token.separate "," 0 rest).flatMap (importedNodes (depth + 1))
  | "from" :: "__future__" :: _, _ => spanning depth none "future_import_statement" ts
  | "from" :: _, _ :: rest =>
    spanning depth none "import_from_statement" ts ++
      spanning (depth + 1) (some "module_name") "dotted_name" (rest.takeWhile (·.word ≠ "import"))
  | _, _ => spanning depth none "statement" ts

/-- The words with which a line begins that has a body. -/
def headWords : List String :=
  ["class", "def", "async", "if", "elif", "else", "for", "while", "try", "except", "finally",
    "with", "match", "case"]

/-- The nodes for a line: its head, and below it a block for its body, which may begin in the line.
What follows in deeper lines belongs to the block. -/
def lineNodes (ts : List Token) : List (Nat × SyntaxNode) :=
  let depth := 8 * (ts.head?.elim 0 (·.column)) + 1
  let statements := fun depth ts => (Token.separate ";" 0 ts).flatMap (headNodes depth)
  let head := (Token.separate ":" 0 ts).headD []
  match ts.drop head.length with
  | colon :: body =>
    if headWords.contains (ts.head?.elim "" (·.word)) then
      headNodes depth head ++ spanning (depth + 1) (some "body") "block" [colon] ++
        statements (depth + 2) body
    else statements depth ts
  | [] => statements depth ts

/-- The syntax tree of a text. -/
def syntaxTree (source : Bytes) : SyntaxTree :=
  let root := mk none "module" true 0 source.length 0 []
  ⟨(SyntaxNode.ofPreorder ((0, root) :: (Token.lines source).flatMap lineNodes)).getD root, false⟩

end Python

/-- A grammar that knows the structure of Python only. -/
def Grammar.plain : Grammar := fun extension source =>
  if extension = ".py" then Python.syntaxTree source
  else ⟨.mk none "text" true 0 source.length 0 [], false⟩

end Outline
