import Outline.Path.Basic
import Outline.Syntax.Language.Go
import Outline.Syntax.Language.Java
import Outline.Syntax.Language.JavaScript
import Outline.Syntax.Language.Python
import Outline.Syntax.Language.Rust
import Outline.Syntax.Language.TypeScript
import Outline.Syntax.Walk

/-!
# Languages by file extension

The extension of a file decides its language. Source text is parsed by a `Grammar`, which the
library takes as given: it depends on the extension and on the text, and on nothing else.
-/

namespace Outline

/-- Makes a syntax tree of a source text in a file with the given extension. -/
abbrev Grammar := (extension : String) → Bytes → SyntaxTree

namespace Language

/-- The extensions in order, each with its language. -/
def byExtension : List (String × Language) := [
  (".cjs", JavaScript.language), (".cts", TypeScript.language), (".go", Go.language),
  (".java", Java.language), (".js", JavaScript.language), (".jsx", JavaScript.language),
  (".mjs", JavaScript.language), (".mts", TypeScript.language), (".py", Python.language),
  (".rs", Rust.language), (".ts", TypeScript.language), (".tsx", TypeScript.language)]

/-- The extensions that belong to a language. -/
def extensions : List String :=
  byExtension.map (·.1)

/-- The language of an extension, which is given with its dot. -/
def ofExtension? (extension : String) : Option Language :=
  (byExtension.find? (·.1 == extension)).map (·.2)

/-- The language of a file. -/
def ofPath? (p : Path) : Option Language :=
  p.extension?.bind fun e => ofExtension? ("." ++ e)

end Language

/-- The declarations of a file, if its extension belongs to a language. -/
def listingOf? (g : Grammar) (p : Path) (source : Bytes) : Option (List Entry) := do
  let extension ← p.extension?
  let l ← Language.ofExtension? ("." ++ extension)
  return l.listing (p.fileName?.getD "") source (g ("." ++ extension) source)

end Outline
