import Outline.Glob.Reader

/-!
# Which files are outlined

A filter excludes paths by globs and may restrict the languages. Globs see a path as it is
spelled. This module provides:

* `GlobError` — a glob that cannot be read, with its `message`;
* `Filter` with `excludes` and `allows`; and
* `Filter.ofTexts` — a filter from written globs, or the first bad one.
-/

namespace Outline

/-- A written glob and what is wrong with it. -/
structure GlobError where
  glob : String
  fault : Glob.Fault
  deriving Repr, DecidableEq

/-- What is wrong with a glob, in words. -/
def GlobError.message (e : GlobError) : String :=
  "error parsing glob '" ++ e.glob ++ "': " ++ e.fault.message

/-- Globs of excluded paths and the allowed languages; no languages means all of them. -/
structure Filter where
  excluded : List Glob := []
  languages : List String := []

namespace Filter

/-- The filter of written globs and names of languages. -/
def ofTexts (excluded languages : List String) : Except GlobError Filter := do
  let globs ← excluded.mapM fun g => (Glob.ofText g).mapError (GlobError.mk g)
  return ⟨globs, languages⟩

/-- Whether a path, as it is spelled, is excluded. -/
def excludes (f : Filter) (path : String) : Bool :=
  f.excluded.any (·.accepts path)

/-- Whether a language is allowed. -/
def allows (f : Filter) (language : String) : Bool :=
  f.languages.isEmpty || f.languages.contains language

end Filter

end Outline
