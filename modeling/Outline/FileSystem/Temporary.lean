import Outline.FileSystem.Basic

/-!
# Files that are put in place whole

A file that is written in its place can be seen half written. So it is made and filled under another
name first, and then renamed. This module provides:

* `FileSystem.renameFile`; and
* `FileSystem.replaceThrough` — put a file in place by way of a temporary one.
-/

namespace Outline.FileSystem

/-- Give a file or a link another path. What the path names gives way, unless it is a directory.
Directories are not renamed. -/
def renameFile (fs : FileSystem) (p q : Path) : Except IoFault FileSystem := do
  match ← fs.place? p, ← fs.place? q with
  | some l, some m =>
    match fs.entry? l with
    | none => .error .notFound
    | some .directory => .error .isADirectory
    | some e =>
      if fs.isDirAt m then .error .isADirectory
      else if endsInSlash p || endsInSlash q then .error .notADirectory
      else return { fs with entries := (fs.entries.erase l).insert m e }
  | _, _ => .error .isADirectory

/-- Put a new file in place of what a path names. It is made and filled under a temporary path where
nothing is, and then renamed. When that fails the temporary file goes too, and all is as before. -/
def replaceThrough (fs : FileSystem) (temporary p : Path) (content : List UInt8) :
    Except IoFault FileSystem := do
  let made ← fs.make temporary (.file [])
  let filled ← made.write temporary content
  filled.renameFile temporary p

end Outline.FileSystem
