import Outline.CommandLine.Run
import Outline.Syntax.Listing

/-!
# The program

The outer layer: it copies the files that a command line is about, lets the library carry the
command line out on the copy, writes back what has changed, and prints the outcome.
-/

namespace Outline

/-- A copy of some files, and the locations of the directories that are copied with all below. -/
structure Copy where
  files : FileSystem
  whole : List Location := []

namespace Copy

/-- A name that no file can have; links to nowhere are copied as links to it. -/
def nowhere : Path := ⟨"/\x00"⟩

/-- Note what stands at a location. -/
def set (c : Copy) (l : Location) (e : FileSystem.Entry) : Copy :=
  if l.isEmpty then c else { c with files := c.files.set l e }

/-- Copy what stands at a location, through links; with `deep` also what stands below it, but for
the directories that are never looked into. -/
partial def take (deep : Bool) (c : Copy) (l : Location) : IO Copy := do
  let path := FileSystem.pathOf l
  match ← (IO.FS.realPath path.text).toBaseIO with
  | .error _ => return c
  | .ok real =>
    if real.toString ≠ path.text then
      let target : Path := ⟨real.toString⟩
      take deep (c.set l (.link target)) (target.normalize [])
    else if ← real.isDir then
      let c := c.set l .directory
      if !deep || c.whole.contains l then return c
      let mut c := { c with whole := l :: c.whole }
      for e in ← real.readDir do
        let below := l ++ [e.fileName]
        if !(← e.path.pathExists) then c := c.set below (.link nowhere)
        else if Loader.enters e.fileName || !(← e.path.isDir) then c ← take true c below
      return c
    else match ← (IO.FS.readBinFile real).toBaseIO with
      | .ok content => return c.set l (.file content.toList)
      | .error _ => return c

/-- Copy what a path leads through and to. -/
def takePath (deep : Bool) (c : Copy) (p : Path) : IO Copy := do
  let prefixes := (List.range p.components.length).map p.components.take
  let way := prefixes.map fun cs => cs.foldl Component.follow c.files.current
  let c ← way.foldlM (take false) c
  take deep c (p.normalize c.files.current)

end Copy

/-- The files that an invocation may look at: those of its command with the listings beside them,
its settings, and the store that these name. -/
def Invocation.copyFiles (i : Invocation) (user : User) (current : Location) : IO FileSystem := do
  let path := i.command.path
  let settings := i.config.toList ++ Settings.fileNames.map Path.mk
  let c ← (⟨""⟩ :: settings).foldlM (Copy.takePath false) { files := { current := current } }
  let c ← c.takePath true path
  let c ← c.takePath false ⟨path.text ++ Listing.nameSuffix⟩
  let store? := match Settings.load c.files i.config (FileSystem.pathOf current) with
    | .ok s => s.cacheDir? user.outlinesDir?
    | .error _ => none
  return (← store?.toList.foldlM (Copy.takePath true) c).files

/-- Write back what differs from the files before. -/
def FileSystem.writeBack (before after : FileSystem) : IO Unit := do
  for (l, _) in before.entries.entries do
    if (after.entry? l).isNone then IO.FS.removeFile (pathOf l).text
  for (l, e) in after.entries.entries.mergeSort (fun a b => a.1.length ≤ b.1.length) do
    if before.entry? l ≠ some e then
      match e with
      | .directory => IO.FS.createDirAll (pathOf l).text
      | .file content => IO.FS.writeBinFile (pathOf l).text ⟨content.toArray⟩
      | .link _ => pure ()

/-- Carry out a command line on the files that are there. -/
def runProgram (arguments : List String) : IO UInt32 := do
  let user : User := { home := ← IO.getEnv "HOME", caches := ← IO.getEnv "XDG_CACHE_HOME" }
  let current := (Path.mk (← IO.currentDir).toString).normalize []
  let out ← IO.getStdout
  let ink : Ink := ⟨(← out.isTty) && (← IO.getEnv "NO_COLOR").isNone⟩
  let before ← match Invocation.ofArguments arguments with
    | .ok i => i.copyFiles user current
    | .error _ => pure { current := current }
  let (outcome, after) := runArguments (Grammar.beside before) ink user before arguments
  FileSystem.writeBack before after
  out.putStr outcome.out
  (← IO.getStderr).putStr outcome.err
  return UInt32.ofNat outcome.exit

end Outline

/-- The program. -/
def main (arguments : List String) : IO UInt32 := Outline.runProgram arguments
