import AnalysisCache.Dependencies.Basic
import AnalysisCache.Project.Basic

/-!
# Finding the files to analyse

A file that is configured by name is analysed whatever it is called. In a directory, and in those
below it, the files with one of the configured extensions are analysed. Links are followed, and one
that leads nowhere counts as a file.
-/

namespace AnalysisCache

namespace FileTree

/-- Whether a path ends in one of some extensions, all of which are texts. -/
def hasExtension (extensions : List String) (p : Path) : Bool :=
  match p.extension?.bind Bytes.text? with
  | some e => extensions.contains e
  | none => false

/-- The files with one of some extensions in a directory and those below it. Every level makes the
path of a directory longer, so the limit on paths is also one on levels. -/
def filesBelow (t : FileTree) (extensions : List String) :
    Nat → Path → Except FileError (List Path)
  | 0, _ => .ok []
  | fuel + 1, d => do
    let names ← t.readDirectory d
    let found ← names.mapM fun name =>
      let p := d.join ⟨name⟩
      if t.isDirectory p then filesBelow t extensions fuel p
      else .ok (if hasExtension extensions p then [p] else [])
    return found.flatten

/-- The files that a configured path stands for. -/
def filesOf (t : FileTree) (extensions : List String) (root : Path) :
    Except ProjectError (List Path) :=
  if t.isFile root then .ok [root]
  else if t.isDirectory root then
    match filesBelow t extensions pathLimit root with
    | .ok files => .ok files
    | .error e => .error (.files e)
  else .error (.noAnalysedPath root)

/-- The files that some configured paths stand for, each once, in the order of paths. -/
def discover (t : FileTree) (extensions : List String) (roots : List Path) :
    Except ProjectError (List Path) := do
  let found ← roots.mapM (t.filesOf extensions)
  return sortedPaths found.flatten

end FileTree

namespace Project

/-- The files of the project that are analysed. -/
def files (t : FileTree) (p : Project) : Except ProjectError (List Path) :=
  t.discover p.config.analysis.fileExtensions
    (p.config.analysis.paths.map fun s => p.directory.join (.ofText s))

end Project

end AnalysisCache
