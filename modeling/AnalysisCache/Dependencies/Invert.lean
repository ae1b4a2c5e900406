import AnalysisCache.Dependencies.Basic
import AnalysisCache.Digest.Memo

/-!
# Turning dependency graphs round

Both directions are total on files: every file on either side of an edge becomes a key. A file that
no edge leads to is a key without edges.

From dependencies to dependents, the digest of every key is taken. A file that another one depends
on must be there to be read, while a file without dependents is left out if it is gone.
-/

namespace AnalysisCache

namespace DependencyGraph

/-- The edges of the graph, each file with one that it depends on. -/
def edges (g : DependencyGraph) : List (Path × Path) :=
  g.entries.flatMap fun e => e.2.map fun target => (e.1, target)

end DependencyGraph

namespace DependentGraph

/-- The edges of the graph, each file with one that it depends on. -/
def edges (g : DependentGraph) : List (Path × Path) :=
  g.entries.flatMap fun e => e.2.files.map fun file => (file, e.1)

/-- Gives each of some files an empty list of dependencies. None of them may have one. -/
def addIdle : List Path → DependencyGraph → Except CacheError DependencyGraph
  | [], g => .ok g
  | f :: rest, g =>
    if g.contains f then
      .error (.internal
        ("'" ++ f.display ++ "' has forward dependencies but was not seen as a dependent"))
    else addIdle rest (g.insert f [])

/-- The dependencies of every file that occurs in the graph. -/
def dependencies (g : DependentGraph) : Except CacheError DependencyGraph :=
  let found := g.edges.foldl (fun m e => m.push e.1 e.2) (.empty : DependencyGraph)
  let idle := g.keys.filter fun f => !g.edges.any fun e => e.1.same f
  addIdle idle found

/-- Adds a file to the dependents of another, of which there must be an entry. -/
def addDependent (g : DependentGraph) (file target : Path) : DependentGraph :=
  match g.get? target with
  | some d => g.insert target { d with files := d.files ++ [file] }
  | none => g

end DependentGraph

namespace DependencyGraph

/-- Adds edges to a graph of dependents, and an entry for each target that has none. -/
def addEdges (read : Path → Except FileError Bytes) : List (Path × Path) → Memo →
    DependentGraph → Memo × Except CacheError DependentGraph
  | [], m, g => (m, .ok g)
  | (file, target) :: rest, m, g =>
    if g.contains target then addEdges read rest m (g.addDependent file target)
    else
      match m.digestFrom read target with
      | (m, .error e) => (m, .error e)
      | (m, .ok d) =>
        addEdges read rest m (DependentGraph.addDependent (g.insert target ⟨d, []⟩) file target)

/-- Adds an entry for each of some files that still exist. None of them may have one. -/
def addIndependent (isFile : Path → Bool) (read : Path → Except FileError Bytes) :
    List Path → Memo → DependentGraph → Memo × Except CacheError DependentGraph
  | [], m, g => (m, .ok g)
  | f :: rest, m, g =>
    if g.contains f then
      (m, .error (.internal ("'" ++ f.display ++
        "' is a dependency target but was not removed from the independent set")))
    else if isFile f then
      match m.digestFrom read f with
      | (m, .error e) => (m, .error e)
      | (m, .ok d) => addIndependent isFile read rest m (g.insert f ⟨d, []⟩)
    else addIndependent isFile read rest m g

/-- The dependents of every file that occurs in the graph, with the files' digests. There may be
files that cannot be read. -/
def dependentsFrom (isFile : Path → Bool) (read : Path → Except FileError Bytes) (m : Memo)
    (g : DependencyGraph) : Memo × Except CacheError DependentGraph :=
  let independent := g.keys.filter fun f => !g.edges.any fun e => e.2.same f
  match addEdges read g.edges m .empty with
  | (m, .error e) => (m, .error e)
  | (m, .ok found) =>
    match addIndependent isFile read independent m found with
    | (m, .error e) => (m, .error e)
    | (m, .ok all) => (m, .ok (all.map fun d => { d with files := sortedPaths d.files }))

def dependents (t : FileTree) (m : Memo) (g : DependencyGraph) :
    Memo × Except CacheError DependentGraph :=
  g.dependentsFrom t.isFile t.read m

end DependencyGraph

end AnalysisCache
