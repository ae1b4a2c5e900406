import AnalysisCache.Json.Shape

/-!
# Dependency graphs

A run reports for each file what it depends on. The cache keeps the graph the other way round: for
each file the digest of its content and the files that depend on it, which are the files to analyse
again when the content changes.
-/

namespace AnalysisCache

/-- The files that each file depends on, in the order in which they were reported. -/
abbrev DependencyGraph := PathMap (List Path)

namespace DependencyGraph

/-- The graph with the given entries. Of those with one file the last counts, as it is spelled
there. -/
def ofEntries (entries : List (Path × List Path)) : DependencyGraph :=
  entries.foldl (fun g e => g.replace e.1 e.2) .empty

end DependencyGraph

/-- What the cache keeps about a file. -/
structure Dependents where
  digest : Digest
  files : List Path
deriving DecidableEq

/-- The files that depend on each file. -/
abbrev DependentGraph := PathMap Dependents

namespace Dependents

def toJson (d : Dependents) : Except Json.EncodeError Json := do
  let files ← Json.ofPaths d.files
  return .object [("file_hash", Json.ofDigest d.digest), ("dependent_files", files)]

def ofJson? (v : Json) : Option Dependents := do
  let r ← v.asRecord? 2
  let digest ← (← r.field? "file_hash" 0).asDigest?
  let files ← Json.asList? Json.asPath? (← r.field? "dependent_files" 1)
  return ⟨digest, files⟩

end Dependents

/-- Whether paths stand in strictly increasing order. -/
def isIncreasing : List Path → Bool
  | p :: q :: rest => compare p q == .lt && isIncreasing (q :: rest)
  | _ => true

/-- The paths in increasing order, of each the spelling that comes first. -/
def sortedPaths (ps : List Path) : List Path :=
  (PathMap.ofList (ps.map fun p => (p, ()))).keys

namespace DependentGraph

def toJson (g : DependentGraph) : Except Json.EncodeError Json := Json.ofPathMap Dependents.toJson g

def ofJson? (v : Json) : Option DependentGraph := Json.asPathMap? Dependents.ofJson? v

/-- Whether the dependents of each file stand in strictly increasing order. -/
def isNormalized (g : DependentGraph) : Bool := g.values.all fun d => isIncreasing d.files

/-- Keeps the keys that are among some files. The lists of dependents stay as they are. -/
def restrict (g : DependentGraph) (files : List Path) : DependentGraph :=
  g.filterKeys fun f => files.any fun k => k.same f

end DependentGraph

end AnalysisCache
