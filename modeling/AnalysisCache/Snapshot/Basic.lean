import AnalysisCache.Dependencies.Basic
import AnalysisCache.Diagnostic.Document
import AnalysisCache.Fingerprint.Document

/-!
# Snapshots

A snapshot is what the cache keeps of a run: when all files were last analysed, under which
fingerprint, the errors of each file, and which files depend on each file.
-/

namespace AnalysisCache

structure Snapshot where
  /-- When all files were last analysed, in seconds since 1970. -/
  lastFull : UInt64
  fingerprint : Fingerprint
  errors : ErrorsByFile
  dependents : DependentGraph
deriving DecidableEq

namespace Snapshot

def toJson (s : Snapshot) : Except Json.EncodeError Json := do
  let fingerprint ← s.fingerprint.toJson
  let errors ← s.errors.toJson
  let dependents ← s.dependents.toJson
  return .object [
    ("last_full_analysis_time", Json.nat s.lastFull.toNat),
    ("meta", fingerprint),
    ("errors", errors),
    ("dependencies", dependents)]

/-- Reads a snapshot, which may have no fields but its own. -/
def ofJson? (v : Json) : Option Snapshot := do
  let r ← v.asClosedRecord? ["last_full_analysis_time", "meta", "errors", "dependencies"]
  let lastFull ← Json.asNatBelow? UInt64.size (← r.field? "last_full_analysis_time" 0)
  let fingerprint ← Fingerprint.ofJson? (← r.field? "meta" 1)
  let errors ← ErrorsByFile.ofJson? (← r.field? "errors" 2)
  let dependents ← DependentGraph.ofJson? (← r.field? "dependencies" 3)
  return { lastFull := UInt64.ofNat lastFull, fingerprint, errors, dependents }

end Snapshot

end AnalysisCache
