import AnalysisCache.Fingerprint.Basic
import AnalysisCache.Json.Shape

/-!
# Fingerprints in JSON
-/

namespace AnalysisCache

namespace Fingerprint

def digestsToJson (m : PathMap Digest) : Except Json.EncodeError Json :=
  Json.ofPathMap (fun d => .ok (Json.ofDigest d)) m

def toJson (f : Fingerprint) : Except Json.EncodeError Json := do
  let configDigests ← digestsToJson f.configDigests
  let analysedPaths ← Json.ofPaths f.analysedPaths
  let lockDigests ← digestsToJson f.lockDigests
  let stubDigests ← digestsToJson f.stubDigests
  return .object [
    ("cache_version", .string f.cacheVersion),
    ("tool_version", .string f.toolVersion),
    ("runtime_version", .string f.runtimeVersion),
    ("config_file_hashes", configDigests),
    ("analysed_paths", analysedPaths),
    ("lock_file_hashes", lockDigests),
    ("loaded_extensions", .array (f.extensions.map .string)),
    ("stub_file_hashes", stubDigests),
    ("level", .string f.level)]

def ofJson? (v : Json) : Option Fingerprint := do
  let r ← v.asRecord? 9
  let cacheVersion ← (← r.field? "cache_version" 0).asText?
  let toolVersion ← (← r.field? "tool_version" 1).asText?
  let runtimeVersion ← (← r.field? "runtime_version" 2).asText?
  let configDigests ← Json.asPathMap? Json.asDigest? (← r.field? "config_file_hashes" 3)
  let analysedPaths ← Json.asList? Json.asPath? (← r.field? "analysed_paths" 4)
  let lockDigests ← Json.asPathMap? Json.asDigest? (← r.field? "lock_file_hashes" 5)
  let extensions ← Json.asList? Json.asText? (← r.field? "loaded_extensions" 6)
  let stubDigests ← Json.asPathMap? Json.asDigest? (← r.field? "stub_file_hashes" 7)
  let level ← (← r.field? "level" 8).asText?
  return ⟨cacheVersion, toolVersion, runtimeVersion, configDigests, analysedPaths, lockDigests,
    extensions, stubDigests, level⟩

end Fingerprint

end AnalysisCache
