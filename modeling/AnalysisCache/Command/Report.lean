import AnalysisCache.Project.Basic
import AnalysisCache.Json.Printer
import AnalysisCache.Plan.Basic

/-!
# Reports

What the commands say about the next run and about the cache, as text or as a JSON document. Paths
are shown as seen from the project.
-/

namespace AnalysisCache

/-- What the next run would do. -/
structure StatusReport where
  /-- Why all files would be analysed, if they would. -/
  fullReason : Option FullReason
  fileCount : Nat
  scheduled : List String
  /-- How many files there are errors of in the cache. -/
  errorFileCount : Nat
  cacheFile : String
deriving DecidableEq

namespace StatusReport

def ofPlan (p : Project) (fileCount : Nat) (plan : Plan) : StatusReport where
  fullReason := plan.fullReason
  fileCount := fileCount
  scheduled := plan.schedule.map p.shown
  errorFileCount := plan.errors.size
  cacheFile := p.shown p.settings.cacheFile

def text (r : StatusReport) : String :=
  match r.fullReason with
  | some reason =>
    "Full analysis of " ++ Digits.text r.fileCount ++ " file(s) (" ++ reason.text ++ ")\n"
  | none =>
    "Partial analysis: " ++ Digits.text r.scheduled.length ++ " of " ++ Digits.text r.fileCount ++
      " file(s) to reanalyse, " ++ Digits.text r.errorFileCount ++
      " file(s) with cached errors\n" ++
      String.join (r.scheduled.map fun f => "  " ++ f ++ "\n")

def toJson (r : StatusReport) : Json :=
  .object [
    ("full_analysis", .bool r.fullReason.isSome),
    ("reason", (r.fullReason.map fun reason => Json.string reason.text).getD .null),
    ("analysed_files", Json.nat r.fileCount),
    ("files_to_analyse", .array (r.scheduled.map .string)),
    ("files_with_cached_errors", Json.nat r.errorFileCount),
    ("cache_file", .string r.cacheFile)]

end StatusReport

/-- What the cache holds. -/
structure DumpReport where
  snapshot : Snapshot
  /-- How long ago all files were last analysed, in seconds. -/
  age : Nat
  analysedPaths : List String
deriving DecidableEq

namespace DumpReport

def ofSnapshot (p : Project) (s : Snapshot) (now : UInt64) : DumpReport where
  snapshot := s
  age := now.toNat - s.lastFull.toNat
  analysedPaths := s.fingerprint.analysedPaths.map p.shown

/-- How many errors the cache holds. -/
def errorCount (r : DumpReport) : Nat := r.snapshot.errors.values.flatten.length

def text (r : DumpReport) : String :=
  let s := r.snapshot
  let f := s.fingerprint
  String.join [
    "last full analysis: ", Digits.text s.lastFull.toNat, " (", Digits.text r.age, "s ago)\n",
    "cache version:      ", f.cacheVersion, "\n",
    "tool version:       ", f.toolVersion, "\n",
    "runtime version:    ", f.runtimeVersion, "\n",
    "level:              ", f.level, "\n",
    "analysed paths:     ", String.intercalate ", " r.analysedPaths, "\n",
    "hashed inputs:      ", Digits.text f.configDigests.size, " config, ",
    Digits.text f.lockDigests.size, " lock, ", Digits.text f.stubDigests.size, " stub\n",
    "extensions:         ", String.intercalate ", " f.extensions, "\n",
    "errors:             ", Digits.text r.errorCount, " in ", Digits.text s.errors.size,
    " file(s)\n",
    "dependency entries: ", Digits.text s.dependents.size, "\n"]

def toJson (r : DumpReport) : Json :=
  let s := r.snapshot
  let f := s.fingerprint
  .object [
    ("last_full_analysis_time", Json.nat s.lastFull.toNat),
    ("age_secs", Json.nat r.age),
    ("cache_version", .string f.cacheVersion),
    ("tool_version", .string f.toolVersion),
    ("runtime_version", .string f.runtimeVersion),
    ("level", .string f.level),
    ("analysed_paths", .array (r.analysedPaths.map .string)),
    ("config_files", Json.nat f.configDigests.size),
    ("lock_files", Json.nat f.lockDigests.size),
    ("stub_files", Json.nat f.stubDigests.size),
    ("loaded_extensions", .array (f.extensions.map .string)),
    ("files_with_errors", Json.nat s.errors.size),
    ("errors", Json.nat r.errorCount),
    ("dependency_entries", Json.nat s.dependents.size)]

end DumpReport

end AnalysisCache
