import AnalysisCache.Digest.Memo
import AnalysisCache.Settings
import AnalysisCache.Text.Blank

/-!
# Fingerprints

The fingerprint of a run identifies all that bears on its results apart from the analysed files. A
cache is of use only under the fingerprint that it was written under.

* `Fingerprint.same`: two fingerprints agree in every field, whatever the spelling of their paths.
* `Fingerprint.differences`: the names of the fields in which two fingerprints differ.
-/

namespace AnalysisCache

structure Fingerprint where
  cacheVersion : String
  toolVersion : String
  runtimeVersion : String
  configDigests : PathMap Digest
  analysedPaths : List Path
  lockDigests : PathMap Digest
  /-- The names of the loaded extensions, in order. -/
  extensions : List String
  stubDigests : PathMap Digest
  level : String
deriving DecidableEq

namespace Fingerprint

/-- The version of the cache's format. -/
def formatVersion : String := "v1-sift-result-cache"

/-- What counts as the version of a tool that does not say which it is. -/
def unknownVersion : String := "Version unknown"

/-- Whether two maps hold the same digests. -/
def sameDigests (m n : PathMap Digest) : Bool := m.sameBy (fun d e => decide (d = e)) n

/-- Whether two lists hold the same paths in the same order. -/
def samePaths : List Path → List Path → Bool
  | [], [] => true
  | p :: ps, q :: qs => p.same q && samePaths ps qs
  | _, _ => false

/-- Each field's name, and whether it agrees. -/
def agreements (f g : Fingerprint) : List (String × Bool) := [
  ("cache_version", f.cacheVersion = g.cacheVersion),
  ("tool_version", f.toolVersion = g.toolVersion),
  ("runtime_version", f.runtimeVersion = g.runtimeVersion),
  ("config_file_hashes", sameDigests f.configDigests g.configDigests),
  ("analysed_paths", samePaths f.analysedPaths g.analysedPaths),
  ("lock_file_hashes", sameDigests f.lockDigests g.lockDigests),
  ("loaded_extensions", f.extensions = g.extensions),
  ("stub_file_hashes", sameDigests f.stubDigests g.stubDigests),
  ("level", f.level = g.level)]

def same (f g : Fingerprint) : Bool :=
  f.cacheVersion = g.cacheVersion && f.toolVersion = g.toolVersion &&
    f.runtimeVersion = g.runtimeVersion && sameDigests f.configDigests g.configDigests &&
    samePaths f.analysedPaths g.analysedPaths && sameDigests f.lockDigests g.lockDigests &&
    f.extensions = g.extensions && sameDigests f.stubDigests g.stubDigests && f.level = g.level

/-- The names of the fields that differ. -/
def differences (f g : Fingerprint) : List String :=
  (agreements f g).filterMap fun a => if a.2 then none else some a.1

/-- The digests of the files that can be read. The others are left out. -/
def digests (read : Path → Except FileError Bytes) :
    List Path → Memo → PathMap Digest → Memo × PathMap Digest
  | [], m, found => (m, found)
  | p :: rest, m, found =>
    match m.digestFrom read p with
    | (m, .ok d) => digests read rest m (found.insert p d)
    | (m, .error _) => digests read rest m found

/-- The version of a tool, if it says which it is. -/
def versionOf (v : Option String) : String :=
  match v with
  | some v => if isBlank v then unknownVersion else v
  | none => unknownVersion

/-- Names in the order of their bytes, which is that of their characters. -/
def sortedNames (names : List String) : List String :=
  names.mergeSort fun a b => !decide (b < a)

/-- The fingerprint of a run. Of the lock files, those that are missing are not looked at. There may
be files that cannot be read. -/
def ofSettingsFrom (isFile : Path → Bool) (read : Path → Except FileError Bytes) (m : Memo)
    (s : Settings) : Memo × Fingerprint :=
  let (m, configDigests) := digests read s.configFiles m .empty
  let (m, lockDigests) := digests read (s.lockFiles.filter isFile) m .empty
  let (m, stubDigests) := digests read s.stubFiles m .empty
  (m, {
    cacheVersion := formatVersion
    toolVersion := versionOf s.toolVersion
    runtimeVersion := s.runtimeVersion
    configDigests
    analysedPaths := s.analysedPaths
    lockDigests
    extensions := sortedNames s.extensions
    stubDigests
    level := s.level })

def ofSettings (t : FileTree) (m : Memo) (s : Settings) : Memo × Fingerprint :=
  ofSettingsFrom t.isFile t.read m s

end Fingerprint

end AnalysisCache
