import AnalysisCache.Plan.Merge

/-!
# Runs

A run restores a plan from the cache, the analysis works through it, and the run processes what the
analysis reports. Within a run digests are taken once, and so is the fingerprint.
-/

namespace AnalysisCache

structure Run where
  settings : Settings
  memo : Memo
  /-- The fingerprint, once it is taken. -/
  taken : Option Fingerprint

namespace Run

def start (s : Settings) : Run := ⟨s, .empty, none⟩

def cacheFile (r : Run) : Path := r.settings.cacheFile

/-- The fingerprint of the run, taken when it is first asked for. There may be files that cannot be
read. -/
def fingerprintFrom (isFile : Path → Bool) (read : Path → Except FileError Bytes) (r : Run) :
    Run × Fingerprint :=
  match r.taken with
  | some f => (r, f)
  | none =>
    let (m, f) := Fingerprint.ofSettingsFrom isFile read r.memo r.settings
    ({ r with memo := m, taken := some f }, f)

def fingerprint (t : FileTree) (r : Run) : Run × Fingerprint := r.fingerprintFrom t.isFile t.read

/-- Decides which files to analyse. In debug mode the cache is not even looked at. -/
def restore (t : FileTree) (r : Run) (files : List Path) (debug : Bool) (now : UInt64) :
    FileTree × Run × Plan :=
  let (t, previous) := if debug then (t, none) else Snapshot.load t r.cacheFile
  let (r, f) := r.fingerprint t
  let (m, plan) := Plan.ofSnapshot t r.memo previous f files debug now
  (t, { r with memo := m }, plan)

/-- Merges what the analysis reports with what the plan carries over, and keeps the whole if it is
worth it. There may be files that cannot be read. -/
def processFrom (isFile : Path → Bool) (read : Path → Except FileError Bytes) (t : FileTree)
    (r : Run) (fresh : Report) (plan : Plan) (save : Bool) :
    FileTree × Run × Except CacheError Report :=
  match plan.merge fresh save with
  | .error e => (t, r, .error e)
  | .ok ⟨report, .error _⟩ => (t, r, .ok report)
  | .ok ⟨report, .ok draft⟩ =>
    let (r, f) := r.fingerprintFrom isFile read
    let (t, m, outcome) := Snapshot.saveDraftFrom isFile read t r.memo r.cacheFile f draft
    (t, { r with memo := m }, outcome.map fun _ => report)

def process (t : FileTree) (r : Run) (fresh : Report) (plan : Plan) (save : Bool) :
    FileTree × Run × Except CacheError Report :=
  r.processFrom t.isFile t.read t fresh plan save

/-- Removes the cache file, and returns the directory that it is in. -/
def clear (t : FileTree) (r : Run) : FileTree × Except CacheError Path :=
  Snapshot.clear t r.cacheFile

/-- The snapshot in the cache, whatever fingerprint it was taken under. -/
def load (t : FileTree) (r : Run) : FileTree × Option Snapshot := Snapshot.load t r.cacheFile

end Run

end AnalysisCache
