import AnalysisCache.Digest.Memo
import AnalysisCache.Snapshot.Basic

/-!
# Deciding what to analyse

A snapshot is used again if it was taken under the fingerprint of the run and all files were
analysed within the last 24 hours. Then a file is analysed again if it is new, if its content has
changed, or if a file that it depends on has changed or is no longer among the analysed files. A new
file may mend or break anything, so it brings in every file that had errors.
-/

namespace AnalysisCache

/-- Why nothing of an earlier run is used. -/
inductive FullReason where
  | debugMode
  | noCache
  | fingerprintChanged
  | stale
deriving DecidableEq

namespace FullReason

def text : FullReason → String
  | .debugMode => "debug mode"
  | .noCache => "no usable cache file"
  | .fingerprintChanged => "fingerprint changed"
  | .stale => "more than 24 hours since last full analysis"

end FullReason

/-- What a run is to do, and what it can use of an earlier run. -/
structure Plan where
  /-- The files to analyse, each once, in this order. -/
  schedule : List Path
  /-- Why all files are to be analysed, if they are. -/
  fullReason : Option FullReason
  lastFull : UInt64
  errors : ErrorsByFile
  dependents : DependentGraph
deriving DecidableEq

namespace Plan

/-- The time after which all files are analysed again, in seconds. -/
def fullInterval : Nat := 24 * 60 * 60

def isFull (p : Plan) : Bool := p.fullReason.isSome

/-- Analysing all files. -/
def full (files : List Path) (reason : FullReason) (now : UInt64) : Plan :=
  ⟨files, some reason, now, .empty, .empty⟩

/-- The paths in their order, each where it comes first. -/
def firsts : List Path → List Path
  | [] => []
  | p :: rest => p :: (firsts rest).filter fun q => !q.same p

/-- Whether a file's content is not the one with the given digest. A file that cannot be read has
changed. -/
def hasChanged (read : Path → Except FileError Bytes) (m : Memo) (f : Path) (d : Digest) :
    Memo × Bool :=
  match m.digestFrom read f with
  | (m, .ok current) => (m, current ≠ d)
  | (m, .error _) => (m, true)

/-- The analysed files that are new or have changed, each changed one followed by the files that
depend on it and still exist. -/
def changes (isFile : Path → Bool) (read : Path → Except FileError Bytes) (g : DependentGraph) :
    List Path → Memo → Memo × List Path
  | [], m => (m, [])
  | f :: rest, m =>
    match g.get? f with
    | none =>
      let (m, more) := changes isFile read g rest m
      (m, f :: more)
    | some d =>
      let (m, changed) := hasChanged read m f d.digest
      let (m, more) := changes isFile read g rest m
      (m, if changed then f :: (d.files.filter isFile ++ more) else more)

/-- The files that depended on a file no longer analysed, and still exist. -/
def orphans (isFile : Path → Bool) (g : DependentGraph) (files : List Path) : List Path :=
  g.entries.flatMap fun e =>
    if files.any fun f => f.same e.1 then [] else e.2.files.filter isFile

/-- The errors of the given files, which are spelled as they are given. -/
def errorsOf (errors : ErrorsByFile) (files : List Path) : ErrorsByFile :=
  files.foldl
    (fun kept f =>
      match errors.get? f with
      | some ds => kept.insert f ds
      | none => kept)
    .empty

/-- Whether some file was not among those of the snapshot. -/
def hasNew (g : DependentGraph) (files : List Path) : Bool := files.any fun f => !g.contains f

/-- Uses a snapshot again. -/
def reuse (isFile : Path → Bool) (read : Path → Except FileError Bytes) (m : Memo) (s : Snapshot)
    (files : List Path) : Memo × Plan :=
  let (m, changed) := changes isFile read s.dependents files m
  let errors := errorsOf s.errors files
  let suspects := if hasNew s.dependents files then errors.keys else []
  (m, {
    schedule := firsts (changed ++ orphans isFile s.dependents files ++ suspects)
    fullReason := none
    lastFull := s.lastFull
    errors
    dependents := DependentGraph.restrict s.dependents files })

/-- Whether all files were last analysed too long ago. A time yet to come is not too long ago. -/
def isStale (lastFull now : UInt64) : Bool := fullInterval ≤ now.toNat - lastFull.toNat

/-- Decides which of the given files to analyse. There may be files that cannot be read. -/
def ofSnapshotFrom (isFile : Path → Bool) (read : Path → Except FileError Bytes) (m : Memo)
    (previous : Option Snapshot) (f : Fingerprint) (files : List Path) (debug : Bool)
    (now : UInt64) : Memo × Plan :=
  if debug then (m, full files .debugMode now)
  else
    match previous with
    | none => (m, full files .noCache now)
    | some s =>
      if !s.fingerprint.same f then (m, full files .fingerprintChanged now)
      else if isStale s.lastFull now then (m, full files .stale now)
      else reuse isFile read m s files

def ofSnapshot (t : FileTree) (m : Memo) (previous : Option Snapshot) (f : Fingerprint)
    (files : List Path) (debug : Bool) (now : UInt64) : Memo × Plan :=
  ofSnapshotFrom t.isFile t.read m previous f files debug now

end Plan

end AnalysisCache
