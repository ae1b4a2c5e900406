import AnalysisCache.Dependencies.Invert
import AnalysisCache.Json.Parser
import AnalysisCache.Json.Printer
import AnalysisCache.Snapshot.Basic

/-!
# The cache file

A snapshot is kept as an indented JSON document, followed by a line feed. Loading never fails: what
cannot be read as a snapshot is no snapshot. A JSON document of another shape is removed, except for
`null`, which says that there is none. Saving reports every failure.
-/

namespace AnalysisCache

namespace Snapshot

/-- The text of the cache file. -/
def text (s : Snapshot) : Except Json.EncodeError String := do
  return Json.text .indented (← s.toJson) ++ "\n"

/-- The JSON document in a file, if the path names a file that holds one. -/
def document? (t : FileTree) (p : Path) : Option Json :=
  if t.isFile p then
    match t.readText p with
    | .ok s => Json.parse? s
    | .error _ => none
  else none

/-- The snapshot in a file, and the files after a document of another shape is removed. -/
def load (t : FileTree) (p : Path) : FileTree × Option Snapshot :=
  match document? t p with
  | none => (t, none)
  | some .null => (t, none)
  | some v =>
    match ofJson? v with
    | some s => (t, some s)
    | none => ((t.removeFile p).1, none)

/-- Makes the directory that a file is to be in. -/
def makeRoom (t : FileTree) (p : Path) : FileTree × Except CacheError Unit :=
  match p.parent? with
  | none => (t, .ok ())
  | some d =>
    if d.bytes.isEmpty then (t, .ok ())
    else
      match t.makeDirectories d with
      | (t, .ok ()) => (t, .ok ())
      | (t, .error e) => (t, .error (.files d e))

/-- Writes the cache file, all of it or nothing. -/
def save (t : FileTree) (p : Path) (s : Snapshot) : FileTree × Except CacheError Unit :=
  match makeRoom t p with
  | (t, .error e) => (t, .error e)
  | (t, .ok ()) =>
    match s.text with
    | .error e => (t, .error (.encoding e))
    | .ok text =>
      match t.write p (Bytes.ofText text) with
      | (t, .ok ()) => (t, .ok ())
      | (t, .error e) => (t, .error (.files p e))

/-- What a run leaves to be kept. -/
structure Draft where
  lastFull : UInt64
  errors : ErrorsByFile
  dependencies : DependencyGraph
deriving DecidableEq

/-- Turns the dependencies round, which takes the digests of files, and saves the snapshot. There may
be files that cannot be read. -/
def saveDraftFrom (isFile : Path → Bool) (read : Path → Except FileError Bytes) (t : FileTree)
    (m : Memo) (p : Path) (f : Fingerprint) (d : Draft) :
    FileTree × Memo × Except CacheError Unit :=
  match d.dependencies.dependentsFrom isFile read m with
  | (m, .error e) => (t, m, .error e)
  | (m, .ok dependents) =>
    let (t, outcome) := save t p ⟨d.lastFull, f, d.errors, dependents⟩
    (t, m, outcome)

def saveDraft (t : FileTree) (m : Memo) (p : Path) (f : Fingerprint) (d : Draft) :
    FileTree × Memo × Except CacheError Unit :=
  saveDraftFrom t.isFile t.read t m p f d

/-- Removes the cache file if it is there, and returns the directory that it is in. -/
def clear (t : FileTree) (p : Path) : FileTree × Except CacheError Path :=
  let directory := p.parent?.getD ⟨[]⟩
  if t.isFile p then
    match t.removeFile p with
    | (t, .ok ()) => (t, .ok directory)
    | (t, .error e) => (t, .error (.files p e))
  else (t, .ok directory)

end Snapshot

end AnalysisCache
