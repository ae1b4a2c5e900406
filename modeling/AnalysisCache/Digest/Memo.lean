import AnalysisCache.Digest.Basic
import AnalysisCache.Files.Operations
import AnalysisCache.Json.Shape

/-!
# Digests of files

Within a run a file is read once: the digest of its content is remembered by its path, and the
answer stays the same whatever happens to the file. A failure is not remembered.

* `Memo.digest_of_known`: what is remembered is the answer.
* `Memo.digest_error`: a failure leaves the memo as it is.
-/

namespace AnalysisCache

/-- What can go wrong with a cache. -/
inductive CacheError where
  | files (path : Path) (cause : FileError)
  | encoding (cause : Json.EncodeError)
  | internal (reason : String)
deriving DecidableEq

namespace CacheError

def message : CacheError → String
  | .files path cause => "cache I/O error at " ++ path.display ++ ": " ++ cause.message
  | .encoding cause => "serialization error: " ++ cause.message
  | .internal reason => "internal error: " ++ reason

/-- Whether the error is that a file is missing. -/
def isNotFound : CacheError → Bool
  | .files _ .notFound => true
  | _ => false

end CacheError

/-- The digests that a run has taken. -/
structure Memo where
  known : PathMap Digest

namespace Memo

def empty : Memo := ⟨.empty⟩

def size (m : Memo) : Nat := m.known.size

/-- The digest of a file, which is read only if its digest is not known. -/
def digestFrom (read : Path → Except FileError Bytes) (m : Memo) (p : Path) :
    Memo × Except CacheError Digest :=
  match m.known.get? p with
  | some d => (m, .ok d)
  | none =>
    match read p with
    | .error e => (m, .error (.files p e))
    | .ok content =>
      let d := Digest.ofSource content
      (⟨m.known.insert p d⟩, .ok d)

def digest (t : FileTree) (m : Memo) (p : Path) : Memo × Except CacheError Digest :=
  m.digestFrom t.read p

theorem digest_of_known {t : FileTree} {m : Memo} {p : Path} {d : Digest}
    (h : m.known.get? p = some d) : m.digest t p = (m, .ok d) := by
  simp [digest, digestFrom, h]

theorem digest_error {t : FileTree} {m : Memo} {p : Path} {e : CacheError}
    (h : (m.digest t p).2 = .error e) : (m.digest t p).1 = m := by
  simp only [digest, digestFrom] at h ⊢
  split at h
  · simp at h
  · split at h <;> simp_all

end Memo

end AnalysisCache
