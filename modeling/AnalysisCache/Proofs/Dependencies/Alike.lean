import AnalysisCache.Proofs.Dependencies.Links

/-!
# Files that open the same in every spelling

There may be files that are there and cannot be read, as one without permission is. What is assumed
of files is then no more than that the spellings of one path open the same file. If that is so of
the paths that dependencies name, the digests that are filed are those that the memo gives at first,
in whichever spelling it is asked.

* `OpenAlike`: the assumption, which ordinary paths in a tree of files meet.
* `DependencyGraph.TurnsInto.digestFrom_eq`: the digest of a key.
* `DependencyGraph.TurnsInto.digest_eq`: the same in any other spelling.
-/

namespace AnalysisCache

open AnalysisCache.Path (same_self same_symm same_trans)

/-- Whether all spellings of a path, of those that are listed, open the same file. -/
structure OpenAlike (isFile : Path → Bool) (read : Path → Except FileError Bytes)
    (ps : List Path) : Prop where
  isFile : ∀ p ∈ ps, ∀ q ∈ ps, p.same q = true → isFile p = true → isFile q = true
  read : ∀ p ∈ ps, ∀ q ∈ ps, p.same q = true →
    ∀ content, read p = .ok content → read q = .ok content

namespace OpenAlike

variable {isFile : Path → Bool} {read : Path → Except FileError Bytes} {ps : List Path}
  (h : OpenAlike isFile read ps)

include h

theorem mono {qs : List Path} (hSub : ∀ q ∈ qs, q ∈ ps) : OpenAlike isFile read qs :=
  ⟨fun p hp q hq => h.isFile p (hSub p hp) q (hSub q hq),
    fun p hp q hq => h.read p (hSub p hp) q (hSub q hq)⟩

theorem exists_error {m : Memo} {p q : Path} (hp : p ∈ ps) (hq : q ∈ ps) (hSame : p.same q = true)
    (hError : ∃ x, (m.digestFrom read p).2 = .error x) :
    ∃ x, (m.digestFrom read q).2 = .error x := by
  obtain ⟨x, hx⟩ := hError
  cases hAnswer : (m.digestFrom read q).2 with
  | error y => exact ⟨y, rfl⟩
  | ok d =>
    have hBack := same_symm hSame
    rw [Memo.digestFrom_of_same hBack (h.read q hq p hp hBack) hAnswer] at hx
    cases hx

end OpenAlike

theorem openAlike_of_plain {t : FileTree} {ps : List Path} (h : ∀ p ∈ ps, t.Plain p) :
    OpenAlike t.isFile t.read ps := by
  refine ⟨fun p _ q hq hSame => h q hq p hSame, fun p _ q hq hSame content hRead => ?_⟩
  have hFile : t.isFile q = true := h q hq p hSame (FileTree.isFile_of_read hRead)
  exact FileTree.read_eq_of_same (FileTree.addressable_of_isFile hFile) (same_symm hSame) hRead

/-- Paths that are spelled in one way each open the same file, whatever that comes to. -/
theorem openAlike_of_eq {isFile : Path → Bool} {read : Path → Except FileError Bytes}
    {ps : List Path} (h : ∀ p ∈ ps, ∀ q ∈ ps, p.same q = true → p = q) :
    OpenAlike isFile read ps := by
  refine ⟨fun p hp q hq hSame hFile => ?_, fun p hp q hq hSame content hRead => ?_⟩
  · rwa [← h p hp q hq hSame]
  · rwa [← h p hp q hq hSame]

/-! ## The paths that graphs name -/

/-- The paths that a graph of dependents names. -/
def DependentGraph.named (g : DependentGraph) : List Path := g.keys ++ g.edges.map (·.1)

namespace DependencyGraph

/-- The paths that a graph of dependencies names. -/
def named (g : DependencyGraph) : List Path := g.keys ++ g.edges.map (·.2)

theorem Inverts.mem_named {isFile : Path → Bool} {m : Memo} {g : DependencyGraph}
    {d : DependentGraph} (h : Inverts isFile m g d) {k : Path} (hk : k ∈ d.keys) :
    k ∈ g.named := by
  rcases h.mem_keys k hk with ⟨e, he, rfl⟩ | ⟨hKey, _⟩
  · exact List.mem_append_right _ (List.mem_map_of_mem he)
  · exact List.mem_append_left _ hKey

end DependencyGraph

/-- Turning dependents round brings up no other paths. -/
theorem DependentGraph.mem_named_of_forward {g : DependentGraph} {p : Path}
    (h : p ∈ g.forward.named) : p ∈ g.named := by
  rcases List.mem_append.1 h with h | h
  · rcases mem_keys_forward h with hIdle | ⟨target, hEdge⟩
    · exact List.mem_append_left _ (mem_idle_iff.1 hIdle).1
    · exact List.mem_append_right _ (List.mem_map_of_mem hEdge)
  · obtain ⟨e, he, rfl⟩ := List.mem_map.1 h
    exact List.mem_append_left _ (mem_keys_of_mem_edges_forward he)

/-! ## Digests of what is named -/

namespace DependencyGraph

section

variable {isFile : Path → Bool} {read : Path → Except FileError Bytes} {m m' : Memo}
  {g : DependencyGraph} {d : DependentGraph}

/-- The digest of each key is what the memo answers for it at first. -/
theorem TurnsInto.digestFrom_eq (h : TurnsInto isFile read m m' g d)
    (hAlike : OpenAlike isFile read g.named) {k : Path} {x : Dependents}
    (hx : (k, x) ∈ d.entries) : (m.digestFrom read k).2 = .ok x.digest := by
  have hKnown : m'.known.get? k = some x.digest :=
    h.inverts.dated k x (PathMap.get?_of_mem hx (same_self k))
  have hk : k ∈ g.named := h.inverts.mem_named (PathMap.mem_keys_iff.2 ⟨x, hx⟩)
  rw [← h.reaches.digestFrom_eq, Memo.digestFrom_of_known hKnown]
  intro p hp hSame
  refine hAlike.read p ?_ k hk hSame
  rcases List.mem_append.1 hp with hp | hp
  · exact List.mem_append_right _ hp
  · exact List.mem_append_left _ (mem_independent_iff.1 hp).1

/-- What the memo answers for a file at first is the digest of the key, however that is spelled. -/
theorem TurnsInto.digest_eq (h : TurnsInto isFile read m m' g d) {ps : List Path}
    (hAlike : OpenAlike isFile read ps) (hNamed : ∀ p ∈ g.named, p ∈ ps) {p q : Path}
    {x : Dependents} (hGet : d.get? p = some x) (hq : q ∈ ps) (hSame : q.same p = true)
    {y : Digest} (hAnswer : (m.digestFrom read q).2 = .ok y) : x.digest = y := by
  obtain ⟨k, hk, hKey⟩ := PathMap.mem_of_get? hGet
  have hDigest := h.digestFrom_eq (hAlike.mono hNamed) hk
  have hkNamed : k ∈ ps := hNamed k (h.inverts.mem_named (PathMap.mem_keys_iff.2 ⟨x, hk⟩))
  have hSpelled : q.same k = true := same_trans hSame (same_symm hKey)
  rw [Memo.digestFrom_of_same hSpelled (hAlike.read q hq k hkNamed hSpelled) hAnswer] at hDigest
  exact (Except.ok.inj hDigest).symm

end

end DependencyGraph

end AnalysisCache
