import AnalysisCache.Proofs.Dependencies.Inverse

/-!
# There and back

A graph of dependents that dependencies have been turned into comes back unchanged, to the spelling
of its keys and the order of its lists, if it is turned round and back while the files stay as they
are.

* `DependencyGraph.Inverts.settled`: what dependencies are turned into is settled.
* `DependentGraph.dependents_forward`: what is settled is given back.
-/

namespace AnalysisCache

open AnalysisCache.Path (same_self same_symm)
open PathMap (valuesAt)

namespace DependentGraph

/-! ## Graphs that are settled -/

/-- Whether a graph is as it would be made of its edges in some files: it lists the dependents of
each file in order, every file is spelled in one way, every file that is there is a key, and its
digests are those of the files. -/
structure Settled (t : FileTree) (g : DependentGraph) : Prop where
  sorted : ∀ p, (g.filesAt p).Pairwise fun q r => compare q r = .lt
  spelled : ∀ e ∈ g.edges, ∀ e' ∈ g.edges, e.1.same e'.1 = true → e.1 = e'.1
  spelled_key : ∀ e ∈ g.edges, ∀ k ∈ g.keys, g.filesAt k = [] → e.1.same k = true → e.1 = k
  contains : ∀ e ∈ g.edges, t.isFile e.1 = true → g.contains e.1 = true
  digest : ∀ k d, (k, d) ∈ g.entries → t.digest? k = some d.digest

theorem mem_edges_iff {g : DependentGraph} {file target : Path} :
    (file, target) ∈ g.edges ↔ target ∈ g.keys ∧ file ∈ g.filesAt target := by
  rw [mem_edges]
  constructor
  · rintro ⟨d, he, hFile⟩
    rw [filesAt_of_get? (PathMap.get?_of_mem he (same_self target))]
    exact ⟨PathMap.mem_keys_iff.2 ⟨d, he⟩, hFile⟩
  · rintro ⟨hKey, hFile⟩
    obtain ⟨d, he⟩ := PathMap.mem_keys_iff.1 hKey
    rw [filesAt_of_get? (PathMap.get?_of_mem he (same_self target))] at hFile
    exact ⟨d, he, hFile⟩

end DependentGraph

open FileTree (Plain)
open DependentGraph (Settled filesAt mem_edges_iff)

/-- What dependencies are turned into is settled for as long as the files that they name stay as they
are. -/
theorem DependencyGraph.Inverts.settled {t u : FileTree} {m : Memo} {g : DependencyGraph}
    {d : DependentGraph} (h : Inverts t.isFile m g d) (hSpells : Spells t.isFile g d)
    (hm : m.Current t) (hPlain : ∀ p ∈ g.named, t.Plain p) (hStill : ∀ p ∈ g.named, u.digest? p = t.digest? p) :
    d.Settled u := by
  have hSource : ∀ e ∈ d.edges, e.1 ∈ g.keys := by
    rintro ⟨file, target⟩ he
    obtain ⟨⟨x, y⟩, hEdge, _, rfl⟩ := h.mem_filesAt target file (mem_edges_iff.1 he).2
    obtain ⟨targets, hEntry, _⟩ := DependencyGraph.mem_edges.1 hEdge
    exact PathMap.mem_keys_iff.2 ⟨targets, hEntry⟩
  refine ⟨hSpells.sorted, fun e he e' he' hSame => ?_, fun e he k hk hNil hSame => ?_,
    fun e he hFile => ?_, fun k x hx => ?_⟩
  · exact PathMap.eq_of_mem_keys (hSource e he) (hSource e' he') hSame
  · rcases hSpells.mem_keys k hk with ⟨e', he', rfl⟩ | ⟨hKey, _, _⟩
    · obtain ⟨q, hq, _⟩ := h.among_filesAt e' he' e'.2 (same_self e'.2)
      rw [hNil] at hq
      cases hq
    · exact PathMap.eq_of_mem_keys (hSource e he) hKey hSame
  · have hKey : e.1 ∈ g.keys := hSource e he
    have hThere : t.isFile e.1 = true := by
      rw [← FileTree.digest?_isSome_iff] at hFile ⊢
      rwa [hStill e.1 (List.mem_append_left _ hKey)] at hFile
    exact (h.contains_iff e.1).2 (.inr (Path.among_of_mem (List.mem_filter.2 ⟨hKey, hThere⟩)))
  · have hk : k ∈ g.named := h.mem_named (PathMap.mem_keys_iff.2 ⟨x, hx⟩)
    have hKnown := h.dated k x (PathMap.get?_of_mem hx (same_self k))
    rw [hStill k hk]
    exact hm.digest?_of_plain (hPlain k hk) hKnown

/-- The digest of a key is that of the file, which a current memo knows in one of its spellings. -/
theorem DependencyGraph.Inverts.digest_eq {t : FileTree} {m : Memo} {g : DependencyGraph}
    {d : DependentGraph} (h : Inverts t.isFile m g d) (hm : m.Current t) {p : Path} {x : Dependents}
    (hGet : d.get? p = some x) {y : Digest} (hDigest : t.digest? p = some y) : x.digest = y := by
  have hTaken := hm.digest? (FileTree.addressable_of_isFile (FileTree.isFile_of_digest? hDigest))
    (h.dated p x hGet)
  rw [hDigest] at hTaken
  exact (Option.some.inj hTaken).symm

namespace DependentGraph

/-! ## The way back -/

section Settled

variable {t : FileTree} {g : DependentGraph} (h : g.Settled t)

include h

theorem Settled.isFile_of_mem_keys {k : Path} (hk : k ∈ g.keys) : t.isFile k = true := by
  obtain ⟨d, he⟩ := PathMap.mem_keys_iff.1 hk
  exact FileTree.isFile_of_digest? (h.digest k d he)

/-- A settled graph has the same edges turned round. -/
theorem Settled.mem_edges_forward {e : Path × Path} : e ∈ g.forward.edges ↔ e ∈ g.edges := by
  have hForward : ∀ file target, (file, target) ∈ g.forward.edges → (file, target) ∈ g.edges := by
    intro file target he
    obtain ⟨targets, hEntry, hTarget⟩ := DependencyGraph.mem_edges.1 he
    have hGet := PathMap.get?_of_mem hEntry (same_self file)
    obtain ⟨rfl, _⟩ := get?_forward.1 hGet
    obtain ⟨file', hEdge, hSame⟩ := PathMap.mem_valuesAt.1 hTarget
    rcases mem_keys_forward (PathMap.mem_keys_iff.2 ⟨_, hEntry⟩) with hIdle | ⟨target', hEdge'⟩
    · rw [(mem_idle_iff.1 hIdle).2] at hTarget
      cases hTarget
    · have hEq : file' = file := h.spelled _ hEdge _ hEdge' hSame
      rwa [← hEq]
  obtain ⟨file, target⟩ := e
  refine ⟨hForward file target, fun he => ?_⟩
  have hTarget : target ∈ valuesAt file g.edges :=
    PathMap.mem_valuesAt.2 ⟨file, he, same_self file⟩
  have hGet : g.forward.get? file = some (valuesAt file g.edges) :=
    get?_forward.2 ⟨rfl, .inl (List.ne_nil_of_mem hTarget)⟩
  obtain ⟨file', hEntry, hSame⟩ := PathMap.mem_of_get? hGet
  have hEdge : (file', target) ∈ g.forward.edges := DependencyGraph.mem_edges.2 ⟨_, hEntry, hTarget⟩
  have hEq : file' = file := h.spelled _ (hForward _ _ hEdge) _ he hSame
  rwa [← hEq]

/-- A key that nothing depends on is one of the dependencies in the same spelling. -/
theorem Settled.mem_keys_forward_of_nil {k : Path} (hk : k ∈ g.keys) (hNil : g.filesAt k = []) :
    k ∈ g.forward.keys := by
  have hGet : g.forward.get? k = some (valuesAt k g.edges) :=
    get?_forward.2 ⟨rfl, .inr (Path.among_of_mem hk)⟩
  obtain ⟨k', hEntry, hSame⟩ := PathMap.mem_of_get? hGet
  have hk' : k' ∈ g.forward.keys := PathMap.mem_keys_iff.2 ⟨_, hEntry⟩
  have hEq : k' = k := by
    rcases mem_keys_forward hk' with hIdle | ⟨target, hEdge⟩
    · exact PathMap.eq_of_mem_keys (mem_idle_iff.1 hIdle).1 hk hSame
    · exact h.spelled_key _ hEdge k hk hNil hSame
  rwa [← hEq]

variable {m : Memo} {g' : DependentGraph}

theorem Settled.mem_keys_iff (hInverts : DependencyGraph.Inverts t.isFile m g.forward g')
    (hSpells : DependencyGraph.Spells t.isFile g.forward g') (k : Path) :
    k ∈ g.keys ↔ k ∈ g'.keys := by
  have hBack : ∀ k ∈ g'.keys, k ∈ g.keys := by
    intro k hk
    rcases hSpells.mem_keys k hk with ⟨⟨file, target⟩, he, rfl⟩ | ⟨hKey, hFile, hNone⟩
    · exact (mem_edges_iff.1 (h.mem_edges_forward.1 he)).1
    · rcases mem_keys_forward hKey with hIdle | ⟨target, hEdge⟩
      · exact (mem_idle_iff.1 hIdle).1
      · obtain ⟨k', hk', hSame⟩ := PathMap.contains_iff.1 (h.contains _ hEdge hFile)
        -- Nothing depends on the file, in whichever spelling it is a key.
        have hNil : g.filesAt k' = [] := by
          refine List.eq_nil_iff_forall_not_mem.2 fun q hq => hNone ⟨(q, k'), ?_, hSame⟩
          exact h.mem_edges_forward.2 (mem_edges_iff.2 ⟨hk', hq⟩)
        have hEq : k = k' := h.spelled_key _ hEdge k' hk' hNil (same_symm hSame)
        rwa [hEq]
  refine ⟨fun hk => ?_, hBack k⟩
  have hContains : g'.contains k = true := by
    rw [hInverts.contains_iff]
    cases hFiles : g.filesAt k with
    | nil =>
      refine .inr (Path.among_of_mem (List.mem_filter.2 ⟨?_, h.isFile_of_mem_keys hk⟩))
      exact h.mem_keys_forward_of_nil hk hFiles
    | cons q rest =>
      refine .inl ⟨(q, k), h.mem_edges_forward.2 (mem_edges_iff.2 ⟨hk, ?_⟩), same_self k⟩
      rw [hFiles]
      exact List.mem_cons_self
  obtain ⟨k', hk', hSame⟩ := PathMap.contains_iff.1 hContains
  have hEq : k' = k := PathMap.eq_of_mem_keys (hBack k' hk') hk hSame
  rwa [← hEq]

theorem Settled.filesAt_eq (hInverts : DependencyGraph.Inverts t.isFile m g.forward g')
    (hSpells : DependencyGraph.Spells t.isFile g.forward g') {k : Path} (hk : k ∈ g.keys) :
    g.filesAt k = g'.filesAt k := by
  have hBack : ∀ q ∈ g'.filesAt k, q ∈ g.filesAt k := by
    intro q hq
    obtain ⟨⟨file, target⟩, he, hSame, rfl⟩ := hInverts.mem_filesAt k q hq
    obtain ⟨hTarget, hFile⟩ := mem_edges_iff.1 (h.mem_edges_forward.1 he)
    have hEq : target = k := PathMap.eq_of_mem_keys hTarget hk hSame
    rwa [hEq] at hFile
  refine PathMap.eq_of_pairwise_lt (h.sorted k) (hSpells.sorted k) fun q => ⟨fun hq => ?_, hBack q⟩
  have hEdge : (q, k) ∈ g.edges := mem_edges_iff.2 ⟨hk, hq⟩
  obtain ⟨q', hq', hSame⟩ :=
    hInverts.among_filesAt (q, k) (h.mem_edges_forward.2 hEdge) k (same_self k)
  have hEq : q' = q := h.spelled _ (mem_edges_iff.2 ⟨hk, hBack q' hq'⟩) _ hEdge hSame
  rwa [← hEq]

/-- What is settled is given back when it is turned round and back. -/
theorem Settled.dependents_forward (hm : m.Current t) :
    ∃ m', g.forward.dependents t m = (m', .ok g) := by
  obtain ⟨m', g', hOk⟩ := DependencyGraph.exists_dependents
    (fun e he => h.isFile_of_mem_keys (mem_keys_of_mem_edges_forward he)) m
  obtain ⟨hGrows, hInverts⟩ := DependencyGraph.dependents_spec hOk
  have hSpells := DependencyGraph.spells_dependents hOk
  have hKeys := h.mem_keys_iff hInverts hSpells
  have hEq : g = g' := by
    refine PathMap.eq_of_get? hKeys fun k hk => ?_
    obtain ⟨d, he⟩ := PathMap.mem_keys_iff.1 hk
    obtain ⟨d', he'⟩ := PathMap.mem_keys_iff.1 ((hKeys k).1 hk)
    have hGet := PathMap.get?_of_mem he (same_self k)
    have hGet' := PathMap.get?_of_mem he' (same_self k)
    have hFiles : d.files = d'.files := by
      rw [← filesAt_of_get? hGet, ← filesAt_of_get? hGet']
      exact h.filesAt_eq hInverts hSpells hk
    have hDigest : d.digest = d'.digest :=
      (hInverts.digest_eq (hGrows.current hm) hGet' (h.digest k d he)).symm
    rw [hGet, hGet']
    cases d
    cases d'
    cases hFiles
    cases hDigest
    rfl
  exact ⟨m', by rw [hOk, hEq]⟩

end Settled

end DependentGraph

end AnalysisCache
