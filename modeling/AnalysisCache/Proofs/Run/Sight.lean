import AnalysisCache.Proofs.Run.Steps

/-!
# What a run sees of files

A run looks at a file only to take its digest or to see whether it is there. So files that have the
same digest, or fail in the same way, are the same to it. Of the files that it does not look at,
nothing has to be known.

* `Fingerprint.ofSettings_congr`: what the fingerprint depends on.
* `Plan.ofSnapshot_congr`: what a plan depends on.
* `DependencyGraph.dependents_congr`: what turning a graph round depends on.
-/

namespace AnalysisCache

section

variable {t u : FileTree}

namespace Fingerprint

theorem digests_congr {ps : List Path} (h : ∀ p ∈ ps, t.digestOf p = u.digestOf p) (m : Memo)
    (found : PathMap Digest) : digests t.read ps m found = digests u.read ps m found := by
  induction ps generalizing m found with
  | nil => rfl
  | cons p rest ih =>
    rw [List.forall_mem_cons] at h
    rw [digests, digests, Memo.digestFrom_congr h.1]
    split <;> exact ih h.2 _ _

/-- Nothing bears on a fingerprint but its settings and the files that are named there. -/
theorem ofSettings_congr {s : Settings} (h : ∀ p ∈ inputs s, t.digestOf p = u.digestOf p)
    (m : Memo) : ofSettings t m s = ofSettings u m s := by
  simp only [inputs, List.forall_mem_append] at h
  obtain ⟨⟨hConfigs, hLocks⟩, hStubs⟩ := h
  have hFound : ∀ p ∈ s.lockFiles.filter u.isFile, t.digestOf p = u.digestOf p :=
    fun p hp => hLocks p (List.mem_of_mem_filter hp)
  simp only [ofSettings, ofSettingsFrom, digests_congr hConfigs, FileTree.filter_isFile_congr hLocks,
    digests_congr hFound, digests_congr hStubs]

end Fingerprint

namespace DependencyGraph

theorem addEdges_congr {es : List (Path × Path)}
    (h : ∀ e ∈ es, t.digestOf e.2 = u.digestOf e.2) (m : Memo) (g : DependentGraph) :
    addEdges t.read es m g = addEdges u.read es m g := by
  induction es generalizing m g with
  | nil => rfl
  | cons e rest ih =>
    rw [List.forall_mem_cons] at h
    rw [addEdges, addEdges, Memo.digestFrom_congr h.1]
    split
    · exact ih h.2 _ _
    · split
      · rfl
      · exact ih h.2 _ _

theorem addIndependent_congr {ps : List Path} (h : ∀ p ∈ ps, t.digestOf p = u.digestOf p)
    (m : Memo) (g : DependentGraph) :
    addIndependent t.isFile t.read ps m g = addIndependent u.isFile u.read ps m g := by
  induction ps generalizing m g with
  | nil => rfl
  | cons p rest ih =>
    rw [List.forall_mem_cons] at h
    rw [addIndependent, addIndependent, Memo.digestFrom_congr h.1, FileTree.isFile_congr h.1]
    split
    · rfl
    · split
      · split
        · rfl
        · exact ih h.2 _ _
      · exact ih h.2 _ _

/-- Nothing bears on the dependents but the files of the graph. -/
theorem dependents_congr {g : DependencyGraph}
    (hTargets : ∀ e ∈ g.edges, t.digestOf e.2 = u.digestOf e.2)
    (hKeys : ∀ k ∈ g.keys, t.digestOf k = u.digestOf k) (m : Memo) :
    g.dependents t m = g.dependents u m := by
  have hIndependent : ∀ k ∈ g.keys.filter fun f => !g.edges.any fun e => e.2.same f,
      t.digestOf k = u.digestOf k := fun k hk => hKeys k (List.mem_of_mem_filter hk)
  simp only [dependents, dependentsFrom, addEdges_congr hTargets,
    addIndependent_congr hIndependent]

end DependencyGraph

/-! ## Plans -/

namespace Plan

variable (h : ∀ p, t.digestOf p = u.digestOf p)

include h

theorem hasChanged_congr (m : Memo) (f : Path) (d : Digest) :
    hasChanged t.read m f d = hasChanged u.read m f d := by
  rw [hasChanged, hasChanged, Memo.digestFrom_congr (h f)]

theorem changes_congr (g : DependentGraph) (files : List Path) (m : Memo) :
    changes t.isFile t.read g files m = changes u.isFile u.read g files m := by
  induction files generalizing m with
  | nil => rfl
  | cons f rest ih =>
    have hFiles : ∀ ps : List Path, ps.filter t.isFile = ps.filter u.isFile :=
      fun ps => FileTree.filter_isFile_congr fun p _ => h p
    simp only [changes, hasChanged_congr h, ih, hFiles]

theorem reuse_congr (m : Memo) (s : Snapshot) (files : List Path) :
    reuse t.isFile t.read m s files = reuse u.isFile u.read m s files := by
  have hFiles : ∀ ps : List Path, ps.filter t.isFile = ps.filter u.isFile :=
    fun ps => FileTree.filter_isFile_congr fun p _ => h p
  simp only [reuse, changes_congr h, orphans, hFiles]

theorem ofSnapshot_congr (m : Memo) (previous : Option Snapshot) (f : Fingerprint)
    (files : List Path) (debug : Bool) (now : UInt64) :
    ofSnapshot t m previous f files debug now = ofSnapshot u m previous f files debug now := by
  simp only [ofSnapshot, ofSnapshotFrom, reuse_congr h]

end Plan

end

end AnalysisCache
