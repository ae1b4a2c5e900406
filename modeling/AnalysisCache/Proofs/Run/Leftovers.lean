import AnalysisCache.Proofs.Dependencies.Outcome
import AnalysisCache.Proofs.Run.Dependencies

/-!
# Nothing left in the cache keeps a run from being saved

A snapshot may tell of files that are gone or that are no longer analysed, as keys as well as
dependents. All that a partial run carries over are edges that lead to analysed files, so what it
depends on to be saved are files of its own: the analysed ones, and those that it has been told of.
If they can be read, the merged dependencies can be turned round, and saving fails only if there is
a path that is no text or no room for the cache file.

* `Plan.target_mergedDependencies`: where merged edges lead.
* `Plan.key_mergedDependencies`: which files have merged dependencies.
* `Run.process_fails_in_save`: the dependents of a partial run, and why it may still fail.
-/

namespace AnalysisCache

open AnalysisCache.Path (same_self same_symm)

/-! ## Failures of saving -/

theorem eq_error_of_map {α β ε : Type} {outcome : Except ε α} {f : α → β} {x : ε}
    (h : outcome.map f = .error x) : outcome = .error x := by
  cases outcome with
  | ok _ => cases h
  | error e =>
    cases h
    rfl

theorem Snapshot.makeRoom_eq_error {t : FileTree} {p : Path} {x : CacheError}
    (h : (makeRoom t p).2 = .error x) : ∃ d cause, p.parent? = some d ∧ x = .files d cause := by
  rw [makeRoom] at h
  cases hParent : p.parent? with
  | none =>
    rw [hParent] at h
    cases h
  | some d =>
    rw [hParent] at h
    dsimp only at h
    split at h
    · cases h
    · split at h
      · cases h
      · cases h
        exact ⟨d, _, rfl, rfl⟩

/-- Saving fails on encoding, or on writing the file or making its directory. -/
theorem Snapshot.save_eq_error {t : FileTree} {p : Path} {s : Snapshot} {x : CacheError}
    (h : (save t p s).2 = .error x) :
    (∃ e, x = .encoding e) ∨ ∃ q cause, x = .files q cause ∧ (q = p ∨ p.parent? = some q) := by
  rw [save] at h
  split at h
  · rename_i u y hRoom
    cases h
    obtain ⟨d, cause, hParent, hEq⟩ := makeRoom_eq_error (congrArg Prod.snd hRoom)
    exact .inr ⟨d, cause, hEq, .inr hParent⟩
  · split at h
    · cases h
      exact .inl ⟨_, rfl⟩
    · split at h
      · cases h
      · cases h
        exact .inr ⟨p, _, rfl, .inl rfl⟩

namespace Plan

/-! ## What is merged of a snapshot -/

/-- Merged edges lead to what has been reported and to keys that are carried over. -/
theorem target_mergedDependencies {p : Plan} (h : p.isFull = false) {g : DependencyGraph}
    {e : Path × Path} (he : e ∈ (p.mergedDependencies g).edges) :
    (∃ e' ∈ g.edges, e'.2 = e.2) ∨ e.2 ∈ p.dependents.keys := by
  obtain ⟨file, target⟩ := e
  obtain ⟨targets, hEntry, hTarget⟩ := DependencyGraph.mem_edges.1 he
  have hGet := PathMap.get?_of_mem hEntry (same_self file)
  rw [mergedDependencies_eq h, get?_replaceAll] at hGet
  split at hGet
  · obtain ⟨k, hk, _⟩ := PathMap.mem_of_get? hGet
    exact .inl ⟨(k, target), DependencyGraph.mem_edges.2 ⟨targets, hk, hTarget⟩, rfl⟩
  · obtain ⟨rfl, _⟩ := DependentGraph.get?_forward.1 hGet
    obtain ⟨k, hEdge, _⟩ := PathMap.mem_valuesAt.1 hTarget
    obtain ⟨d, hKey, _⟩ := DependentGraph.mem_edges.1 hEdge
    exact .inr (PathMap.mem_keys_iff.2 ⟨d, hKey⟩)

section reuse

variable {isFile : Path → Bool} {read : Path → Except FileError Bytes} {m : Memo} {s : Snapshot}
  {files : List Path}

theorem mem_keys_dependents_reuse {k : Path}
    (h : k ∈ (reuse isFile read m s files).2.dependents.keys) :
    k ∈ s.dependents.keys ∧ k.Among files := by
  obtain ⟨d, he⟩ := PathMap.mem_keys_iff.1 h
  obtain ⟨he, hAmong⟩ := DependentGraph.mem_restrict_iff.1 he
  exact ⟨PathMap.mem_keys_iff.2 ⟨d, he⟩, hAmong⟩

/-- The files with merged dependencies are analysed ones and such as occur in the snapshot. -/
theorem key_mergedDependencies {g : DependencyGraph} {k : Path}
    (h : k ∈ ((reuse isFile read m s files).2.mergedDependencies g).keys) :
    k ∈ files ∨ k ∈ s.dependents.keys ∨ k ∈ s.dependents.edges.map (·.1) := by
  have hSource := mem_sources_of_mem_keys rfl h
  rw [sources, List.mem_append, List.mem_append] at hSource
  rcases hSource with hk | hk | hk
  · exact (mem_schedule hk).imp_right fun hk => .inr hk.1
  · exact .inr (.inl (mem_keys_dependents_reuse hk).1)
  · obtain ⟨e, he, rfl⟩ := List.mem_map.1 hk
    exact .inr (.inr (List.mem_map_of_mem (DependentGraph.mem_edges_restrict.1 he).1))

end reuse

end Plan

/-- Whether all that a partial run may read to be saved can be read: the analysed files, those that
they are reported to depend on, and those of the snapshot that are there. Of the analysed files and
the keys of the snapshot, the spellings of one path open the same file. -/
structure Snapshot.Supplied (isFile : Path → Bool) (read : Path → Except FileError Bytes)
    (s : Snapshot) (files : List Path) (fresh : Report) : Prop where
  analysed : ∀ f ∈ files, ∃ content, read f = .ok content
  reported : ∀ g, fresh.dependencies = some g → ∀ e ∈ g.edges, ∃ content, read e.2 = .ok content
  cached : ∀ p ∈ s.dependents.keys ++ s.dependents.edges.map (·.1), isFile p = true →
    ∃ content, read p = .ok content
  alike : OpenAlike isFile read (files ++ s.dependents.keys)

section Supplied

variable {isFile isFile₀ : Path → Bool} {read read₀ : Path → Except FileError Bytes} {s : Snapshot}
  {files : List Path} {fresh : Report} (h : s.Supplied isFile read files fresh)
  {m : Memo} {g : DependencyGraph} (hg : fresh.dependencies = some g)

include h hg

theorem Snapshot.Supplied.target {e : Path × Path}
    (he : e ∈ ((Plan.reuse isFile₀ read₀ m s files).2.mergedDependencies g).edges) :
    ∃ content, read e.2 = .ok content := by
  rcases Plan.target_mergedDependencies rfl he with ⟨e', he', hEq⟩ | hk
  · rw [← hEq]
    exact h.reported g hg e' he'
  · obtain ⟨hKey, f, hf, hSame⟩ := Plan.mem_keys_dependents_reuse hk
    obtain ⟨content, hRead⟩ := h.analysed f hf
    exact ⟨content, h.alike.read f (List.mem_append_left _ hf) e.2 (List.mem_append_right _ hKey)
      hSame content hRead⟩

omit hg in
theorem Snapshot.Supplied.key {k : Path}
    (hk : k ∈ ((Plan.reuse isFile₀ read₀ m s files).2.mergedDependencies g).keys)
    (hFile : isFile k = true) : ∃ content, read k = .ok content := by
  rcases Plan.key_mergedDependencies hk with hk | hk | hk
  · exact h.analysed k hk
  · exact h.cached k (List.mem_append_left _ hk) hFile
  · exact h.cached k (List.mem_append_right _ hk) hFile

theorem Snapshot.Supplied.exists_dependents (m' : Memo) :
    ∃ m'' d, ((Plan.reuse isFile₀ read₀ m s files).2.mergedDependencies g).dependentsFrom isFile
      read m' = (m'', .ok d) :=
  DependencyGraph.exists_dependentsFrom (fun _ he => Memo.exists_digestFrom (h.target hg he))
    (fun _ hk hFile => Memo.exists_digestFrom (h.key hk hFile))

end Supplied

namespace Run

/-! ## Saving a partial run -/

theorem exists_save_of_processFrom_error {r : Run} {isFile : Path → Bool}
    {read : Path → Except FileError Bytes} {t : FileTree} {fresh : Report} {plan : Plan}
    {save : Bool} {x : CacheError}
    (h : (r.processFrom isFile read t fresh plan save).2.2 = .error x)
    (hDependents : ∀ g, fresh.dependencies = some g → ∀ m,
      ∃ m' d, (plan.mergedDependencies g).dependentsFrom isFile read m = (m', .ok d)) :
    ∃ s, (Snapshot.save t r.cacheFile s).2 = .error x := by
  rw [processFrom_eq] at h
  cases hKept : Plan.kept fresh save with
  | error reason =>
    rw [hKept] at h
    cases h
  | ok g =>
    rw [hKept] at h
    dsimp only at h
    obtain ⟨_, hReported, _⟩ := Plan.kept_eq_ok_iff.1 hKept
    rcases Snapshot.saveDraftFrom_cases isFile read t (r.fingerprintFrom isFile read).1.memo
      r.cacheFile (r.fingerprintFrom isFile read).2
      ⟨plan.lastFull, plan.mergedErrors fresh, plan.mergedDependencies g⟩ with
      ⟨m, d, _, hEq⟩ | ⟨m, y, hError, _⟩
    · rw [hEq] at h
      exact ⟨_, eq_error_of_map h⟩
    · obtain ⟨m', d, hOk⟩ := hDependents g hReported (r.fingerprintFrom isFile read).1.memo
      rw [hOk] at hError
      cases hError

/-- Whatever a snapshot tells of, a partial run that is made from it can turn its merged
dependencies round if what it reads can be read. So if the run cannot be saved, that is for a path
that is no text, or for the cache file or its directory. -/
theorem process_fails_in_save {isFile₀ : Path → Bool} {read₀ : Path → Except FileError Bytes}
    {m₀ : Memo} {s : Snapshot} {f : Fingerprint} {files : List Path} {debug : Bool} {now : UInt64}
    {plan : Plan}
    (hPlan : (Plan.ofSnapshotFrom isFile₀ read₀ m₀ (some s) f files debug now).2 = plan)
    (hPartial : plan.isFull = false) (fresh : Report) (save : Bool) (isFile : Path → Bool)
    (read : Path → Except FileError Bytes) (hSupplied : s.Supplied isFile read files fresh) :
    (∀ merged draft, plan.merge fresh save = .ok merged → merged.draft = .ok draft →
      ∀ m, ∃ m' d, draft.dependencies.dependentsFrom isFile read m = (m', .ok d)) ∧
    ∀ (t : FileTree) (r : Run) x, (r.processFrom isFile read t fresh plan save).2.2 = .error x →
      (∃ saved, (Snapshot.save t r.cacheFile saved).2 = .error x) ∧
        ((∃ e, x = .encoding e) ∨ ∃ q cause, x = .files q cause ∧
          (q = r.cacheFile ∨ r.cacheFile.parent? = some q)) := by
  have hReuse : plan = (Plan.reuse isFile₀ read₀ m₀ s files).2 := by
    rw [← hPlan] at hPartial ⊢
    rw [Plan.eq_reuse_of_partial hPartial]
  rw [hReuse]
  refine ⟨fun merged draft hMerge hDraft m => ?_, fun t r x hError => ?_⟩
  · rw [Plan.merge_eq] at hMerge
    cases hMerge
    cases hKept : Plan.kept fresh save with
    | error reason =>
      rw [hKept] at hDraft
      cases hDraft
    | ok g =>
      rw [hKept] at hDraft
      cases hDraft
      exact hSupplied.exists_dependents (Plan.kept_eq_ok_iff.1 hKept).2.1 m
  · obtain ⟨saved, hSave⟩ := exists_save_of_processFrom_error hError fun g hg m =>
      hSupplied.exists_dependents hg m
    exact ⟨⟨saved, hSave⟩, Snapshot.save_eq_error hSave⟩

/-! ## A snapshot that tells of files that are gone -/

namespace Outdated

def analysed : Path := .ofText "a"

def other : Path := .ofText "b"

/-- Files that are gone. -/
def gone : Path := .ofText "c"

def files : FileTree := (FileTree.empty.set [[0x61]] (.file [1])).set [[0x62]] (.file [2])

/-- The cache is to be in a directory, but there is a file in its place. -/
def run : Run := .start (.ofCacheFile (.ofText "a/d"))

/-- The analysed file and one that is gone depended on each other, and both on one that is no longer
analysed. -/
def previous : Snapshot where
  lastFull := 0
  fingerprint := (run.fingerprint files).2
  errors := .empty
  dependents := ((PathMap.empty.insert analysed ⟨.ofSource [3], [gone]⟩).insert gone
    ⟨.ofSource [4], [analysed]⟩).insert other ⟨.ofSource [2], [analysed, gone]⟩

def plan : Plan :=
  (Plan.ofSnapshot files .empty (some previous) (run.fingerprint files).2 [analysed] false 0).2

def answer : Report := ⟨[], some (PathMap.empty.insert analysed [other]), false⟩

theorem supplied : previous.Supplied files.isFile files.read [analysed] answer where
  analysed := by
    intro f hf
    rw [List.mem_singleton.1 hf]
    exact ⟨[1], by decide +kernel⟩
  reported := by
    rintro g ⟨⟩ e he
    have hEdges : DependencyGraph.edges (PathMap.empty.insert analysed [other]) =
      [(analysed, other)] := by decide +kernel
    rw [hEdges, List.mem_singleton] at he
    rw [he]
    exact ⟨[2], by decide +kernel⟩
  cached _ _ hFile := FileTree.isFile_iff.1 hFile
  alike := by
    have hAddressable : ∀ p ∈ [analysed] ++ previous.dependents.keys, FileTree.Addressable p := by
      decide +kernel
    exact openAlike_of_plain fun p hp => FileTree.plain_of_addressable (hAddressable p hp)

theorem process_fails_in_save_outdated : plan.isFull = false ∧
    (∃ merged draft, plan.merge answer true = .ok merged ∧ merged.draft = .ok draft ∧
      ∃ m d, draft.dependencies.dependentsFrom files.isFile files.read .empty = (m, .ok d)) ∧
    (run.process files answer plan true).2.2 = .error (.files (.ofText "a") .exists) ∧
    ∃ saved, (Snapshot.save files run.cacheFile saved).2 =
      .error (.files (.ofText "a") .exists) := by
  have hPartial : plan.isFull = false := by decide +kernel
  have hError : (run.process files answer plan true).2.2 =
      .error (.files (.ofText "a") .exists) := by decide +kernel
  have hMerge := Plan.merge_eq plan answer true
  obtain ⟨hTurns, hFails⟩ :=
    process_fails_in_save rfl hPartial answer true files.isFile files.read supplied
  exact ⟨hPartial, ⟨_, _, hMerge, rfl, hTurns _ _ hMerge rfl .empty⟩, hError,
    (hFails files run _ hError).1⟩

end Outdated

end Run

end AnalysisCache
