import AnalysisCache.Proofs.Run.Steps

/-!
# The dependencies that a run keeps

A partial run is told what the scheduled files depend on, and knows of the other files what they
depended on before. So the graph that it saves has the new links of the scheduled files and the old
links of all others. No link that a scheduled file had before is left, and links that lead to such a
file from others stay.

* `Plan.links_mergedDependencies`, `Plan.among_keys_mergedDependencies`: what is merged.
* `Run.exists_saved`: what is saved of it.
* `Run.process_keeps_links`: the links and the keys of the saved graph.
-/

namespace AnalysisCache

open FileTree (Plain)

namespace Plan

/-! ## Merged dependencies -/

/-- The files whose dependencies a plan is about. -/
def sources (p : Plan) : List Path :=
  p.schedule ++ (p.dependents.keys ++ p.dependents.edges.map (·.1))

section

variable {p : Plan} (h : p.isFull = false) {g : DependencyGraph}

include h

theorem mergedDependencies_eq :
    p.mergedDependencies g = replaceAll p.schedule g p.dependents.forward := by
  rw [mergedDependencies, if_neg (by rw [h]; decide)]

/-- A scheduled file depends on what it now depends on, any other one on what it did before. -/
theorem links_mergedDependencies {file target : Path} :
    Links (p.mergedDependencies g).edges file target ↔
      if file.Among p.schedule then Links g.edges file target
      else Links p.dependents.edges file target := by
  rw [mergedDependencies_eq h, DependencyGraph.links_iff, DependencyGraph.targetsAt,
    get?_replaceAll]
  split
  · exact DependencyGraph.links_iff.symm
  · rw [← DependentGraph.links_forward, DependencyGraph.links_iff]
    rfl

theorem among_keys_mergedDependencies {q : Path} :
    q.Among (p.mergedDependencies g).keys ↔
      q.Among p.schedule ∧ g.contains q = true ∨
        ¬ q.Among p.schedule ∧
          (p.dependents.contains q = true ∨ ∃ k, q.Among (p.dependents.filesAt k)) := by
  rw [mergedDependencies_eq h, among_keys_replaceAll, ← PathMap.contains_iff, ← PathMap.contains_iff,
    DependentGraph.contains_forward]
  simp only [DependentGraph.links_iff]

theorem mem_sources_of_mem_keys {k : Path} (hk : k ∈ (p.mergedDependencies g).keys) :
    k ∈ p.sources := by
  rw [mergedDependencies_eq h] at hk
  rw [sources, List.mem_append, List.mem_append]
  rcases mem_keys_replaceAll hk with hk | hk
  · exact .inl hk
  · rcases DependentGraph.mem_keys_forward hk with hIdle | ⟨target, hEdge⟩
    · exact .inr (.inl (DependentGraph.mem_idle_iff.1 hIdle).1)
    · exact .inr (.inr (List.mem_map_of_mem hEdge))

/-- A file that is there is one of the merged ones in a spelling in which it is there. -/
theorem among_filter_isFile {t : FileTree} (hPlain : ∀ k ∈ p.sources, t.Plain k) {q : Path} :
    q.Among ((p.mergedDependencies g).keys.filter t.isFile) ↔
      (∃ r, r.same q = true ∧ t.isFile r = true) ∧ q.Among (p.mergedDependencies g).keys := by
  constructor
  · rintro ⟨k, hk, hSame⟩
    obtain ⟨hKey, hFile⟩ := List.mem_filter.1 hk
    exact ⟨⟨k, hSame, hFile⟩, k, hKey, hSame⟩
  · rintro ⟨⟨r, hr, hFile⟩, k, hk, hSame⟩
    have hThere : t.isFile k = true := hPlain k (mem_sources_of_mem_keys h hk) r
      (Path.same_trans hr (Path.same_symm hSame)) hFile
    exact ⟨k, List.mem_filter.2 ⟨hk, hThere⟩, hSame⟩

end

end Plan

/-! ## Saved dependencies -/

namespace Run

theorem exists_saved {r : Run} {t : FileTree} {fresh report : Report} {plan : Plan} {save : Bool}
    {g : DependencyGraph} (hKept : Plan.kept fresh save = .ok g)
    (h : (r.process t fresh plan save).2.2 = .ok report) :
    ∃ m s, (Snapshot.load (r.process t fresh plan save).1 r.cacheFile).2 = some s ∧
      (plan.mergedDependencies g).dependents t (r.fingerprint t).1.memo = (m, .ok s.dependents) := by
  have hOk : (r.process t fresh plan save).2.2.isOk = true := by
    rw [h]
    rfl
  rw [process_eq_saveDraft, hKept] at hOk ⊢
  obtain ⟨m, d, hDependents, hSave⟩ := Snapshot.exists_save_of_saveDraft (eq_ok_of_isOk_map hOk)
  exact ⟨m, _, congrArg Prod.snd (Snapshot.load_of_save hSave rfl), hDependents⟩

/-- The graph that a partial run saves has the links that are new of the scheduled files, and of the
others those that it had. Its keys are the files that links lead to, and of the files that are there
those that are scheduled and have been told of, and those that are not scheduled and occurred in the
graph before. So if a scheduled file has not been told of, all its links are gone, while the links
that lead to it from files that are not scheduled stay. -/
theorem process_keeps_links {r : Run} {t : FileTree} {fresh report : Report} {plan : Plan}
    {g : DependencyGraph} (hPartial : plan.isFull = false)
    (hDependencies : fresh.dependencies = some g)
    (hStable : ∀ d ∈ fresh.diagnostics, ¬ (d.kind = .global ∨ d.kind = .warning))
    (hPlain : ∀ k ∈ plan.sources, t.Plain k)
    (h : (r.process t fresh plan true).2.2 = .ok report) :
    ∃ s, (Snapshot.load (r.process t fresh plan true).1 r.cacheFile).2 = some s ∧
      (∀ file target : Path, file.Among (s.dependents.filesAt target) ↔
        file.Among plan.schedule ∧ target.Among (g.targetsAt file) ∨
          ¬ file.Among plan.schedule ∧ plan.dependents.contains target = true ∧
            file.Among (plan.dependents.filesAt target)) ∧
      (∀ target : Path, s.dependents.contains target = true ↔
        (∃ file : Path, file.Among (s.dependents.filesAt target)) ∨
          (∃ q, q.same target = true ∧ t.isFile q = true) ∧
            (target.Among plan.schedule ∧ g.contains target = true ∨
              ¬ target.Among plan.schedule ∧ (plan.dependents.contains target = true ∨
                ∃ k, target.Among (plan.dependents.filesAt k)))) ∧
      ∀ file : Path, file.Among plan.schedule → g.contains file = false →
        (∀ target, ¬ file.Among (s.dependents.filesAt target)) ∧
        ∀ other : Path, ¬ other.Among plan.schedule →
          other.Among (plan.dependents.filesAt file) → other.Among (s.dependents.filesAt file) := by
  obtain ⟨m, s, hLoad, hDependents⟩ := exists_saved (Plan.kept_eq_ok hDependencies hStable) h
  obtain ⟨_, hInverts⟩ := DependencyGraph.dependents_spec hDependents
  have hLinks : ∀ file target : Path, file.Among (s.dependents.filesAt target) ↔
      file.Among plan.schedule ∧ target.Among (g.targetsAt file) ∨
        ¬ file.Among plan.schedule ∧ plan.dependents.contains target = true ∧
          file.Among (plan.dependents.filesAt target) := by
    intro file target
    rw [← DependentGraph.links_iff, hInverts.links_iff, Plan.links_mergedDependencies hPartial,
      DependencyGraph.links_iff, DependentGraph.links_iff]
    have hKey : file.Among (plan.dependents.filesAt target) →
        plan.dependents.contains target = true := DependentGraph.contains_of_among_filesAt
    by_cases hScheduled : file.Among plan.schedule
    · simp only [hScheduled, if_true, true_and, not_true, false_and, or_false]
    · simp only [hScheduled, if_false, false_and, not_false_iff, true_and, false_or]
      exact ⟨fun hFile => ⟨hKey hFile, hFile⟩, And.right⟩
  refine ⟨s, hLoad, hLinks, fun target => ?_, fun file hScheduled hNone => ⟨fun target => ?_, ?_⟩⟩
  · rw [hInverts.contains_iff_links, Plan.among_filter_isFile hPartial hPlain,
      Plan.among_keys_mergedDependencies hPartial]
    simp only [← hInverts.links_iff, DependentGraph.links_iff]
  · rw [hLinks]
    rintro (⟨_, hTarget⟩ | ⟨hNot, _⟩)
    · rw [DependencyGraph.targetsAt, PathMap.get?_eq_none_iff.2 hNone] at hTarget
      exact Path.not_among_nil target hTarget
    · exact hNot hScheduled
  · intro other hNot hOther
    exact (hLinks other file).2
      (.inr ⟨hNot, DependentGraph.contains_of_among_filesAt hOther, hOther⟩)

/-! ## A file that depends on another one than before -/

namespace Turned

def turned : Path := .ofText "a"

def target : Path := .ofText "b"

def other : Path := .ofText "c"

def files : FileTree :=
  ((FileTree.empty.set [[0x61]] (.file [1])).set [[0x62]] (.file [2])).set [[0x63]] (.file [3])

def run : Run := .start (.ofCacheFile (.ofText "d"))

/-- Of two files that depended on a third one, one is to be analysed. -/
def plan : Plan where
  schedule := [turned]
  fullReason := none
  lastFull := 0
  errors := .empty
  dependents := PathMap.empty.insert target ⟨.ofSource [2], [turned, other]⟩

/-- It now depends on the other one. -/
def answer : Report := ⟨[], some (PathMap.empty.insert turned [other]), false⟩

theorem process_keeps_links_turned : plan.isFull = false ∧
    ∃ s, (Snapshot.load (run.process files answer plan true).1 run.cacheFile).2 = some s ∧
      turned.Among (s.dependents.filesAt other) ∧
      ¬ turned.Among (s.dependents.filesAt target) ∧
      other.Among (s.dependents.filesAt target) ∧ s.dependents.contains turned = true := by
  have hPartial : plan.isFull = false := rfl
  have hFiles : ∀ k ∈ plan.sources, files.isFile k = true := by decide +kernel
  have hOk : ∃ report, (run.process files answer plan true).2.2 = .ok report :=
    ⟨answer, by decide +kernel⟩
  obtain ⟨report, hReport⟩ := hOk
  obtain ⟨s, hLoad, hLinks, hKeys, -⟩ := process_keeps_links hPartial rfl
    (fun d hd => by cases hd) (fun k hk => FileTree.plain_of_isFile (hFiles k hk)) hReport
  refine ⟨hPartial, s, hLoad, (hLinks turned other).2 (by decide +kernel), fun hOld => ?_,
    (hLinks other target).2 (by decide +kernel), (hKeys turned).2 (.inr ⟨⟨turned, ?_⟩, ?_⟩)⟩
  · exact absurd ((hLinks turned target).1 hOld) (by decide +kernel)
  · decide +kernel
  · exact .inl (by decide +kernel)

end Turned

end Run

end AnalysisCache
