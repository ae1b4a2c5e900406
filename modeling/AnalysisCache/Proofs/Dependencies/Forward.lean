import AnalysisCache.Proofs.Dependencies.Inverse
import AnalysisCache.Proofs.Plan.Merge

/-!
# From dependents to dependencies, edge by edge

The dependencies can be found by going through the edges one by one. Every key is set aside until it
turns up as a dependent, so that those left in the end are the keys that depend on nothing. None of
them can have an entry then, since none has one at any step.

So there are always dependencies, whatever the graph: its lists may be in any order, name a file
more than once, name the file itself, or files that are no keys.

* `DependentGraph.Sweep`: how far one has come, and `Sweep.Parts.add`, what a step keeps.
* `DependentGraph.dependencies_eq_sweep`: where that ends.
* `DependentGraph.mem_keys_forward_iff`, `DependentGraph.targetsAt_forward_eq`: what the
  dependencies are, to the spelling of the files and to how often each is listed.
* `DependentGraph.dependencies_exact`: all of this, and that no merge fails.
-/

namespace AnalysisCache

open AnalysisCache.Path (same_self same_symm same_trans)
open PathMap (valuesAt)

namespace DependentGraph

/-! ## One edge after another -/

/-- The dependencies found so far, and the keys that have not turned up as dependents. -/
structure Sweep where
  found : DependencyGraph
  idle : List Path

namespace Sweep

def start (g : DependentGraph) : Sweep := ⟨.empty, g.keys⟩

def add (s : Sweep) (file target : Path) : Sweep :=
  ⟨s.found.push file target, s.idle.filter fun f => !file.same f⟩

/-- Goes on to the dependents of one file. -/
def addFiles (s : Sweep) (e : Path × Dependents) : Sweep :=
  e.2.files.foldl (fun s file => s.add file e.1) s

/-- Whether each of some keys is either set aside or has an entry, and not both. -/
structure Parts (keys : List Path) (s : Sweep) : Prop where
  apart : s.idle.Pairwise fun p q => p.same q = false
  new : ∀ f ∈ s.idle, s.found.contains f = false
  left : ∀ k ∈ keys, k ∈ s.idle ∨ s.found.contains k = true

variable {keys : List Path} {s : Sweep}

theorem Parts.add (h : s.Parts keys) (file target : Path) : (s.add file target).Parts keys := by
  have hPush : ∀ p, (s.found.push file target).contains p = true ↔
      file.same p = true ∨ s.found.contains p = true := fun p => PathMap.contains_insert
  refine ⟨h.apart.filter _, fun f hf => ?_, fun k hk => ?_⟩
  · obtain ⟨hIdle, hNot⟩ := List.mem_filter.1 hf
    rw [Bool.not_eq_true'] at hNot
    rw [Bool.eq_false_iff]
    intro hContains
    rcases (hPush f).1 hContains with hSame | hOld
    · rw [hNot] at hSame
      cases hSame
    · rw [h.new f hIdle] at hOld
      cases hOld
  · cases hSame : file.same k with
    | true => exact .inr ((hPush k).2 (.inl hSame))
    | false =>
      rcases h.left k hk with hIdle | hOld
      · exact .inl (List.mem_filter.2 ⟨hIdle, by rw [hSame]; rfl⟩)
      · exact .inr ((hPush k).2 (.inr hOld))

theorem Parts.addFiles (h : s.Parts keys) (e : Path × Dependents) : (s.addFiles e).Parts keys := by
  obtain ⟨target, d⟩ := e
  rw [Sweep.addFiles]
  induction d.files generalizing s with
  | nil => exact h
  | cons file rest ih => exact ih (h.add file target)

theorem Parts.foldl (h : s.Parts keys) (entries : List (Path × Dependents)) :
    (entries.foldl Sweep.addFiles s).Parts keys := by
  induction entries generalizing s with
  | nil => exact h
  | cons e rest ih => exact ih (h.addFiles e)

theorem parts_start (g : DependentGraph) : (start g).Parts g.keys := by
  refine ⟨?_, fun _ _ => rfl, fun k hk => .inl hk⟩
  rw [start, PathMap.keys, List.pairwise_map]
  exact g.sorted.imp fun hLt => Path.not_same_of_lt hLt

theorem foldl_add (s : Sweep) (edges : List (Path × Path)) :
    edges.foldl (fun s e => s.add e.1 e.2) s =
      ⟨edges.foldl (fun m e => m.push e.1 e.2) s.found,
        s.idle.filter fun f => !edges.any fun e => e.1.same f⟩ := by
  induction edges generalizing s with
  | nil => simp
  | cons e rest ih =>
    rw [List.foldl_cons, ih, List.foldl_cons, add, List.filter_filter]
    simp only [List.any_cons, Bool.not_or, Bool.and_comm]

end Sweep

/-- How far one comes with all entries. -/
def sweep (g : DependentGraph) : Sweep := g.entries.foldl Sweep.addFiles (.start g)

theorem sweep_eq (g : DependentGraph) : g.sweep = ⟨PathMap.collect g.edges, g.idle⟩ := by
  have hEdges : g.sweep = g.edges.foldl (fun s e => s.add e.1 e.2) (.start g) := by
    rw [sweep, edges, List.foldl_flatMap]
    simp only [List.foldl_map]
    rfl
  rw [hEdges, Sweep.foldl_add]
  rfl

/-- The files set aside are all that is missing in the end. -/
theorem dependencies_eq_sweep (g : DependentGraph) :
    g.dependencies = addIdle g.sweep.idle g.sweep.found := by
  rw [sweep_eq]
  rfl

/-- There are dependencies, since no file set aside has an entry. -/
theorem exists_dependencies (g : DependentGraph) :
    ∃ h, g.dependencies = .ok h ∧
      ∀ k ∈ h.keys, k ∈ g.idle ∨ k ∈ (PathMap.collect g.edges).keys := by
  have hParts : g.sweep.Parts g.keys := (Sweep.parts_start g).foldl g.entries
  obtain ⟨h, hOk, _, hKeys⟩ := addIdle_spec hParts.apart hParts.new
  refine ⟨h, by rw [dependencies_eq_sweep, hOk], ?_⟩
  rwa [sweep_eq] at hKeys

/-! ## The files -/

/-- The files that a graph mentions, the dependents before the keys. -/
def mentioned (g : DependentGraph) : List Path := g.entries.flatMap (·.2.files) ++ g.keys

theorem map_fst_edges (g : DependentGraph) :
    g.edges.map (·.1) = g.entries.flatMap (·.2.files) := by
  rw [edges, List.map_flatMap]
  simp only [List.map_map]
  exact List.flatMap_congr fun e _ => List.map_id _

theorem find?_mentioned {g : DependentGraph} {k : Path} (hk : k ∈ g.forward.keys) :
    g.mentioned.find? (·.same k) = some k := by
  obtain ⟨h, hOk, hKeys⟩ := g.exists_dependencies
  rw [dependencies_eq] at hOk
  cases hOk
  rw [mentioned, ← map_fst_edges, List.find?_append]
  rcases hKeys k hk with hIdle | hFound
  · obtain ⟨hKey, hNil⟩ := mem_idle_iff.1 hIdle
    have hNone : (g.edges.map (·.1)).find? (·.same k) = none := by
      rw [valuesAt, List.map_eq_nil_iff, List.filter_eq_nil_iff] at hNil
      rw [List.find?_eq_none]
      intro p hp
      obtain ⟨e, he, rfl⟩ := List.mem_map.1 hp
      exact hNil e he
    rw [hNone, PathMap.find?_keys hKey]
    rfl
  · rw [PathMap.mem_keys_collect_iff.1 hFound]
    rfl

theorem contains_forward_iff {g : DependentGraph} {f : Path} :
    g.forward.contains f = true ↔
      g.contains f = true ∨ ∃ e ∈ g.entries, f.Among e.2.files := by
  rw [contains_forward]
  simp only [links_iff]
  refine or_congr_right ⟨?_, ?_⟩
  · rintro ⟨target, hf⟩
    obtain ⟨d, hGet⟩ := PathMap.contains_iff_get?.1 (contains_of_among_filesAt hf)
    obtain ⟨k, he, _⟩ := PathMap.mem_of_get? hGet
    rw [filesAt_of_get? hGet] at hf
    exact ⟨(k, d), he, hf⟩
  · rintro ⟨⟨k, d⟩, he, hf⟩
    exact ⟨k, by rwa [filesAt_of_get? (PathMap.get?_of_mem he (same_self k))]⟩

/-- The files with dependencies are those that are mentioned, spelled as they are at first. -/
theorem mem_keys_forward_iff {g : DependentGraph} {k : Path} :
    k ∈ g.forward.keys ↔ g.mentioned.find? (·.same k) = some k := by
  refine ⟨find?_mentioned, fun hFind => ?_⟩
  have hMentioned := List.mem_of_find?_eq_some hFind
  have hContains : g.forward.contains k = true := by
    rw [contains_forward_iff]
    rcases List.mem_append.1 hMentioned with hFile | hKey
    · obtain ⟨e, he, hk⟩ := List.mem_flatMap.1 hFile
      exact .inr ⟨e, he, Path.among_of_mem hk⟩
    · exact .inl (PathMap.contains_iff.2 (Path.among_of_mem hKey))
  obtain ⟨k', hk', hSame⟩ := PathMap.contains_iff.1 hContains
  have hFirst := find?_mentioned hk'
  simp only [Path.same_congr_right hSame, hFind, Option.some.injEq] at hFirst
  rwa [hFirst]

/-! ## The lists -/

/-- The dependencies of a file are the keys in order, each as often as it lists the file. -/
theorem targetsAt_forward_eq (g : DependentGraph) (f : Path) :
    g.forward.targetsAt f = g.entries.flatMap fun e =>
      List.replicate (e.2.files.countP fun q => q.same f) e.1 := by
  rw [targetsAt_forward, valuesAt_edges]
  refine List.flatMap_congr fun e _ => ?_
  rw [List.map_const', List.countP_eq_length_filter]

theorem pairwise_targetsAt_forward (g : DependentGraph) (f : Path) :
    (g.forward.targetsAt f).Pairwise fun s t => (compare s t).isLE = true := by
  rw [targetsAt_forward_eq, List.pairwise_flatMap]
  constructor
  · intro e _
    refine List.pairwise_replicate.2 (.inr ?_)
    rw [Path.compare_eq_iff_same.2 (same_self e.1)]
    rfl
  · refine g.sorted.imp fun {d e} hLt s hs t ht => ?_
    rw [List.eq_of_mem_replicate hs, List.eq_of_mem_replicate ht, hLt]
    rfl

theorem targetsAt_forward_eq_nil_iff {g : DependentGraph} {f : Path} :
    g.forward.targetsAt f = [] ↔ ¬ ∃ e ∈ g.entries, f.Among e.2.files := by
  simp only [targetsAt_forward_eq, List.flatMap_eq_nil_iff, List.replicate_eq_nil_iff,
    List.countP_eq_zero, Path.Among, not_exists, not_and]

/-! ## Exactness -/

/-- Every graph has dependencies. The files are the keys and the dependents, each spelled as it is
at first, dependents before keys. A file depends on the keys that list it, in increasing order, each
as often as it does, and on nothing exactly if no key lists it. So merging never fails either. -/
theorem dependencies_exact :
    (∀ g : DependentGraph, ∃ h, g.dependencies = .ok h ∧
      (∀ f, h.contains f = true ↔ g.contains f = true ∨ ∃ e ∈ g.entries, f.Among e.2.files) ∧
      (∀ k, k ∈ h.keys ↔
        (g.entries.flatMap (·.2.files) ++ g.keys).find? (·.same k) = some k) ∧
      ∀ f, h.targetsAt f = (g.entries.flatMap fun e =>
          List.replicate (e.2.files.countP fun q => q.same f) e.1) ∧
        ((h.targetsAt f).Pairwise fun s t => (compare s t).isLE = true) ∧
        (h.targetsAt f = [] ↔ ¬ ∃ e ∈ g.entries, f.Among e.2.files)) ∧
    ∀ (p : Plan) (fresh : Report) (save : Bool), ∃ merged, p.merge fresh save = .ok merged := by
  refine ⟨fun g => ⟨g.forward, g.dependencies_eq, fun f => contains_forward_iff,
    fun k => mem_keys_forward_iff, fun f => ?_⟩, fun p fresh save => ⟨_, p.merge_eq fresh save⟩⟩
  exact ⟨g.targetsAt_forward_eq f, g.pairwise_targetsAt_forward f, targetsAt_forward_eq_nil_iff⟩

/-- A file that depends on itself twice, and one that is no key. -/
example :
    dependencies (PathMap.empty.insert (.ofText "b")
      ⟨.ofSource [], [.ofText "b", .ofText "a", .ofText "b"]⟩) =
    .ok ((PathMap.empty.insert (.ofText "a") [.ofText "b"]).insert (.ofText "b")
      [.ofText "b", .ofText "b"]) := by
  decide +kernel

end DependentGraph

end AnalysisCache
