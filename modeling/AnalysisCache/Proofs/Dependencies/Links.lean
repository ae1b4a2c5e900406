import AnalysisCache.Proofs.Dependencies.Invert

/-!
# Which file depends on which

Both kinds of graph say which file depends on which, the one listed under the file and the other one
under what it depends on. Up to the spelling of paths that is all they say of edges, and neither way
of turning a graph round adds a link or loses one.

* `DependentGraph.links_iff`, `DependencyGraph.links_iff`: where a graph lists its links.
* `DependentGraph.links_forward`, `DependencyGraph.Inverts.links_iff`: turning round keeps them.
* `DependentGraph.get?_forward`: the dependencies that dependents are turned into.
-/

namespace AnalysisCache

open AnalysisCache.Path (same_self same_symm same_trans)
open PathMap (valuesAt)

/-- Whether one of some edges leads from a file to another one, in whatever spelling. -/
def Links (edges : List (Path × Path)) (file target : Path) : Prop :=
  ∃ e ∈ edges, e.1.same file = true ∧ e.2.same target = true

theorem exists_links_to_iff {edges : List (Path × Path)} {target : Path} :
    (∃ file, Links edges file target) ↔ ∃ e ∈ edges, e.2.same target = true := by
  constructor
  · rintro ⟨_, e, he, _, hTarget⟩
    exact ⟨e, he, hTarget⟩
  · rintro ⟨e, he, hTarget⟩
    exact ⟨e.1, e, he, same_self e.1, hTarget⟩

theorem among_valuesAt_iff {edges : List (Path × Path)} {file target : Path} :
    target.Among (valuesAt file edges) ↔ Links edges file target := by
  constructor
  · rintro ⟨x, hx, hTarget⟩
    obtain ⟨k, he, hFile⟩ := PathMap.mem_valuesAt.1 hx
    exact ⟨(k, x), he, hFile, hTarget⟩
  · rintro ⟨⟨k, x⟩, he, hFile, hTarget⟩
    exact ⟨x, PathMap.mem_valuesAt.2 ⟨k, he, hFile⟩, hTarget⟩

/-! ## Links of dependencies -/

namespace DependencyGraph

/-- The files listed at a path, none if it is no key. -/
def targetsAt (g : DependencyGraph) (p : Path) : List Path := (g.get? p).getD []

theorem links_iff {g : DependencyGraph} {file target : Path} :
    Links g.edges file target ↔ target.Among (g.targetsAt file) := by
  constructor
  · rintro ⟨⟨k, x⟩, he, hFile, hTarget⟩
    obtain ⟨targets, hEntry, hx⟩ := mem_edges.1 he
    rw [targetsAt, PathMap.get?_of_mem hEntry hFile]
    exact ⟨x, hx, hTarget⟩
  · rintro ⟨x, hx, hTarget⟩
    rw [targetsAt] at hx
    cases hGet : PathMap.get? g file with
    | none =>
      rw [hGet] at hx
      cases hx
    | some targets =>
      rw [hGet] at hx
      obtain ⟨k, hEntry, hFile⟩ := PathMap.mem_of_get? hGet
      exact ⟨(k, x), mem_edges.2 ⟨targets, hEntry, hx⟩, hFile, hTarget⟩

theorem exists_links_iff_targetsAt {g : DependencyGraph} {file : Path} :
    (∃ target, Links g.edges file target) ↔ g.targetsAt file ≠ [] := by
  simp only [links_iff]
  constructor
  · rintro ⟨_, x, hx, _⟩
    exact List.ne_nil_of_mem hx
  · intro hSome
    obtain ⟨x, hx⟩ := List.exists_mem_of_ne_nil _ hSome
    exact ⟨x, Path.among_of_mem hx⟩

end DependencyGraph

/-! ## Links of dependents -/

namespace DependentGraph

theorem filesAt_congr (g : DependentGraph) {p q : Path} (h : p.same q = true) :
    g.filesAt p = g.filesAt q := by
  rw [filesAt, filesAt, PathMap.get?_congr g h]

theorem contains_of_among_filesAt {g : DependentGraph} {p q : Path}
    (h : p.Among (g.filesAt q)) : g.contains q = true := by
  rw [PathMap.contains_iff_get?]
  cases hGet : PathMap.get? g q with
  | some d => exact ⟨d, rfl⟩
  | none =>
    rw [filesAt, hGet] at h
    exact absurd h (Path.not_among_nil p)

theorem among_filesAt_congr {g : DependentGraph} {p p' q q' : Path}
    (hp : p.same p' = true) (hq : q.same q' = true) (h : p.Among (g.filesAt q)) :
    p'.Among (g.filesAt q') := by
  rw [← g.filesAt_congr hq]
  exact (Path.among_congr hp).1 h

theorem exists_edge_of_among_filesAt {g : DependentGraph} {p q : Path}
    (h : p.Among (g.filesAt q)) : ∃ e ∈ g.edges, e.1.same p = true ∧ e.2.same q = true := by
  obtain ⟨d, hGet⟩ := PathMap.contains_iff_get?.1 (contains_of_among_filesAt h)
  rw [filesAt_of_get? hGet] at h
  obtain ⟨x, hx, hSame⟩ := h
  obtain ⟨k, he, hKey⟩ := PathMap.mem_of_get? hGet
  exact ⟨(x, k), mem_edges.2 ⟨d, he, hx⟩, hSame, hKey⟩

theorem links_iff {g : DependentGraph} {file target : Path} :
    Links g.edges file target ↔ file.Among (g.filesAt target) := by
  refine ⟨?_, exists_edge_of_among_filesAt⟩
  rintro ⟨⟨x, k⟩, he, hFile, hTarget⟩
  obtain ⟨d, hEntry, hx⟩ := mem_edges.1 he
  rw [filesAt_of_get? (PathMap.get?_of_mem hEntry hTarget)]
  exact ⟨x, hx, hFile⟩

theorem contains_of_links {g : DependentGraph} {file target : Path}
    (h : Links g.edges file target) : g.contains target = true :=
  contains_of_among_filesAt (links_iff.1 h)

/-! ## The dependencies that dependents are turned into -/

/-- The dependencies of every file that occurs in a graph. -/
def forward (g : DependentGraph) : DependencyGraph :=
  match g.dependencies with
  | .ok g' => g'
  | .error _ => .empty

theorem dependencies_eq (g : DependentGraph) : g.dependencies = .ok g.forward := by
  obtain ⟨g', hOk, _⟩ := dependencies_spec g
  rw [forward, hOk]

theorem get?_forward {g : DependentGraph} {p : Path} {targets : List Path} :
    g.forward.get? p = some targets ↔
      targets = valuesAt p g.edges ∧ (targets ≠ [] ∨ p.Among g.keys) := by
  obtain ⟨g', hOk, hGet, _⟩ := dependencies_spec g
  rw [forward, hOk]
  exact hGet p targets

theorem among_keys_forward {g : DependentGraph} {p : Path} (h : p.Among g.keys) :
    p.Among g.forward.keys := by
  rw [← PathMap.contains_iff, PathMap.contains_iff_get?]
  exact ⟨_, get?_forward.2 ⟨rfl, .inr h⟩⟩

theorem mem_keys_forward {g : DependentGraph} {k : Path} (h : k ∈ g.forward.keys) :
    k ∈ g.idle ∨ ∃ target, (k, target) ∈ g.edges := by
  obtain ⟨g', hOk, _, hKeys⟩ := dependencies_spec g
  rw [forward, hOk] at h
  exact hKeys k h

theorem mem_keys_of_mem_edges_forward {g : DependentGraph} {e : Path × Path}
    (he : e ∈ g.forward.edges) : e.2 ∈ g.keys := by
  obtain ⟨targets, hEntry, hTarget⟩ := DependencyGraph.mem_edges.1 he
  obtain ⟨rfl, _⟩ := get?_forward.1 (PathMap.get?_of_mem hEntry (same_self e.1))
  obtain ⟨file, hEdge, _⟩ := PathMap.mem_valuesAt.1 hTarget
  obtain ⟨d, hKey, _⟩ := mem_edges.1 hEdge
  exact PathMap.mem_keys_iff.2 ⟨d, hKey⟩

theorem targetsAt_forward (g : DependentGraph) (p : Path) :
    g.forward.targetsAt p = valuesAt p g.edges := by
  rw [DependencyGraph.targetsAt]
  cases hGet : PathMap.get? g.forward p with
  | some targets => exact (get?_forward.1 hGet).1
  | none =>
    by_contra hSome
    have hGet' : g.forward.get? p = some (valuesAt p g.edges) :=
      get?_forward.2 ⟨rfl, .inl fun hNil => hSome hNil.symm⟩
    rw [hGet] at hGet'
    cases hGet'

theorem links_forward {g : DependentGraph} {file target : Path} :
    Links g.forward.edges file target ↔ Links g.edges file target := by
  rw [DependencyGraph.links_iff, targetsAt_forward, among_valuesAt_iff]

/-- The files that have dependencies are the keys and all that depends on one. -/
theorem contains_forward {g : DependentGraph} {p : Path} :
    g.forward.contains p = true ↔ g.contains p = true ∨ ∃ target, Links g.edges p target := by
  rw [PathMap.contains_iff_get?, PathMap.contains_iff]
  simp only [get?_forward]
  constructor
  · rintro ⟨targets, rfl, hSome | hKey⟩
    · obtain ⟨x, hx⟩ := List.exists_mem_of_ne_nil _ hSome
      exact .inr ⟨x, among_valuesAt_iff.1 (Path.among_of_mem hx)⟩
    · exact .inl hKey
  · rintro (hKey | ⟨target, hLinks⟩)
    · exact ⟨_, rfl, .inr hKey⟩
    · obtain ⟨x, hx, _⟩ := among_valuesAt_iff.2 hLinks
      exact ⟨_, rfl, .inl (List.ne_nil_of_mem hx)⟩

end DependentGraph

/-! ## The dependents that dependencies are turned into -/

namespace DependencyGraph.Inverts

variable {isFile : Path → Bool} {m : Memo} {g : DependencyGraph} {d : DependentGraph}
  (h : Inverts isFile m g d)

include h

theorem links_iff {file target : Path} :
    Links d.edges file target ↔ Links g.edges file target := by
  rw [DependentGraph.links_iff]
  constructor
  · rintro ⟨x, hx, hFile⟩
    obtain ⟨e, he, hTarget, rfl⟩ := h.mem_filesAt target x hx
    exact ⟨e, he, hFile, hTarget⟩
  · rintro ⟨e, he, hFile, hTarget⟩
    exact (Path.among_congr hFile).1 (h.among_filesAt e he target hTarget)

/-- The keys are the files that another one depends on, and otherwise files that are there. -/
theorem contains_iff_links {p : Path} :
    d.contains p = true ↔ (∃ file, Links g.edges file p) ∨ p.Among (g.keys.filter isFile) := by
  rw [h.contains_iff, exists_links_to_iff]

end DependencyGraph.Inverts

end AnalysisCache
