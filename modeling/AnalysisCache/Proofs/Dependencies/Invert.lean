import AnalysisCache.Dependencies.Invert
import AnalysisCache.Proofs.Digest.Memo
import AnalysisCache.Proofs.Path.Sorted

/-!
# Graphs turned round

Turning a graph round keeps its edges. The way from dependents to dependencies cannot fail. The way
back fails only if a file that another one depends on cannot be read, or one that is there, and it
gives each file the digest that the memo knows in the end.

* `DependentGraph.dependencies_spec`: the dependencies of each file.
* `DependencyGraph.dependentsFrom_cases`: the dependents of each file, or why there are none.
* `DependencyGraph.dependents_spec`: the dependents in a tree of files, if there are any.
* `DependencyGraph.exists_dependentsFrom`: that there are.
-/

namespace AnalysisCache

open AnalysisCache.Path (same_symm same_trans same_self same_congr_left same_congr_right)
open PathMap (valuesAt collect)

/-! ## Edges -/

theorem DependencyGraph.mem_edges {g : DependencyGraph} {file target : Path} :
    (file, target) ∈ g.edges ↔ ∃ targets, (file, targets) ∈ g.entries ∧ target ∈ targets := by
  rw [edges, List.mem_flatMap]
  constructor
  · rintro ⟨⟨k, targets⟩, he, hTarget⟩
    obtain ⟨x, hx, hEq⟩ := List.mem_map.1 hTarget
    cases hEq
    exact ⟨targets, he, hx⟩
  · rintro ⟨targets, he, hTarget⟩
    exact ⟨(file, targets), he, List.mem_map.2 ⟨target, hTarget, rfl⟩⟩

theorem DependentGraph.mem_edges {g : DependentGraph} {file target : Path} :
    (file, target) ∈ g.edges ↔ ∃ d, (target, d) ∈ g.entries ∧ file ∈ d.files := by
  rw [edges, List.mem_flatMap]
  constructor
  · rintro ⟨⟨k, d⟩, he, hFile⟩
    obtain ⟨x, hx, hEq⟩ := List.mem_map.1 hFile
    cases hEq
    exact ⟨d, he, hx⟩
  · rintro ⟨d, he, hFile⟩
    exact ⟨(target, d), he, List.mem_map.2 ⟨file, hFile, rfl⟩⟩

/-- The keys that are kept are apart from each other. -/
theorem PathMap.pairwise_keys {α : Type} (m : PathMap α) (keep : Path → Bool) :
    (m.keys.filter keep).Pairwise fun p q => p.same q = false := by
  refine List.Pairwise.filter keep ?_
  rw [PathMap.keys, List.pairwise_map]
  exact m.sorted.imp fun hLt => Path.not_same_of_lt hLt

/-! ## From dependents to dependencies -/

namespace DependentGraph

theorem addIdle_spec {fs : List Path} {g : DependencyGraph}
    (hApart : fs.Pairwise fun p q => p.same q = false) (hNew : ∀ f ∈ fs, g.contains f = false) :
    ∃ g', addIdle fs g = .ok g' ∧
      (∀ p, g'.get? p = if p.Among fs then some [] else g.get? p) ∧
      ∀ k ∈ g'.keys, k ∈ fs ∨ k ∈ g.keys := by
  induction fs generalizing g with
  | nil => exact ⟨g, rfl, fun p => by rw [if_neg (Path.not_among_nil p)], fun _ hk => .inr hk⟩
  | cons f rest ih =>
    rw [List.pairwise_cons] at hApart
    have hNewRest : ∀ k ∈ rest, (g.insert f []).contains k = false := by
      intro k hk
      rw [Bool.eq_false_iff]
      intro hContains
      rcases PathMap.contains_insert.1 hContains with hSame | hOld
      · rw [hApart.1 k hk] at hSame
        cases hSame
      · rw [hNew k (List.mem_cons_of_mem f hk)] at hOld
        cases hOld
    obtain ⟨g', hOk, hGet, hKeys⟩ := ih hApart.2 hNewRest
    refine ⟨g', ?_, fun p => ?_, fun k hk => ?_⟩
    · rw [addIdle, if_neg (by rw [hNew f List.mem_cons_self]; decide)]
      exact hOk
    · rw [hGet, PathMap.get?_insert]
      by_cases hRest : p.Among rest
      · rw [if_pos hRest, if_pos (Path.among_cons_iff.2 (.inr hRest))]
      · rw [if_neg hRest]
        cases hSame : f.same p with
        | true => rw [if_pos rfl, if_pos (Path.among_cons_iff.2 (.inl hSame))]
        | false =>
          rw [if_neg (by decide), if_neg]
          rw [Path.among_cons_iff, hSame]
          rintro (h | h)
          · cases h
          · exact hRest h
    · rcases hKeys k hk with hk | hk
      · exact .inl (List.mem_cons_of_mem f hk)
      · rcases PathMap.mem_keys_insert hk with rfl | hk
        · exact .inl List.mem_cons_self
        · exact .inr hk

/-- The keys that depend on nothing. -/
def idle (g : DependentGraph) : List Path :=
  g.keys.filter fun f => !g.edges.any fun e => e.1.same f

theorem mem_idle_iff {g : DependentGraph} {f : Path} :
    f ∈ g.idle ↔ f ∈ g.keys ∧ valuesAt f g.edges = [] := by
  rw [idle, List.mem_filter, valuesAt, List.map_eq_nil_iff, List.filter_eq_nil_iff,
    Bool.not_eq_true', Bool.eq_false_iff, ne_eq, List.any_eq_true]
  refine and_congr_right fun _ => ⟨fun hNot e he hSame => hNot ⟨e, he, hSame⟩, ?_⟩
  rintro hNot ⟨e, he, hSame⟩
  exact hNot e he hSame

theorem among_idle_iff {g : DependentGraph} {p : Path} :
    p.Among g.idle ↔ p.Among g.keys ∧ valuesAt p g.edges = [] := by
  constructor
  · rintro ⟨f, hf, hSame⟩
    obtain ⟨hKey, hNil⟩ := mem_idle_iff.1 hf
    rw [PathMap.valuesAt_congr hSame g.edges] at hNil
    exact ⟨⟨f, hKey, hSame⟩, hNil⟩
  · rintro ⟨⟨f, hKey, hSame⟩, hNil⟩
    rw [← PathMap.valuesAt_congr hSame g.edges] at hNil
    exact ⟨f, mem_idle_iff.2 ⟨hKey, hNil⟩, hSame⟩

theorem contains_collect_of_mem_idle {g : DependentGraph} {f : Path} (hf : f ∈ g.idle) :
    (collect g.edges).contains f = false := by
  rw [← PathMap.get?_eq_none_iff, PathMap.get?_collect, if_pos (mem_idle_iff.1 hf).2]

/-- The dependencies of each file are the files that list it, which may be none. -/
theorem dependencies_spec (g : DependentGraph) :
    ∃ g', g.dependencies = .ok g' ∧
      (∀ p targets, g'.get? p = some targets ↔
        targets = valuesAt p g.edges ∧ (targets ≠ [] ∨ p.Among g.keys)) ∧
      ∀ k ∈ g'.keys, k ∈ g.idle ∨ ∃ target, (k, target) ∈ g.edges := by
  have hApart : g.idle.Pairwise fun p q => p.same q = false := PathMap.pairwise_keys g _
  obtain ⟨g', hOk, hGet, hKeys⟩ := addIdle_spec hApart fun f hf => contains_collect_of_mem_idle hf
  refine ⟨g', hOk, fun p targets => ?_, fun k hk => ?_⟩
  · rw [hGet]
    by_cases hNil : valuesAt p g.edges = []
    · by_cases hKey : p.Among g.keys
      · rw [if_pos (among_idle_iff.2 ⟨hKey, hNil⟩), hNil]
        constructor
        · rintro ⟨⟩
          exact ⟨rfl, .inr hKey⟩
        · rintro ⟨rfl, _⟩
          rfl
      · rw [if_neg fun h => hKey (among_idle_iff.1 h).1, PathMap.get?_collect, if_pos hNil, hNil]
        constructor
        · intro h
          cases h
        · rintro ⟨rfl, h | h⟩
          · exact absurd rfl h
          · exact absurd h hKey
    · rw [if_neg fun h => hNil (among_idle_iff.1 h).2, PathMap.get?_collect, if_neg hNil,
        Option.some.injEq]
      constructor
      · rintro rfl
        exact ⟨rfl, .inl hNil⟩
      · rintro ⟨rfl, _⟩
        rfl
  · rcases hKeys k hk with hk | hk
    · exact .inl hk
    · obtain ⟨⟨file, target⟩, he, rfl⟩ := PathMap.mem_keys_collect hk
      exact .inr ⟨target, he⟩

/-! ## Some of the keys -/

theorem mem_restrict_iff {g : DependentGraph} {files : List Path} {e : Path × Dependents} :
    e ∈ (g.restrict files).entries ↔ e ∈ g.entries ∧ e.1.Among files := by
  rw [← Path.any_same_iff]
  exact List.mem_filter

theorem mem_edges_restrict {g : DependentGraph} {files : List Path} {e : Path × Path} :
    e ∈ (g.restrict files).edges ↔ e ∈ g.edges ∧ e.2.Among files := by
  obtain ⟨x, y⟩ := e
  rw [mem_edges, mem_edges]
  constructor
  · rintro ⟨d, he, hx⟩
    obtain ⟨he, hAmong⟩ := mem_restrict_iff.1 he
    exact ⟨⟨d, he, hx⟩, hAmong⟩
  · rintro ⟨⟨d, he, hx⟩, hy⟩
    exact ⟨d, mem_restrict_iff.2 ⟨he, hy⟩, hx⟩

theorem restrict_eq_self {g : DependentGraph} {files : List Path}
    (h : ∀ k ∈ g.keys, k.Among files) : g.restrict files = g := by
  refine PathMap.eq_of_mem_entries_iff fun e => mem_restrict_iff.trans (and_iff_left_of_imp ?_)
  intro he
  exact h e.1 (PathMap.mem_keys_iff.2 ⟨e.2, he⟩)

/-! ## From dependencies to dependents -/

/-- The files listed at a path, none if it is no key. -/
def filesAt (g : DependentGraph) (p : Path) : List Path := ((g.get? p).map (·.files)).getD []

theorem filesAt_of_get? {g : DependentGraph} {p : Path} {d : Dependents} (h : g.get? p = some d) :
    g.filesAt p = d.files := by
  rw [filesAt, h]
  rfl

/-- Whether the digests in a graph are those that a memo knows. -/
def Dated (m : Memo) (g : DependentGraph) : Prop :=
  ∀ p d, g.get? p = some d → m.known.get? p = some d.digest

theorem Dated.reaches {read : Path → Except FileError Bytes} {ps : List Path} {m m' : Memo}
    {g : DependentGraph} (h : g.Dated m) (hReaches : Memo.Reaches read ps m m') : g.Dated m' :=
  fun p d hp => hReaches.known (h p d hp)

theorem dated_insert {m : Memo} {g : DependentGraph} (h : g.Dated m) {p : Path} {d : Dependents}
    (hp : m.known.get? p = some d.digest) : Dated m (g.insert p d) := by
  intro q e hq
  rw [PathMap.get?_insert] at hq
  cases hSame : p.same q with
  | true =>
    rw [hSame, if_pos rfl, Option.some.injEq] at hq
    rw [← PathMap.get?_congr m.known hSame, ← hq]
    exact hp
  | false =>
    rw [hSame] at hq
    exact h q e hq

section addDependent

variable {g : DependentGraph} {file target : Path} (h : g.contains target = true)

include h

theorem exists_addDependent : ∃ d, g.get? target = some d ∧ ∀ f,
    g.addDependent f target = g.insert target { d with files := d.files ++ [f] } := by
  obtain ⟨d, hd⟩ := PathMap.contains_iff_get?.1 h
  exact ⟨d, hd, fun f => by rw [addDependent, hd]⟩

theorem contains_addDependent (p : Path) :
    (g.addDependent file target).contains p = g.contains p := by
  obtain ⟨d, _, hEq⟩ := exists_addDependent h
  rw [hEq, Bool.eq_iff_iff, PathMap.contains_insert]
  constructor
  · rintro (hSame | hp)
    · rw [← PathMap.contains_congr g hSame]
      exact h
    · exact hp
  · exact .inr

theorem filesAt_addDependent (p : Path) :
    (g.addDependent file target).filesAt p =
      g.filesAt p ++ if target.same p then [file] else [] := by
  obtain ⟨d, hd, hEq⟩ := exists_addDependent h
  rw [hEq, filesAt, filesAt, PathMap.get?_insert]
  cases hSame : target.same p with
  | true =>
    rw [← PathMap.get?_congr g hSame, hd]
    rfl
  | false =>
    rw [if_neg (by decide), if_neg (by decide), List.append_nil]

theorem dated_addDependent {m : Memo} (hDated : g.Dated m) :
    (g.addDependent file target).Dated m := by
  obtain ⟨d, hd, hEq⟩ := exists_addDependent h
  rw [hEq]
  refine dated_insert hDated ?_
  exact hDated target d hd

theorem mem_keys_addDependent {k : Path} (hk : k ∈ (g.addDependent file target).keys) :
    k = target ∨ k ∈ g.keys := by
  obtain ⟨d, _, hEq⟩ := exists_addDependent h
  rw [hEq] at hk
  exact PathMap.mem_keys_insert hk

end addDependent

theorem filesAt_insert_nil {g : DependentGraph} {target : Path} (h : g.contains target = false)
    (d : Digest) (p : Path) : filesAt (g.insert target ⟨d, []⟩) p = g.filesAt p := by
  rw [filesAt, filesAt, PathMap.get?_insert]
  cases hSame : target.same p with
  | true =>
    rw [← PathMap.get?_congr g hSame, PathMap.get?_eq_none_iff.2 h]
    rfl
  | false => rfl

end DependentGraph

namespace DependencyGraph

open DependentGraph (Dated filesAt)

section dependentsFrom

variable {isFile : Path → Bool} {read : Path → Except FileError Bytes}

/-- What is known of a graph of dependents after edges are added to one. -/
structure EdgesAdded (read : Path → Except FileError Bytes) (edges : List (Path × Path))
    (m m' : Memo) (g g' : DependentGraph) : Prop where
  reaches : Memo.Reaches read (edges.map (·.2)) m m'
  dated : g.Dated m → g'.Dated m'
  contains_iff : ∀ p, g'.contains p = true ↔
    g.contains p = true ∨ ∃ e ∈ edges, e.2.same p = true
  filesAt_eq : ∀ p, g'.filesAt p = g.filesAt p ++ valuesAt p (edges.map Prod.swap)
  mem_keys : ∀ k ∈ g'.keys, k ∈ g.keys ∨ ∃ e ∈ edges, e.2 = k

theorem EdgesAdded.cons {file target : Path} {rest : List (Path × Path)}
    {m m₁ m' : Memo} {g g₁ g' : DependentGraph} (hReaches : Memo.Reaches read [target] m m₁)
    (hDated : g.Dated m → g₁.Dated m₁)
    (hContains : ∀ p, g₁.contains p = true ↔ g.contains p = true ∨ target.same p = true)
    (hFiles : ∀ p, g₁.filesAt p = g.filesAt p ++ if target.same p then [file] else [])
    (hKeys : ∀ k ∈ g₁.keys, k = target ∨ k ∈ g.keys) (h : EdgesAdded read rest m₁ m' g₁ g') :
    EdgesAdded read ((file, target) :: rest) m m' g g' := by
  refine ⟨?_, fun hg => h.dated (hDated hg), fun p => ?_, fun p => ?_, fun k hk => ?_⟩
  · exact (hReaches.mono (by simp)).trans (h.reaches.mono fun p hp => List.mem_cons_of_mem _ hp)
  · rw [h.contains_iff, hContains, or_assoc]
    simp only [List.mem_cons, exists_eq_or_imp]
  · rw [h.filesAt_eq, hFiles, List.map_cons, PathMap.valuesAt_cons, Prod.fst_swap, Prod.snd_swap]
    cases target.same p with
    | true => rw [if_pos rfl, if_pos rfl, List.append_assoc]; rfl
    | false => rw [if_neg (by decide), if_neg (by decide), List.append_nil]
  · rcases h.mem_keys k hk with hk | ⟨e, he, hk⟩
    · rcases hKeys k hk with rfl | hk
      · exact .inr ⟨_, List.mem_cons_self, rfl⟩
      · exact .inl hk
    · exact .inr ⟨e, List.mem_cons_of_mem _ he, hk⟩

theorem reaches_digestFrom {m m₁ : Memo} {p : Path} {x : Except CacheError Digest}
    (h : m.digestFrom read p = (m₁, x)) : Memo.Reaches read [p] m m₁ := by
  have hStep : Memo.Reaches read [p] m (m.digestFrom read p).1 :=
    .digest .refl (List.mem_singleton_self p)
  rwa [h] at hStep

theorem addEdges_spec {edges : List (Path × Path)} {m m' : Memo}
    {g g' : DependentGraph} (h : addEdges read edges m g = (m', .ok g')) :
    EdgesAdded read edges m m' g g' := by
  induction edges generalizing m g with
  | nil =>
    cases h
    exact ⟨.refl, id, fun p => by simp, fun p => (List.append_nil _).symm, fun _ hk => .inl hk⟩
  | cons e rest ih =>
    obtain ⟨file, target⟩ := e
    rw [addEdges] at h
    cases hTarget : g.contains target with
    | true =>
      rw [hTarget, if_pos rfl] at h
      refine .cons .refl (fun hg => DependentGraph.dated_addDependent hTarget hg) (fun p => ?_)
        (DependentGraph.filesAt_addDependent hTarget)
        (fun k => DependentGraph.mem_keys_addDependent hTarget) (ih h)
      rw [DependentGraph.contains_addDependent hTarget]
      constructor
      · exact .inl
      · rintro (hp | hSame)
        · exact hp
        · rw [← PathMap.contains_congr g hSame]
          exact hTarget
    | false =>
      rw [hTarget, if_neg (by decide)] at h
      cases hDigest : m.digestFrom read target with
      | mk m₁ outcome =>
      rw [hDigest] at h
      cases outcome with
      | error e => cases h
      | ok d =>
        have hReaches := reaches_digestFrom hDigest
        have hNew : (PathMap.insert g target ⟨d, []⟩).contains target = true :=
          PathMap.contains_insert.2 (.inl (same_self target))
        refine .cons hReaches (fun hg => ?_) (fun p => ?_) (fun p => ?_) (fun k hk => ?_) (ih h)
        · exact DependentGraph.dated_addDependent hNew
            (DependentGraph.dated_insert (hg.reaches hReaches) (Memo.known_of_digestFrom hDigest))
        · rw [DependentGraph.contains_addDependent hNew, PathMap.contains_insert, or_comm]
        · rw [DependentGraph.filesAt_addDependent hNew, DependentGraph.filesAt_insert_nil hTarget]
        · rcases DependentGraph.mem_keys_addDependent hNew hk with hk | hk
          · exact .inl hk
          · exact PathMap.mem_keys_insert hk

/-- Adding edges fails at the first target of which no digest can be had: the edges before it can be
added. -/
theorem exists_split_of_addEdges_error {edges : List (Path × Path)} {m m' : Memo}
    {g : DependentGraph} {x : CacheError} (h : addEdges read edges m g = (m', .error x)) :
    ∃ before e after, edges = before ++ e :: after ∧
      (∃ m₁ g₁, addEdges read before m g = (m₁, .ok g₁)) ∧
      (m.digestFrom read e.2).2 = .error x := by
  induction edges generalizing m g with
  | nil => cases h
  | cons first rest ih =>
    obtain ⟨file, target⟩ := first
    rw [addEdges] at h
    cases hTarget : g.contains target with
    | true =>
      rw [hTarget, if_pos rfl] at h
      obtain ⟨before, e, after, rfl, ⟨m₁, g₁, hAdded⟩, hError⟩ := ih h
      refine ⟨(file, target) :: before, e, after, rfl, ⟨m₁, g₁, ?_⟩, hError⟩
      rw [addEdges, hTarget, if_pos rfl, hAdded]
    | false =>
      rw [hTarget, if_neg (by decide)] at h
      cases hDigest : m.digestFrom read target with
      | mk m₁ outcome =>
      rw [hDigest] at h
      cases outcome with
      | error y =>
        cases h
        exact ⟨[], (file, target), rest, rfl, ⟨m, g, rfl⟩, by rw [hDigest]⟩
      | ok d =>
        obtain ⟨before, e, after, rfl, ⟨m₂, g₂, hAdded⟩, hError⟩ := ih h
        refine ⟨(file, target) :: before, e, after, rfl, ⟨m₂, g₂, ?_⟩,
          (reaches_digestFrom hDigest).error hError⟩
        rw [addEdges, hTarget, if_neg (by decide), hDigest]
        exact hAdded

/-- Whether of every one of some paths a digest can be had, in one of the spellings that it has
there. -/
def Answered (read : Path → Except FileError Bytes) (m : Memo) (ps : List Path) : Prop :=
  ∀ p ∈ ps, ∃ q ∈ ps, q.same p = true ∧ ∃ d, (m.digestFrom read q).2 = .ok d

theorem Answered.append {m : Memo} {ps qs : List Path} (hp : Answered read m ps)
    (hq : Answered read m qs) : Answered read m (ps ++ qs) := by
  intro p h
  rcases List.mem_append.1 h with h | h
  · obtain ⟨q, hMem, hRest⟩ := hp p h
    exact ⟨q, List.mem_append_left _ hMem, hRest⟩
  · obtain ⟨q, hMem, hRest⟩ := hq p h
    exact ⟨q, List.mem_append_right _ hMem, hRest⟩

/-- Of every target some spelling has been read, unless it had an entry. -/
theorem exists_target_of_addEdges {edges : List (Path × Path)} {m m' : Memo}
    {g g' : DependentGraph} (h : addEdges read edges m g = (m', .ok g')) {e : Path × Path}
    (he : e ∈ edges) :
    g.contains e.2 = true ∨ ∃ e' ∈ edges, e'.2.same e.2 = true ∧
      ∃ d, (m.digestFrom read e'.2).2 = .ok d := by
  induction edges generalizing m g with
  | nil => cases he
  | cons first rest ih =>
    obtain ⟨file, target⟩ := first
    rw [addEdges] at h
    cases hTarget : g.contains target with
    | true =>
      rw [hTarget, if_pos rfl] at h
      rcases List.mem_cons.1 he with rfl | he
      · exact .inl hTarget
      · rcases ih h he with hContains | ⟨e', he', hRead⟩
        · rw [DependentGraph.contains_addDependent hTarget] at hContains
          exact .inl hContains
        · exact .inr ⟨e', List.mem_cons_of_mem _ he', hRead⟩
    | false =>
      rw [hTarget, if_neg (by decide)] at h
      cases hDigest : m.digestFrom read target with
      | mk m₁ outcome =>
      rw [hDigest] at h
      cases outcome with
      | error x => cases h
      | ok d =>
        have hFirst : ∃ d, (m.digestFrom read target).2 = .ok d := ⟨d, by rw [hDigest]⟩
        have hNew : (PathMap.insert g target ⟨d, []⟩).contains target = true :=
          PathMap.contains_insert.2 (.inl (same_self target))
        rcases List.mem_cons.1 he with rfl | he
        · exact .inr ⟨_, List.mem_cons_self, same_self _, hFirst⟩
        · rcases ih h he with hContains | ⟨e', he', hSame, d', hRead⟩
          · rw [DependentGraph.contains_addDependent hNew, PathMap.contains_insert] at hContains
            rcases hContains with hSame | hContains
            · exact .inr ⟨_, List.mem_cons_self, hSame, hFirst⟩
            · exact .inl hContains
          · -- What was read later on may be known from the first target, in another spelling.
            cases hTargetSame : target.same e'.2 with
            | true => exact .inr ⟨_, List.mem_cons_self, same_trans hTargetSame hSame, hFirst⟩
            | false =>
              have hAnswer : ((m.digestFrom read target).1.digestFrom read e'.2).2 =
                  (m.digestFrom read e'.2).2 :=
                Memo.digestFrom_digestFrom fun h => by rw [hTargetSame] at h; cases h
              rw [hDigest, hRead] at hAnswer
              exact .inr ⟨e', List.mem_cons_of_mem _ he', hSame, d', hAnswer.symm⟩

/-- What is known of a graph of dependents after an entry is added for each of some files. -/
structure IndependentAdded (isFile : Path → Bool) (read : Path → Except FileError Bytes)
    (fs : List Path) (m m' : Memo) (g g' : DependentGraph) : Prop where
  reaches : Memo.Reaches read fs m m'
  dated : g.Dated m → g'.Dated m'
  contains_iff : ∀ p, g'.contains p = true ↔ g.contains p = true ∨ p.Among (fs.filter isFile)
  filesAt_eq : ∀ p, g'.filesAt p = g.filesAt p
  mem_keys : ∀ k ∈ g'.keys, k ∈ g.keys ∨ k ∈ fs.filter isFile
  answered : ∀ f ∈ fs.filter isFile, ∃ d, (m.digestFrom read f).2 = .ok d

variable (isFile read) in
/-- Files are added up to the first one that is there and of which no digest can be had. -/
theorem addIndependent_cases {fs : List Path} {g : DependentGraph} (m : Memo)
    (hApart : fs.Pairwise fun p q => p.same q = false) (hNew : ∀ f ∈ fs, g.contains f = false) :
    (∃ m' g', addIndependent isFile read fs m g = (m', .ok g') ∧
        IndependentAdded isFile read fs m m' g g') ∨
      ∃ m' x, addIndependent isFile read fs m g = (m', .error x) ∧
        ∃ before f after, fs.filter isFile = before ++ f :: after ∧
          (∀ k ∈ before, ∃ d, (m.digestFrom read k).2 = .ok d) ∧
          (m.digestFrom read f).2 = .error x := by
  induction fs generalizing m g with
  | nil =>
    exact .inl ⟨m, g, rfl, .refl, id, fun p => by simp, fun _ => rfl, fun _ hk => .inl hk,
      fun f hf => by cases hf⟩
  | cons f rest ih =>
    rw [List.pairwise_cons] at hApart
    have hNewRest : ∀ k ∈ rest, g.contains k = false := fun k hk =>
      hNew k (List.mem_cons_of_mem f hk)
    rw [addIndependent, hNew f List.mem_cons_self, if_neg (by decide)]
    by_cases hFile : isFile f = true
    · rw [if_pos hFile, List.filter_cons_of_pos hFile]
      cases hDigest : m.digestFrom read f with
      | mk m₁ outcome =>
      cases outcome with
      | error x =>
        exact .inr ⟨m₁, x, rfl, [], f, _, rfl, fun _ hk => (by cases hk), by rw [hDigest]⟩
      | ok d =>
        have hReaches := reaches_digestFrom hDigest
        have hAnswer : ∀ k ∈ rest.filter isFile,
            (m₁.digestFrom read k).2 = (m.digestFrom read k).2 := by
          intro k hk
          refine hReaches.digestFrom_eq fun p hp hSame => ?_
          rw [List.mem_singleton.1 hp, hApart.1 k (List.mem_of_mem_filter hk)] at hSame
          cases hSame
        have hFirst : ∃ d, (m.digestFrom read f).2 = .ok d := ⟨d, by rw [hDigest]⟩
        have hNewInsert : ∀ k ∈ rest, (g.insert f ⟨d, []⟩).contains k = false := by
          intro k hk
          rw [Bool.eq_false_iff]
          intro hContains
          rcases PathMap.contains_insert.1 hContains with hSame | hOld
          · rw [hApart.1 k hk] at hSame
            cases hSame
          · rw [hNewRest k hk] at hOld
            cases hOld
        rcases ih m₁ hApart.2 hNewInsert with
          ⟨m', g', hOk, h⟩ | ⟨m', x, hError, before, k, after, hSplit, hBefore, hx⟩
        · refine .inl ⟨m', g', hOk, ?_, fun hg => ?_, fun p => ?_, fun p => ?_, fun k hk => ?_,
            fun k hk => ?_⟩
          · exact (hReaches.mono (by simp)).trans
              (h.reaches.mono fun p hp => List.mem_cons_of_mem f hp)
          · exact h.dated
              (DependentGraph.dated_insert (hg.reaches hReaches) (Memo.known_of_digestFrom hDigest))
          · rw [h.contains_iff, PathMap.contains_insert, List.filter_cons_of_pos hFile,
              Path.among_cons_iff, or_comm (a := f.same p = true), or_assoc]
          · rw [h.filesAt_eq, DependentGraph.filesAt_insert_nil (hNew f List.mem_cons_self)]
          · rw [List.filter_cons_of_pos hFile]
            rcases h.mem_keys k hk with hk | hk
            · rcases PathMap.mem_keys_insert hk with rfl | hk
              · exact .inr List.mem_cons_self
              · exact .inl hk
            · exact .inr (List.mem_cons_of_mem f hk)
          · rw [List.filter_cons_of_pos hFile] at hk
            rcases List.mem_cons.1 hk with rfl | hk
            · exact hFirst
            · rw [← hAnswer k hk]
              exact h.answered k hk
        · rw [hSplit] at hAnswer
          rw [hAnswer k (by simp)] at hx
          refine .inr ⟨m', x, hError, f :: before, k, after, ?_, fun q hq => ?_, hx⟩
          · rw [hSplit, List.cons_append]
          · rcases List.mem_cons.1 hq with rfl | hq
            · exact hFirst
            · rw [← hAnswer q (List.mem_append_left _ hq)]
              exact hBefore q hq
    · rw [if_neg hFile, List.filter_cons_of_neg hFile]
      rcases ih m hApart.2 hNewRest with ⟨m', g', hOk, h⟩ | ⟨m', x, hError, hRest⟩
      · refine .inl ⟨m', g', hOk, h.reaches.mono fun p hp => List.mem_cons_of_mem f hp, h.dated,
          fun p => ?_, h.filesAt_eq, fun k hk => ?_, ?_⟩
        · rw [h.contains_iff, List.filter_cons_of_neg hFile]
        · rw [List.filter_cons_of_neg hFile]
          exact h.mem_keys k hk
        · rw [List.filter_cons_of_neg hFile]
          exact h.answered
      · exact .inr ⟨m', x, hError, hRest⟩

end dependentsFrom

/-- Puts the dependents of each file in order. -/
def sortFiles (g : DependentGraph) : DependentGraph :=
  g.map fun d => { d with files := sortedPaths d.files }

theorem filesAt_sortFiles (g : DependentGraph) (p : Path) :
    (sortFiles g).filesAt p = sortedPaths (g.filesAt p) := by
  rw [filesAt, filesAt, sortFiles, PathMap.get?_map]
  cases PathMap.get? g p <;> rfl

theorem mem_valuesAt_swap {edges : List (Path × Path)} {p q : Path} :
    q ∈ valuesAt p (edges.map Prod.swap) ↔ ∃ e ∈ edges, e.2.same p = true ∧ e.1 = q := by
  rw [PathMap.mem_valuesAt]
  constructor
  · rintro ⟨k, hk, hSame⟩
    obtain ⟨e, he, hEq⟩ := List.mem_map.1 hk
    cases hEq
    exact ⟨e, he, hSame, rfl⟩
  · rintro ⟨e, he, hSame, rfl⟩
    exact ⟨e.2, List.mem_map.2 ⟨e, he, rfl⟩, hSame⟩

/-- What is known of the dependents that some dependencies are turned into. -/
structure Inverts (isFile : Path → Bool) (m : Memo) (g : DependencyGraph) (g' : DependentGraph) :
    Prop where
  dated : g'.Dated m
  contains_iff : ∀ p, g'.contains p = true ↔
    (∃ e ∈ g.edges, e.2.same p = true) ∨ p.Among (g.keys.filter isFile)
  mem_filesAt : ∀ p, ∀ q ∈ g'.filesAt p, ∃ e ∈ g.edges, e.2.same p = true ∧ e.1 = q
  among_filesAt : ∀ e ∈ g.edges, ∀ p, e.2.same p = true → e.1.Among (g'.filesAt p)
  mem_keys : ∀ k ∈ g'.keys, (∃ e ∈ g.edges, e.2 = k) ∨ k ∈ g.keys ∧ isFile k = true

/-- What is known of how dependents are spelled and ordered. -/
structure Spells (isFile : Path → Bool) (g : DependencyGraph) (g' : DependentGraph) : Prop where
  sorted : ∀ p, (g'.filesAt p).Pairwise fun q r => compare q r = .lt
  mem_keys : ∀ k ∈ g'.keys, (∃ e ∈ g.edges, e.2 = k) ∨
    k ∈ g.keys ∧ isFile k = true ∧ ¬ ∃ e ∈ g.edges, e.2.same k = true

/-- The keys that nothing depends on. -/
def independent (g : DependencyGraph) : List Path :=
  g.keys.filter fun f => !g.edges.any fun e => e.2.same f

theorem mem_independent_iff {g : DependencyGraph} {f : Path} :
    f ∈ g.independent ↔ f ∈ g.keys ∧ ¬ ∃ e ∈ g.edges, e.2.same f = true := by
  rw [independent, List.mem_filter, Bool.not_eq_true', Bool.eq_false_iff, ne_eq, List.any_eq_true]

/-- The files whose digests are asked for, in this order: what files depend on as it is listed, and
then the files that are there and that nothing depends on. -/
def asked (isFile : Path → Bool) (g : DependencyGraph) : List Path :=
  g.edges.map (·.2) ++ g.independent.filter isFile

theorem mem_asked_iff {isFile : Path → Bool} {g : DependencyGraph} {p : Path} :
    p ∈ g.asked isFile ↔ p ∈ g.edges.map (·.2) ∨ p ∈ g.independent ∧ isFile p = true := by
  rw [asked, List.mem_append, List.mem_filter]

/-- What turning round comes to, if it succeeds: of every file that it asks for a digest could be
had. -/
structure TurnsInto (isFile : Path → Bool) (read : Path → Except FileError Bytes) (m m' : Memo)
    (g : DependencyGraph) (g' : DependentGraph) : Prop where
  reaches : Memo.Reaches read (g.edges.map (·.2) ++ g.independent) m m'
  inverts : Inverts isFile m' g g'
  spells : Spells isFile g g'
  answered : Answered read m (g.asked isFile)

/-- Of the targets of edges that could be added to nothing, digests can be had. -/
theorem answered_of_addEdges {read : Path → Except FileError Bytes} {edges : List (Path × Path)}
    {m m' : Memo} {g : DependentGraph} (h : addEdges read edges m .empty = (m', .ok g)) :
    Answered read m (edges.map (·.2)) := by
  intro p hp
  obtain ⟨e, he, rfl⟩ := List.mem_map.1 hp
  rcases exists_target_of_addEdges h he with hNone | ⟨e', he', hSame, hOk⟩
  · cases hNone
  · exact ⟨e'.2, List.mem_map_of_mem he', hSame, hOk⟩

/-- Turning round succeeds, or it fails at the first of the files that it asks for of which no digest
can be had. -/
theorem dependentsFrom_cases (isFile : Path → Bool) (read : Path → Except FileError Bytes)
    (m : Memo) (g : DependencyGraph) :
    (∃ m' g', g.dependentsFrom isFile read m = (m', .ok g') ∧ TurnsInto isFile read m m' g g') ∨
      ∃ m' x, g.dependentsFrom isFile read m = (m', .error x) ∧
        ∃ before p after, g.asked isFile = before ++ p :: after ∧ Answered read m before ∧
          (m.digestFrom read p).2 = .error x := by
  rw [dependentsFrom]
  cases hEdges : addEdges read g.edges m .empty with
  | mk m₁ outcome =>
  cases outcome with
  | error x =>
    obtain ⟨before, e, after, hSplit, ⟨m₂, g₂, hBefore⟩, hx⟩ := exists_split_of_addEdges_error hEdges
    refine .inr ⟨m₁, x, rfl, before.map (·.2), e.2,
      after.map (·.2) ++ g.independent.filter isFile, ?_, answered_of_addEdges hBefore, hx⟩
    rw [asked, hSplit, List.map_append, List.map_cons, List.append_assoc, List.cons_append]
  | ok found =>
    have hFound := addEdges_spec hEdges
    have hNew : ∀ f ∈ g.independent, found.contains f = false := by
      intro f hf
      rw [← Bool.not_eq_true, hFound.contains_iff]
      rintro (h | h)
      · cases h
      · exact (mem_independent_iff.1 hf).2 h
    -- What has been read so far are targets, so nothing new is known of the others.
    have hAnswer : ∀ f ∈ g.independent.filter isFile,
        (m₁.digestFrom read f).2 = (m.digestFrom read f).2 := by
      intro f hf
      refine hFound.reaches.digestFrom_eq fun p hp hSame => ?_
      obtain ⟨e, he, rfl⟩ := List.mem_map.1 hp
      exact absurd ⟨e, he, hSame⟩ (mem_independent_iff.1 (List.mem_of_mem_filter hf)).2
    rcases addIndependent_cases isFile read m₁ (PathMap.pairwise_keys g _) hNew with
      ⟨m', all, hOk, hAll⟩ | ⟨m', x, hError, before, f, after, hSplit, hBefore, hx⟩
    · left
      have hFiles : ∀ p, (sortFiles all).filesAt p =
          sortedPaths (valuesAt p (g.edges.map Prod.swap)) := by
        intro p
        rw [filesAt_sortFiles, hAll.filesAt_eq, hFound.filesAt_eq]
        rfl
      have hSpells : Spells isFile g (sortFiles all) := by
        constructor
        · intro p
          rw [hFiles]
          exact pairwise_sortedPaths _
        · intro k hk
          rw [sortFiles, PathMap.keys_map] at hk
          rcases hAll.mem_keys k hk with hk | hk
          · rcases hFound.mem_keys k hk with hk | hk
            · cases hk
            · exact .inl hk
          · obtain ⟨hk, hFile⟩ := List.mem_filter.1 hk
            obtain ⟨hKey, hNone⟩ := mem_independent_iff.1 hk
            exact .inr ⟨hKey, hFile, hNone⟩
      have hReaches : Memo.Reaches read (g.edges.map (·.2) ++ g.independent) m m' :=
        (hFound.reaches.mono fun p hp => List.mem_append_left _ hp).trans
          (hAll.reaches.mono fun p hp => List.mem_append_right _ hp)
      refine ⟨m', sortFiles all, by simp only [hOk, sortFiles], hReaches,
        ⟨fun p d hd => ?_, fun p => ?_, fun p q hq => ?_, fun e he p hSame => ?_, fun k hk => ?_⟩,
        hSpells, (answered_of_addEdges hEdges).append fun f hf => ?_⟩
      · rw [sortFiles, PathMap.get?_map] at hd
        obtain ⟨d', hd', rfl⟩ := Option.map_eq_some_iff.1 hd
        exact hAll.dated (hFound.dated fun p d h => by cases h) p d' hd'
      · rw [sortFiles, PathMap.contains_map, hAll.contains_iff, hFound.contains_iff]
        constructor
        · rintro ((h | h) | ⟨k, hk, hSame⟩)
          · cases h
          · exact .inl h
          · obtain ⟨hk, hFile⟩ := List.mem_filter.1 hk
            exact .inr ⟨k, List.mem_filter.2 ⟨(mem_independent_iff.1 hk).1, hFile⟩, hSame⟩
        · rintro (h | ⟨k, hk, hSame⟩)
          · exact .inl (.inr h)
          · obtain ⟨hk, hFile⟩ := List.mem_filter.1 hk
            by_cases hEdge : ∃ e ∈ g.edges, e.2.same k = true
            · obtain ⟨e, he, hTarget⟩ := hEdge
              exact .inl (.inr ⟨e, he, same_trans hTarget hSame⟩)
            · have hIndependent := mem_independent_iff.2 ⟨hk, hEdge⟩
              exact .inr ⟨k, List.mem_filter.2 ⟨hIndependent, hFile⟩, hSame⟩
      · rw [hFiles] at hq
        exact mem_valuesAt_swap.1 (mem_of_mem_sortedPaths hq)
      · rw [hFiles, among_sortedPaths_iff]
        exact Path.among_of_mem (mem_valuesAt_swap.2 ⟨e, he, hSame, rfl⟩)
      · exact (hSpells.mem_keys k hk).imp_right fun h => ⟨h.1, h.2.1⟩
      · obtain ⟨d, hd⟩ := hAll.answered f hf
        rw [hAnswer f hf] at hd
        exact ⟨f, hf, same_self f, d, hd⟩
    · have hSplit : g.independent.filter isFile = before ++ f :: after := hSplit
      have hAsked : g.asked isFile = (g.edges.map (·.2) ++ before) ++ f :: after := by
        rw [asked, hSplit, List.append_assoc]
      rw [hSplit] at hAnswer
      rw [hAnswer f (by simp)] at hx
      refine .inr ⟨m', x, by simp only [hError], _, f, after, hAsked,
        (answered_of_addEdges hEdges).append fun k hk => ?_, hx⟩
      obtain ⟨d, hd⟩ := hBefore k hk
      rw [hAnswer k (List.mem_append_left _ hk)] at hd
      exact ⟨k, hk, same_self k, d, hd⟩

theorem turnsInto_of_dependentsFrom {isFile : Path → Bool} {read : Path → Except FileError Bytes}
    {m m' : Memo} {g : DependencyGraph} {g' : DependentGraph}
    (h : g.dependentsFrom isFile read m = (m', .ok g')) : TurnsInto isFile read m m' g g' := by
  rcases dependentsFrom_cases isFile read m g with ⟨m₁, g₁, hEq, hTurns⟩ | ⟨m₁, x, hEq, _⟩
  · rw [hEq] at h
    cases h
    exact hTurns
  · rw [hEq] at h
    cases h

/-- The dependents of each file, if the files that others depend on could all be read. -/
theorem dependents_spec {t : FileTree} {m m' : Memo} {g : DependencyGraph} {g' : DependentGraph}
    (h : g.dependents t m = (m', .ok g')) : Memo.Grows t m m' ∧ Inverts t.isFile m' g g' :=
  ⟨(turnsInto_of_dependentsFrom h).reaches.grows, (turnsInto_of_dependentsFrom h).inverts⟩

theorem spells_dependents {t : FileTree} {m m' : Memo} {g : DependencyGraph} {g' : DependentGraph}
    (h : g.dependents t m = (m', .ok g')) : Spells t.isFile g g' :=
  (turnsInto_of_dependentsFrom h).spells

/-- Turning round succeeds if digests can be had of the files that others depend on and of the other
ones that are there. -/
theorem exists_dependentsFrom {isFile : Path → Bool} {read : Path → Except FileError Bytes}
    {m : Memo} {g : DependencyGraph}
    (hTargets : ∀ e ∈ g.edges, ∃ d, (m.digestFrom read e.2).2 = .ok d)
    (hKeys : ∀ k ∈ g.keys, isFile k = true → ∃ d, (m.digestFrom read k).2 = .ok d) :
    ∃ m' g', g.dependentsFrom isFile read m = (m', .ok g') := by
  rcases dependentsFrom_cases isFile read m g with
    ⟨m', g', hEq, _⟩ | ⟨m', x, _, before, p, after, hSplit, _, hx⟩
  · exact ⟨m', g', hEq⟩
  · have hAnswer : ∃ d, (m.digestFrom read p).2 = .ok d := by
      have hp : p ∈ g.asked isFile := by
        rw [hSplit]
        exact List.mem_append_right _ List.mem_cons_self
      rcases mem_asked_iff.1 hp with hp | ⟨hp, hFile⟩
      · obtain ⟨e, he, rfl⟩ := List.mem_map.1 hp
        exact hTargets e he
      · exact hKeys p (mem_independent_iff.1 hp).1 hFile
    obtain ⟨d, hd⟩ := hAnswer
    rw [hd] at hx
    cases hx

theorem exists_dependents {t : FileTree} {g : DependencyGraph}
    (h : ∀ e ∈ g.edges, t.isFile e.2 = true) (m : Memo) :
    ∃ m' g', g.dependents t m = (m', .ok g') :=
  exists_dependentsFrom (fun e he => Memo.exists_digest (h e he) m)
    (fun _ _ hFile => Memo.exists_digest hFile m)

end DependencyGraph

end AnalysisCache
