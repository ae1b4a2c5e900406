import AnalysisCache.Proofs.Run.Analyzer

/-!
# Incremental analysis is analysis from scratch

Whatever happened before, a run reports for each file what the analyzer says of it now. The
invariant behind it: a snapshot that can be loaded *describes* the files as they were at some time,
and of each file it knows its content, its errors and what it depended on then. A file that is not
scheduled has seen none of that change.

* `Snapshot.Describes`: the invariant on a snapshot.
* `Plan.Serves`: what a plan leaves out is as the analyzer would have it.
* `Turn.sound_after`: one run keeps the invariant.
* `Turn.outcome_from_scratch`: the report of a run after any history.
-/

namespace AnalysisCache

open AnalysisCache.Path (same_symm same_trans same_self same_congr_left)
open FileTree (Addressable addressable_of_isFile isFile_of_same digest?_of_same isFile_of_digest?)
open Diagnostic (Agree)
open DependentGraph (filesAt filesAt_of_get?)

/-! ## The invariant -/

/-- Whether a snapshot tells how the given files were, and what the analyzer said of them. -/
structure Snapshot.Describes (A : Analyzer) (s : Snapshot) (t : FileTree) : Prop where
  covered : ∀ e ∈ s.dependents.entries, A.covers s.fingerprint e.1
  digest : ∀ e ∈ s.dependents.entries, t.digest? e.1 = some e.2.digest
  dependents : ∀ p, ∀ f ∈ s.dependents.filesAt p, A.covers s.fingerprint f ∧ Addressable f
  filed : s.errors.Filed
  errors : ∀ e ∈ s.dependents.entries,
    Agree ((s.errors.get? e.1).getD []) (A.errors s.fingerprint t e.1)
  recorded : ∀ e ∈ s.dependents.entries, ∀ q ∈ A.dependencies s.fingerprint t e.1,
    e.1.Among (s.dependents.filesAt q)

/-- Whether the snapshot in the cache file, if there is one, describes how the files were. -/
def Sound (A : Analyzer) (c : Path) (t : FileTree) : Prop :=
  ∀ content s, Snapshot.cached t c = .ok content → Snapshot.ofContent? content = some s →
    ∃ u, s.Describes A u

theorem Sound.mono {A : Analyzer} {c : Path} {t u : FileTree} (h : Sound A c t)
    (hCache : ∀ content, Snapshot.cached u c = .ok content → Snapshot.cached t c = .ok content) :
    Sound A c u := fun content s hContent => h content s (hCache content hContent)

theorem Sound.of_load {A : Analyzer} {c : Path} {t : FileTree} (h : Sound A c t) {s : Snapshot}
    (hLoad : (Snapshot.load t c).2 = some s) : ∃ u, s.Describes A u := by
  obtain ⟨content, hRead, hSnapshot⟩ := Snapshot.load_eq_some_iff.1 hLoad
  exact h content s (Snapshot.cached_of_read hRead) hSnapshot

/-! ## What is left out of a schedule -/

section reuse

variable {A : Analyzer} {s : Snapshot} {t u : FileTree} {m : Memo} {files : List Path}
  {f : Fingerprint} (hA : A.Lawful) (hs : s.Describes A u) (hPrint : s.fingerprint.same f = true)
  (hm : m.Current t) (hCovered : ∀ p ∈ files, A.covers f p ∧ t.isFile p = true)
  (hComplete : ∀ p, A.covers f p → t.isFile p = true → p.Among files)

include hA hs

include hPrint hComplete in
/-- Nothing is scheduled but files of the project. -/
theorem Plan.among_files_of_among_schedule {p : Path}
    (h : p.Among (Plan.reuse t.isFile t.read m s files).2.schedule) : p.Among files := by
  rcases Plan.among_schedule_iff.1 h with ⟨hp, _⟩ | (hp | ⟨q, _, x, hx, hSame⟩) | ⟨_, hp, _⟩
  · exact hp
  · obtain ⟨d, q, _, hFind, _⟩ := hp
    exact ⟨q, List.mem_of_find?_eq_some hFind, Plan.same_of_find? hFind⟩
  · obtain ⟨hx, hFile⟩ := List.mem_filter.1 hx
    have hCover := hA.covers_congr hPrint (same_self x) (hs.dependents q x hx).1
    exact (Path.among_congr hSame).1 (hComplete x hCover hFile)
  · exact hp

include hm hCovered

/-- A file that is not scheduled, and a dependency of it, have not changed since the snapshot. -/
theorem Plan.unchanged_of_not_scheduled {p : Path} (hp : p ∈ files)
    (hNot : ¬ p.Among (Plan.reuse t.isFile t.read m s files).2.schedule) :
    ∃ e ∈ s.dependents.entries, e.1.same p = true ∧ u.digest? e.1 = t.digest? e.1 ∧
      ∀ q ∈ A.dependencies s.fingerprint u e.1, q.Among files ∧ u.digest? q = t.digest? q := by
  have hFiles : ∀ p ∈ files, t.isFile p = true := fun p hp => (hCovered p hp).2
  rw [Plan.among_schedule_iff] at hNot
  -- A key that is one of the files and has not changed has the recorded digest.
  have hDigest : ∀ q ∈ files, ¬ Plan.IsChanged t.read m s.dependents files q →
      ∀ e ∈ s.dependents.entries, e.1.same q = true → t.digest? e.1 = some e.2.digest := by
    intro q hq hSame e he hKey
    have hGet := PathMap.get?_of_mem he hKey
    rw [Plan.isChanged_iff hm hFiles hq hGet, not_not] at hSame
    exact digest?_of_same (addressable_of_isFile (isFile_of_digest? (hs.digest e he))) hKey hSame
  have hOld : s.dependents.contains p = true := by
    cases hContains : PathMap.contains s.dependents p with
    | true => rfl
    | false => exact absurd (.inl ⟨Path.among_of_mem hp, hContains⟩) hNot
  obtain ⟨d, hGet⟩ := PathMap.contains_iff_get?.1 hOld
  obtain ⟨k, he, hKey⟩ := PathMap.mem_of_get? hGet
  have hSame : ¬ Plan.IsChanged t.read m s.dependents files p := fun h => hNot (.inr (.inl (.inl h)))
  refine ⟨(k, d), he, hKey, ?_, fun q hq => ?_⟩
  · rw [hs.digest _ he, hDigest p hp hSame _ he hKey]
  · -- The file is listed at its dependency, so that a change of that would have it scheduled.
    have hListed := hs.recorded _ he q hq
    obtain ⟨x, hx, hxk⟩ := hListed
    have hxp := same_trans hxk hKey
    have hxFile : t.isFile x = true :=
      isFile_of_same (hs.dependents q x hx).2 hxp (hFiles p hp)
    have hScheduled : ∀ r, Plan.IsChanged t.read m s.dependents files r ∨
        Plan.IsLost s.dependents files r → r.same q = true → False := by
      intro r hr hrq
      refine hNot (.inr (.inl (.inr ⟨r, hr, x, ?_, hxp⟩)))
      rw [s.dependents.filesAt_congr hrq]
      exact List.mem_filter.2 ⟨hx, hxFile⟩
    have hAmong : q.Among files := by
      by_contra hLost
      exact hScheduled q (.inr
        ⟨DependentGraph.contains_of_among_filesAt ⟨x, hx, hxk⟩, hLost⟩) (same_self q)
    refine ⟨hAmong, ?_⟩
    obtain ⟨r, hr, hrq⟩ := hAmong
    obtain ⟨d', hGet'⟩ := PathMap.contains_iff_get?.1
      (DependentGraph.contains_of_among_filesAt (g := s.dependents) ⟨x, hx, hxk⟩)
    obtain ⟨k', he', hKey'⟩ := PathMap.mem_of_get? hGet'
    have hq' := addressable_of_isFile (hA.existing hq).2
    have hk' := hDigest r hr (fun h => hScheduled r (.inl h) hrq) _ he'
      (same_trans hKey' (same_symm hrq))
    rw [digest?_of_same hq' (same_symm hKey') (hs.digest _ he'),
      digest?_of_same hq' (same_symm hKey') hk']

include hPrint hComplete in
/-- For a file that is not scheduled, the kept errors are those of now, and so are the recorded
dependencies. -/
theorem Plan.kept_of_not_scheduled {p : Path} (hp : p ∈ files)
    (hNot : ¬ p.Among (Plan.reuse t.isFile t.read m s files).2.schedule) :
    Agree ((s.errors.get? p).getD []) (A.errors f t p) ∧
      ∀ q ∈ A.dependencies f t p, q.Among files ∧ p.Among (s.dependents.filesAt q) := by
  obtain ⟨e, he, hKey, hSame, hDependencies⟩ :=
    Plan.unchanged_of_not_scheduled hA hs hm hCovered hp hNot
  have heOld : u.isFile e.1 = true := isFile_of_digest? (hs.digest e he)
  have heNew : t.isFile e.1 = true := by
    rw [hs.digest e he] at hSame
    exact isFile_of_digest? hSame.symm
  have hKept := hs.errors e he
  rw [PathMap.get?_congr s.errors hKey] at hKept
  -- A file with errors is left out only if there is no new file.
  have hNew : A.errors s.fingerprint u e.1 = [] ∨ A.NothingNew s.fingerprint u t := by
    by_cases hNil : A.errors s.fingerprint u e.1 = []
    · exact .inl hNil
    · right
      intro q hCover hFile
      have hErrors : s.errors.contains p = true := by
        rw [PathMap.contains_iff_get?]
        cases hGet : PathMap.get? s.errors p with
        | some ds => exact ⟨ds, rfl⟩
        | none =>
          rw [hGet] at hKept
          exact absurd (hKept.eq_nil_iff.1 rfl) hNil
      obtain ⟨r, hr, hrq⟩ := hComplete q (hA.covers_congr hPrint (same_self q) hCover) hFile
      have hOld : s.dependents.contains r = true := by
        cases hContains : PathMap.contains s.dependents r with
        | true => rfl
        | false =>
          refine absurd ?_ hNot
          rw [Plan.among_schedule_iff]
          exact .inr (.inr ⟨Plan.hasNew_iff.2 ⟨r, hr, hContains⟩, Path.among_of_mem hp,
            hErrors⟩)
      obtain ⟨d, hGet⟩ := PathMap.contains_iff_get?.1 hOld
      obtain ⟨k, hk, hkr⟩ := PathMap.mem_of_get? hGet
      exact isFile_of_same (addressable_of_isFile hFile) (same_symm (same_trans hkr hrq))
        (isFile_of_digest? (hs.digest _ hk))
  have hLocal := hA.isLocal heOld hSame (fun q hq => (hDependencies q hq).2) hNew
  have hCongr := hA.congr hPrint hKey heNew (hCovered p hp).2
  refine ⟨(hKept.trans hLocal.errors).trans hCongr.errors, fun q hq => ?_⟩
  obtain ⟨r, hr, hrq⟩ := (hLocal.dependencies.trans hCongr.dependencies).exists_of_mem hq
  exact ⟨(Path.among_congr hrq).1 (hDependencies r hr).1,
    DependentGraph.among_filesAt_congr hKey hrq (hs.recorded e he r hr)⟩

end reuse

/-! ## Plans -/

/-- Whether a plan schedules and carries over what it should, for the files of a project. -/
structure Plan.Serves (A : Analyzer) (f : Fingerprint) (t : FileTree) (files : List Path)
    (p : Plan) : Prop where
  full : p.isFull = true → p.errors = .empty ∧ p.dependents = .empty
  scheduled : ∀ x ∈ p.schedule, A.covers f x ∧ Addressable x
  within : ∀ x : Path, x.Among p.schedule → x.Among files
  present : ∀ x ∈ files, x ∈ p.schedule ∨ t.isFile x = true
  edges : ∀ e ∈ p.dependents.edges,
    (A.covers f e.1 ∧ Addressable e.1) ∧ A.covers f e.2 ∧ t.isFile e.2 = true
  keys : ∀ k ∈ p.dependents.keys, A.covers f k ∧ Addressable k
  filed : p.errors.Filed
  confined : ∀ x : Path, ¬ x.Among files → p.errors.get? x = none
  errors : ∀ x ∈ files, ¬ x.Among p.schedule →
    Agree ((p.errors.get? x).getD []) (A.errors f t x)
  recorded : ∀ x ∈ files, ¬ x.Among p.schedule → ∀ q ∈ A.dependencies f t x,
    ∃ e ∈ p.dependents.edges, e.1.same x = true ∧ e.2.same q = true

theorem Plan.serves_full {A : Analyzer} {f : Fingerprint} {t : FileTree} {files : List Path}
    (h : ∀ x ∈ files, A.covers f x ∧ Addressable x) (reason : FullReason) (now : UInt64) :
    (Plan.full files reason now).Serves A f t files where
  full _ := ⟨rfl, rfl⟩
  scheduled := h
  within _ hx := hx
  present _ hx := .inl hx
  edges e he := by cases he
  keys k hk := by cases hk
  filed := ErrorsByFile.filed_empty
  confined _ _ := rfl
  errors x hx hNot := absurd (Path.among_of_mem hx) hNot
  recorded x hx hNot := absurd (Path.among_of_mem hx) hNot

theorem ErrorsByFile.filed_errorsOf {errors : ErrorsByFile} (h : errors.Filed)
    (files : List Path) : (Plan.errorsOf errors files).Filed := by
  intro p ds hp
  rw [Plan.get?_errorsOf] at hp
  split at hp
  · exact h p ds hp
  · cases hp

theorem Plan.serves_reuse {A : Analyzer} {s : Snapshot} {t u : FileTree} {m : Memo}
    {files : List Path} {f : Fingerprint} (hA : A.Lawful) (hs : s.Describes A u)
    (hPrint : s.fingerprint.same f = true) (hm : m.Current t)
    (hCovered : ∀ p ∈ files, A.covers f p ∧ t.isFile p = true)
    (hComplete : ∀ p, A.covers f p → t.isFile p = true → p.Among files) :
    (Plan.reuse t.isFile t.read m s files).2.Serves A f t files := by
  have hCover : ∀ x, A.covers s.fingerprint x → A.covers f x :=
    fun x => hA.covers_congr hPrint (same_self x)
  have hKept := fun x hx => Plan.kept_of_not_scheduled hA hs hPrint hm hCovered hComplete
    (p := x) hx
  have hWithin := fun x =>
    Plan.among_files_of_among_schedule hA hs hPrint hComplete (m := m) (p := x)
  refine ⟨fun h => (by cases h), fun x hx => ?_, hWithin, fun x hx => .inr (hCovered x hx).2,
    fun e he => ?_, fun k hk => ?_,
    ErrorsByFile.filed_errorsOf hs.filed files, fun x hx => ?_, fun x hx hNot => ?_,
    fun x hx hNot q hq => ?_⟩
  · obtain ⟨y, hy, hSame⟩ := hWithin x (Path.among_of_mem hx)
    refine ⟨hA.covers_congr (Fingerprint.same_self f) hSame (hCovered y hy).1, ?_⟩
    rcases Plan.mem_schedule hx with hx | ⟨_, hx⟩
    · exact addressable_of_isFile (hCovered x hx).2
    · exact addressable_of_isFile hx
  · obtain ⟨he, hAmong⟩ := DependentGraph.mem_edges_restrict.1 he
    obtain ⟨x, y⟩ := e
    obtain ⟨d, hEntry, hx⟩ := DependentGraph.mem_edges.1 he
    have hFile := hs.dependents y x (by
      rw [filesAt_of_get? (PathMap.get?_of_mem hEntry (same_self y))]
      exact hx)
    refine ⟨⟨hCover x hFile.1, hFile.2⟩, hCover y (hs.covered _ hEntry), ?_⟩
    obtain ⟨z, hz, hSame⟩ := hAmong
    exact isFile_of_same (addressable_of_isFile (isFile_of_digest? (hs.digest _ hEntry)))
      (same_symm hSame) (hCovered z hz).2
  · obtain ⟨d, he⟩ := PathMap.mem_keys_iff.1 (PathMap.mem_keys_filterKeys hk).1
    exact ⟨hCover k (hs.covered _ he),
      addressable_of_isFile (isFile_of_digest? (hs.digest _ he))⟩
  · show (Plan.errorsOf s.errors files).get? x = none
    rw [Plan.get?_errorsOf, if_neg hx]
  · show Agree (((Plan.errorsOf s.errors files).get? x).getD []) _
    rw [Plan.get?_errorsOf, if_pos (Path.among_of_mem hx)]
    exact (hKept x hx hNot).1
  · obtain ⟨hAmong, hListed⟩ := (hKept x hx hNot).2 q hq
    obtain ⟨e, he, hx, hq⟩ := DependentGraph.exists_edge_of_among_filesAt hListed
    exact ⟨e, DependentGraph.mem_edges_restrict.2 ⟨he, (Path.among_congr hq).2 hAmong⟩, hx, hq⟩

/-! ## What is merged -/

section merged

variable {A : Analyzer} {f : Fingerprint} {t : FileTree} {files : List Path} {p : Plan}
  {fresh : Report} (hA : A.Lawful) (hPlan : p.Serves A f t files)
  (hFresh : fresh.Answers A f t p.schedule)

/-- What a run knows of the errors of a file: what was reported if the file was scheduled, and what
was carried over otherwise. -/
def Plan.errorsAfter (p : Plan) (fresh : Report) (q : Path) : List Diagnostic :=
  if q.Among p.schedule then errorsAt fresh.diagnostics q else (p.errors.get? q).getD []

include hPlan

theorem Plan.errorsAfter_eq_nil {q : Path} (h : ¬ q.Among files) : p.errorsAfter fresh q = [] := by
  rw [errorsAfter, if_neg fun hAmong => h (hPlan.within q hAmong), hPlan.confined q h]
  rfl

theorem Plan.isFile_of_not_scheduled {x : Path} (hx : x ∈ files) (hNot : ¬ x.Among p.schedule) :
    t.isFile x = true := by
  rcases hPlan.present x hx with h | h
  · exact absurd (Path.among_of_mem h) hNot
  · exact h

include hFresh

theorem Plan.getD_mergedErrors_eq (q : Path) :
    ((p.mergedErrors fresh).get? q).getD [] = p.errorsAfter fresh q := by
  rw [getD_mergedErrors, errorsAfter]
  by_cases hAmong : q.Among p.schedule
  · rw [if_pos (.inr hAmong), if_pos hAmong]
  · by_cases hFull : p.isFull = true
    · rw [if_pos (.inl hFull), if_neg hAmong, hFresh.confined q hAmong, (hPlan.full hFull).1]
      rfl
    · rw [if_neg hAmong, if_neg]
      rintro (h | h)
      · exact hFull h
      · exact hAmong h

/-- The errors that are reported for a file after a run. -/
theorem Plan.errorsAt_mergedReport_eq (q : Path) :
    errorsAt (p.mergedReport fresh).diagnostics q = p.errorsAfter fresh q := by
  rw [errorsAt_mergedReport hPlan.filed, ← getD_mergedErrors, getD_mergedErrors_eq hPlan hFresh]

include hA

theorem Plan.agree_of_isFile {q : Path} (hq : q.Among files) (hFile : t.isFile q = true) :
    Agree (p.errorsAfter fresh q) (A.errors f t q) := by
  rw [errorsAfter]
  by_cases hAmong : q.Among p.schedule
  · rw [if_pos hAmong]
    obtain ⟨x, hx, hSame⟩ := hAmong
    have hxFile := isFile_of_same (hPlan.scheduled x hx).2 hSame hFile
    rw [← errorsAt_congr fresh.diagnostics hSame]
    exact (hFresh.errors x hx).trans
      (hA.congr (Fingerprint.same_self f) hSame hxFile hFile).errors
  · rw [if_neg hAmong]
    obtain ⟨x, hx, hSame⟩ := hq
    have hNot : ¬ x.Among p.schedule := fun h => hAmong ((Path.among_congr hSame).1 h)
    have hxFile := Plan.isFile_of_not_scheduled hPlan hx hNot
    rw [← PathMap.get?_congr p.errors hSame]
    exact (hPlan.errors x hx hNot).trans
      (hA.congr (Fingerprint.same_self f) hSame hxFile hFile).errors

theorem Plan.agree_of_mem {q : Path} (hq : q ∈ files) :
    Agree (p.errorsAfter fresh q) (A.errors f t q) := by
  rcases hPlan.present q hq with h | h
  · rw [errorsAfter, if_pos (Path.among_of_mem h)]
    exact hFresh.errors q h
  · exact Plan.agree_of_isFile hA hPlan hFresh (Path.among_of_mem hq) h

omit hA

variable {g : DependencyGraph} (hg : fresh.dependencies = some g)

include hg

theorem Plan.get?_mergedDependencies (q : Path) :
    (p.mergedDependencies g).get? q =
      if q.Among p.schedule then g.get? q else p.dependents.forward.get? q := by
  rw [mergedDependencies]
  by_cases hFull : p.isFull = true
  · rw [if_pos hFull]
    by_cases hAmong : q.Among p.schedule
    · rw [if_pos hAmong]
    · rw [if_neg hAmong, (hPlan.full hFull).2]
      cases hGet : g.get? q with
      | none => rfl
      | some ts =>
        obtain ⟨k, he, hSame⟩ := PathMap.mem_of_get? hGet
        exact absurd ⟨k, (hFresh.dependencies g hg _ he).1, hSame⟩ hAmong
  · rw [if_neg hFull, get?_replaceAll]

omit hPlan in
theorem Plan.mem_keys_mergedDependencies {k : Path} (hk : k ∈ (p.mergedDependencies g).keys) :
    k ∈ p.schedule ∨ k ∈ p.dependents.forward.keys := by
  rw [mergedDependencies] at hk
  split at hk
  · obtain ⟨ts, he⟩ := PathMap.mem_keys_iff.1 hk
    exact .inl (hFresh.dependencies g hg _ he).1
  · exact mem_keys_replaceAll hk

theorem Plan.keys_mergedDependencies {k : Path} (hk : k ∈ (p.mergedDependencies g).keys) :
    A.covers f k ∧ Addressable k := by
  rcases Plan.mem_keys_mergedDependencies hFresh hg hk with hk | hk
  · exact hPlan.scheduled k hk
  · rcases DependentGraph.mem_keys_forward hk with hk | ⟨target, he⟩
    · exact hPlan.keys k (DependentGraph.mem_idle_iff.1 hk).1
    · exact (hPlan.edges _ he).1

include hA

/-- All edges lead from files of the project to files of the project that are there. -/
theorem Plan.edges_mergedDependencies {e : Path × Path}
    (he : e ∈ (p.mergedDependencies g).edges) :
    (A.covers f e.1 ∧ Addressable e.1) ∧ A.covers f e.2 ∧ t.isFile e.2 = true := by
  obtain ⟨x, y⟩ := e
  obtain ⟨ts, hEntry, hy⟩ := DependencyGraph.mem_edges.1 he
  refine ⟨Plan.keys_mergedDependencies hPlan hFresh hg (PathMap.mem_keys_iff.2 ⟨ts, hEntry⟩), ?_⟩
  have hGet := PathMap.get?_of_mem hEntry (same_self x)
  rw [Plan.get?_mergedDependencies hPlan hFresh hg] at hGet
  split at hGet
  · obtain ⟨k, hk, _⟩ := PathMap.mem_of_get? hGet
    have hEq : ts = A.dependencies f t k := (hFresh.dependencies g hg _ hk).2
    rw [hEq] at hy
    exact hA.existing hy
  · obtain ⟨rfl, _⟩ := DependentGraph.get?_forward.1 hGet
    obtain ⟨k, hk, _⟩ := PathMap.mem_valuesAt.1 hy
    exact (hPlan.edges _ hk).2

theorem Plan.exists_dependency_of_scheduled {q : Path} (hq : q.Among p.schedule)
    (hFile : t.isFile q = true) {y : Path} (hy : y ∈ A.dependencies f t q) :
    ∃ ts, g.get? q = some ts ∧ ∃ z ∈ ts, z.same y = true := by
  obtain ⟨x, hx, hxq⟩ := hq
  obtain ⟨k, hk, hkx⟩ := hFresh.entries g hg x hx
  obtain ⟨ts, he⟩ := PathMap.mem_keys_iff.1 hk
  obtain ⟨hkSchedule, hEq⟩ := hFresh.dependencies g hg _ he
  have hkq := same_trans hkx hxq
  have hkFile := isFile_of_same (hPlan.scheduled k hkSchedule).2 hkq hFile
  have hSame := (hA.congr (Fingerprint.same_self f) hkq hkFile hFile).dependencies
  rw [← hEq] at hSame
  exact ⟨ts, PathMap.get?_of_mem he hkq, hSame.exists_of_mem hy⟩

omit hFresh hg in
theorem Plan.exists_dependency_of_not_scheduled {q : Path} (hq : q.Among files)
    (hNot : ¬ q.Among p.schedule) (hFile : t.isFile q = true) {y : Path}
    (hy : y ∈ A.dependencies f t q) :
    ∃ ts, p.dependents.forward.get? q = some ts ∧ ∃ z ∈ ts, z.same y = true := by
  obtain ⟨x, hx, hxq⟩ := hq
  have hNot : ¬ x.Among p.schedule := fun h => hNot ((Path.among_congr hxq).1 h)
  have hxFile := Plan.isFile_of_not_scheduled hPlan hx hNot
  obtain ⟨z, hz, hzy⟩ := (hA.congr (Fingerprint.same_self f) hxq hxFile
    hFile).dependencies.exists_of_mem hy
  obtain ⟨⟨a, b⟩, he, hax, hbz⟩ := hPlan.recorded x hx hNot z hz
  have hMem : b ∈ PathMap.valuesAt q p.dependents.edges :=
    PathMap.mem_valuesAt.2 ⟨a, he, same_trans hax hxq⟩
  exact ⟨_, DependentGraph.get?_forward.2 ⟨rfl, .inl (List.ne_nil_of_mem hMem)⟩, b, hMem,
    same_trans hbz hzy⟩

/-- Of every file of the project all dependencies are among the edges. -/
theorem Plan.exists_edge_mergedDependencies {q : Path} (hq : q.Among files)
    (hFile : t.isFile q = true) {y : Path} (hy : y ∈ A.dependencies f t q) :
    ∃ e ∈ (p.mergedDependencies g).edges, e.1.same q = true ∧ e.2.same y = true := by
  obtain ⟨ts, hGet, z, hz, hzy⟩ : ∃ ts, (p.mergedDependencies g).get? q = some ts ∧
      ∃ z ∈ ts, z.same y = true := by
    rw [Plan.get?_mergedDependencies hPlan hFresh hg]
    by_cases hAmong : q.Among p.schedule
    · rw [if_pos hAmong]
      exact Plan.exists_dependency_of_scheduled hA hPlan hFresh hg hAmong hFile hy
    · rw [if_neg hAmong]
      exact Plan.exists_dependency_of_not_scheduled hA hPlan hq hAmong hFile hy
  obtain ⟨k, he, hkq⟩ := PathMap.mem_of_get? hGet
  exact ⟨(k, z), DependencyGraph.mem_edges.2 ⟨ts, he, hz⟩, hkq, hzy⟩

/-- What a run saves describes the files that were analysed. -/
theorem Plan.describes_merged (hComplete : ∀ q, A.covers f q → t.isFile q = true → q.Among files)
    {m : Memo} (hm : m.Current t) {d : DependentGraph}
    (hd : DependencyGraph.Inverts t.isFile m (p.mergedDependencies g) d) :
    Snapshot.Describes A ⟨p.lastFull, f, p.mergedErrors fresh, d⟩ t := by
  have hKey : ∀ e ∈ d.entries, A.covers f e.1 ∧ t.isFile e.1 = true := by
    intro e he
    rcases hd.mem_keys e.1 (PathMap.mem_keys_iff.2 ⟨e.2, he⟩) with ⟨x, hx, hEq⟩ | ⟨hk, hFile⟩
    · rw [← hEq]
      exact (Plan.edges_mergedDependencies hA hPlan hFresh hg hx).2
    · exact ⟨(Plan.keys_mergedDependencies hPlan hFresh hg hk).1, hFile⟩
  refine ⟨fun e he => (hKey e he).1, fun e he => ?_, fun q x hx => ?_,
    filed_mergedErrors hPlan.filed fresh, fun e he => ?_, fun e he y hy => ?_⟩
  · exact hm.digest? (addressable_of_isFile (hKey e he).2)
      (hd.dated e.1 e.2 (PathMap.get?_of_mem he (same_self e.1)))
  · obtain ⟨e, he, _, rfl⟩ := hd.mem_filesAt q x hx
    exact (Plan.edges_mergedDependencies hA hPlan hFresh hg he).1
  · obtain ⟨hCover, hFile⟩ := hKey e he
    show Agree (((p.mergedErrors fresh).get? e.1).getD []) _
    rw [Plan.getD_mergedErrors_eq hPlan hFresh]
    exact Plan.agree_of_isFile hA hPlan hFresh (hComplete e.1 hCover hFile) hFile
  · obtain ⟨hCover, hFile⟩ := hKey e he
    obtain ⟨x, hx, hxe, hxy⟩ := Plan.exists_edge_mergedDependencies hA hPlan hFresh hg
      (hComplete e.1 hCover hFile) hFile hy
    exact (Path.among_congr hxe).1 (hd.among_filesAt x hx y hxy)

end merged

/-! ## Runs -/

namespace Turn

variable {A : Analyzer} {c : Path} {t : FileTree} {turn : Turn} (hA : A.Lawful)
  (hSound : Sound A c t) (hTurn : turn.Faithful t A c)

include hTurn

theorem complete_tree (p : Path) (hp : A.covers (turn.fingerprint t) p)
    (hFile : (turn.tree t).isFile p = true) : p.Among turn.files := by
  obtain ⟨content, hRead⟩ := FileTree.isFile_iff.1 hFile
  exact hTurn.complete p hp (FileTree.isFile_of_read (read_of_read_tree hRead))

include hA hSound

theorem serves_plan :
    (turn.plan t).Serves A (turn.fingerprint t) (turn.tree t) turn.files := by
  rcases plan_cases turn t with ⟨reason, hPlan, _⟩ | ⟨s, hLoad, hTree, hSame, _, hPlan, _⟩
  · rw [hPlan]
    exact Plan.serves_full (fun x hx => ⟨(hTurn.covered x hx).1,
      addressable_of_isFile (hTurn.covered x hx).2⟩) reason turn.now
  · rw [hTurn.cacheFile] at hLoad
    obtain ⟨u, hs⟩ := hSound.of_load hLoad
    have hPrint := Fingerprint.grows_ofSettings t .empty turn.settings
    have hComplete := complete_tree hTurn
    rw [hTree] at hComplete ⊢
    rw [hPlan]
    exact Plan.serves_reuse hA hs hSame (hPrint.current (Memo.current_empty t)) hTurn.covered
      hComplete

/-- A run either is not saved, or it saves a snapshot that describes the files. -/
theorem processed_cases :
    turn.after t = turn.tree t ∧
        turn.outcome t = .ok ((turn.plan t).mergedReport turn.report) ∨
      (∃ g, Plan.kept turn.report turn.save = .ok g) ∧
        ∃ s, turn.snapshot? t (turn.tree t) = some s ∧ s.Describes A (turn.tree t) ∧
          turn.after t = (Snapshot.save (turn.tree t) c s).1 ∧
          turn.outcome t = (Snapshot.save (turn.tree t) c s).2.map fun _ =>
            (turn.plan t).mergedReport turn.report := by
  have hPlan := serves_plan hA hSound hTurn
  rw [after, outcome, processed, processedAt_eq]
  cases hKept : Plan.kept turn.report turn.save with
  | error reason => exact .inl ⟨rfl, rfl⟩
  | ok g =>
    refine .inr ⟨⟨g, rfl⟩, ?_⟩
    obtain ⟨_, hg, _⟩ := Plan.kept_eq_ok_iff.1 hKept
    rw [hTurn.cacheFile]
    rcases Snapshot.saveDraft_cases (turn.tree t) (turn.memo t) c (turn.fingerprint t)
        ⟨(turn.plan t).lastFull, (turn.plan t).mergedErrors turn.report,
          (turn.plan t).mergedDependencies g⟩ with ⟨m, d, hd, hEq⟩ | ⟨m, e, hd, _⟩
    · obtain ⟨hGrows, hInverts⟩ := DependencyGraph.dependents_spec hd
      have hs := Plan.describes_merged hA hPlan hTurn.answers hg (complete_tree hTurn)
        (hGrows.current (current_memo turn t)) hInverts
      have hSnapshot : turn.snapshot? t (turn.tree t) = some ⟨(turn.plan t).lastFull,
          turn.fingerprint t, (turn.plan t).mergedErrors turn.report, d⟩ := by
        dsimp only at hd
        rw [snapshot?, graph, hg, Option.getD_some, hd]
      refine ⟨_, hSnapshot, hs, ?_, ?_⟩ <;> dsimp only <;> rw [hEq]
    · obtain ⟨m', d, hOk⟩ := DependencyGraph.exists_dependents (fun e he =>
        (Plan.edges_mergedDependencies hA hPlan hTurn.answers hg he).2.2) (turn.memo t)
      rw [hOk] at hd
      cases hd

/-- One run keeps the invariant. -/
theorem sound_after : Sound A c (turn.after t) := by
  have hTree : Sound A c (turn.tree t) := by
    refine hSound.mono fun content hContent => ?_
    rw [← hTurn.cacheFile] at hContent ⊢
    exact cached_of_cached_tree hContent
  rcases processed_cases hA hSound hTurn with ⟨hAfter, _⟩ | ⟨_, s, _, hs, hAfter, _⟩
  · rw [hAfter]
    exact hTree
  · rw [hAfter]
    cases hSave : Snapshot.save (turn.tree t) c s with
    | mk u outcome =>
      cases outcome with
      | ok _ =>
        intro content s' hContent hs'
        obtain ⟨text, hText, hRead⟩ := Snapshot.read_of_save hSave
        rw [Snapshot.cached_of_read hRead] at hContent
        cases hContent
        rw [Snapshot.ofContent?_text hText] at hs'
        cases hs'
        exact ⟨turn.tree t, hs⟩
      | error e =>
        refine hTree.mono fun content hContent => ?_
        rw [← Snapshot.cached_of_save_error hSave]
        exact hContent

end Turn

/-- After any history the snapshot in the cache file, if there is one, describes the files of some
earlier time. -/
theorem History.sound {A : Analyzer} (hA : A.Lawful) {c : Path} {t : FileTree}
    (h : History A c t) : Sound A c t := by
  induction h with
  | start hNone =>
    intro content s hContent hs
    rw [hNone content hContent] at hs
    cases hs
  | edit _ hCache ih => exact ih.mono hCache
  | clear _ s hCache ih =>
    refine ih.mono fun content hContent => ?_
    subst hCache
    exact Snapshot.cached_of_cached_clear hContent
  | run _ turn hTurn ih => exact turn.sound_after hA ih hTurn

/-- After any history, a run over the files of the project reports for each file what the analyzer
says of it now, and for no other path any error. If it reports nothing, it was to be saved, and the
snapshot that it makes, which describes the files, could not be written into the cache file. -/
theorem Turn.outcome_from_scratch {A : Analyzer} (hA : A.Lawful) {c : Path} {t : FileTree}
    (h : History A c t) {turn : Turn} (hTurn : turn.Faithful t A c) :
    (∃ report, turn.outcome t = .ok report ∧
      (∀ f ∈ turn.files, Agree (errorsAt report.diagnostics f)
        (A.errors (turn.fingerprint t) (turn.tree t) f)) ∧
      ∀ p : Path, ¬ p.Among turn.files → errorsAt report.diagnostics p = []) ∨
    (∃ g, Plan.kept turn.report turn.save = .ok g) ∧
      ∃ s e, turn.snapshot? t (turn.tree t) = some s ∧ s.Describes A (turn.tree t) ∧
        (Snapshot.save (turn.tree t) c s).2 = .error e ∧ turn.outcome t = .error e := by
  have hPlan := turn.serves_plan hA (h.sound hA) hTurn
  have hReport : (∀ f ∈ turn.files,
      Agree (errorsAt ((turn.plan t).mergedReport turn.report).diagnostics f)
        (A.errors (turn.fingerprint t) (turn.tree t) f)) ∧
      ∀ p : Path, ¬ p.Among turn.files →
        errorsAt ((turn.plan t).mergedReport turn.report).diagnostics p = [] := by
    constructor
    · intro f hf
      rw [Plan.errorsAt_mergedReport_eq hPlan hTurn.answers]
      exact Plan.agree_of_mem hA hPlan hTurn.answers hf
    · intro p hp
      rw [Plan.errorsAt_mergedReport_eq hPlan hTurn.answers]
      exact Plan.errorsAfter_eq_nil hPlan hp
  rcases turn.processed_cases hA (h.sound hA) hTurn with
    ⟨_, hOutcome⟩ | ⟨hKept, s, hSnapshot, hs, _, hOutcome⟩
  · exact .inl ⟨_, hOutcome, hReport⟩
  · cases hSave : (Snapshot.save (turn.tree t) c s).2 with
    | ok _ =>
      rw [hSave] at hOutcome
      exact .inl ⟨_, hOutcome, hReport⟩
    | error e =>
      rw [hSave] at hOutcome
      exact .inr ⟨hKept, s, e, hSnapshot, hs, hSave, hOutcome⟩

/-! ## A file that is deleted -/

namespace Inclusion

/-- A run over both files. -/
def earlier : Turn := (turn [first, second]).asking files analyzer

/-- What it leaves, after which the second file is deleted. -/
def deleted : FileTree := ((earlier.after files).removeFile second).1

/-- The run over what is left then, for which the analyzer is asked for the first file. -/
def later : Turn :=
  { turn [first] with
    report := analyzer.report (Fingerprint.ofSettings deleted .empty (turn [first]).settings).2
      deleted [first] }

theorem covers_first (f : Fingerprint) : analyzer.covers f first := .inl (same_self first)

theorem covers_second (f : Fingerprint) : analyzer.covers f second := .inr (same_self second)

theorem among_of_covers {f : Fingerprint} {p : Path} (h : analyzer.covers f p) :
    p.Among [first, second] := by
  rcases h with hSame | hSame
  · exact ⟨first, List.mem_cons_self, same_symm hSame⟩
  · exact ⟨second, List.mem_cons_of_mem _ List.mem_cons_self, same_symm hSame⟩

theorem faithful_earlier : earlier.Faithful files analyzer (.ofText "c") := by
  have hFiles : ∀ p ∈ [first, second], files.isFile p = true := by
    intro p hp
    rcases List.mem_pair.1 hp with rfl | rfl <;> rfl
  refine Turn.faithful_asking (Analyzer.inclusion_lawful first second) rfl (fun p hp => ?_)
    (fun p hCover _ => among_of_covers hCover) hFiles
  refine ⟨?_, hFiles p hp⟩
  rcases List.mem_pair.1 hp with rfl | rfl
  · exact covers_first _
  · exact covers_second _

theorem isSaved_earlier : earlier.IsSaved files files (earlier.after files) :=
  ⟨rfl, rfl, by decide +kernel⟩

/-- The first file and the cache file are still there. -/
theorem isFile_deleted : deleted.isFile first = true ∧ deleted.isFile second = false ∧
    deleted.isFile (.ofText "c") = true := by decide +kernel

theorem follows_earlier : later.Follows earlier files (earlier.after files) deleted := by
  obtain ⟨content, hRead⟩ := FileTree.isFile_iff.1 isFile_deleted.2.2
  exact ⟨rfl, hRead.trans (FileTree.read_of_read_removeFile hRead).symm, rfl, by decide +kernel, rfl⟩

/-- The file that is left is analysed again, since it depended on the other one. -/
theorem schedule_later : (later.plan deleted).schedule = [first] ∧
    (later.outcome deleted).isOk = true := by
  obtain ⟨s, m, hWrites⟩ := Turn.exists_snapshot isSaved_earlier
  obtain ⟨_, hPlan, _⟩ := hWrites.plan_eq follows_earlier
  have hComputed : ((earlier.snapshot? files files).map fun s =>
      ((Plan.reuse deleted.isFile deleted.read (later.inputMemo deleted) s later.files).2.schedule,
        (later.outcomeFrom (deleted, some s)).isOk)) = some ([first], true) := by decide +kernel
  rw [hWrites.snapshot] at hComputed
  rw [hPlan, hWrites.outcome_eq follows_earlier]
  exact Prod.mk.inj (Option.some.inj hComputed)

theorem tree_later : later.tree deleted = deleted := by
  obtain ⟨s, m, hWrites⟩ := Turn.exists_snapshot isSaved_earlier
  exact (hWrites.plan_eq follows_earlier).1

theorem faithful_later : later.Faithful deleted analyzer (.ofText "c") := by
  obtain ⟨hFirst, hSecond, -⟩ := isFile_deleted
  have hFiles : ∀ p ∈ [first], deleted.isFile p = true :=
    fun p hp => List.mem_singleton.1 hp ▸ hFirst
  refine ⟨rfl, fun p hp => ?_, fun p hCover hFile => ?_, ?_⟩
  · rw [List.mem_singleton.1 hp]
    exact ⟨covers_first _, hFirst⟩
  · obtain ⟨q, hq, hSame⟩ := among_of_covers hCover
    rcases List.mem_pair.1 hq with rfl | rfl
    · exact ⟨first, List.mem_cons_self, hSame⟩
    · have hAddressable : Addressable second :=
        addressable_of_isFile (show files.isFile second = true from rfl)
      rw [isFile_of_same hAddressable hSame hFile] at hSecond
      cases hSecond
  · rw [schedule_later.1, Turn.fingerprint, tree_later]
    exact Analyzer.answers_report (Analyzer.inclusion_lawful first second) _ hFiles

theorem history_deleted : History analyzer (.ofText "c") deleted := by
  have hStart : History analyzer (.ofText "c") files := by
    refine .start fun content hContent => ?_
    have hNone : Snapshot.cached files (.ofText "c") = .error .notFound := rfl
    rw [hNone] at hContent
    cases hContent
  refine .edit (.run hStart earlier faithful_earlier) fun content hContent => ?_
  obtain ⟨before, hRead⟩ := FileTree.isFile_iff.1 isFile_deleted.2.2
  rw [Snapshot.cached_of_read hRead] at hContent
  rw [Snapshot.cached_of_read (FileTree.read_of_read_removeFile hRead), hContent]

/-- A run after the second file is deleted starts from what the run over both has left, and reports
that the first file misses the second. -/
theorem outcome_after_deletion :
    earlier.IsSaved files files (earlier.after files) ∧
    (later.plan deleted).isFull = false ∧
    ∃ report, later.outcome deleted = .ok report ∧
      Agree (errorsAt report.diagnostics first)
        [.ofFile "the included file is missing" first 1] ∧
      ∀ p : Path, ¬ p.Among [first] → errorsAt report.diagnostics p = [] := by
  obtain ⟨s, m, hWrites⟩ := Turn.exists_snapshot isSaved_earlier
  have hLawful : analyzer.Lawful := Analyzer.inclusion_lawful first second
  refine ⟨isSaved_earlier, hWrites.isFull_plan follows_earlier, ?_⟩
  rcases Turn.outcome_from_scratch hLawful history_deleted faithful_later with
    ⟨report, hOutcome, hErrors, hConfined⟩ | ⟨_, _, _, _, _, _, hOutcome⟩
  · have hFirst := hErrors first List.mem_cons_self
    have hMissing : analyzer.errors (later.fingerprint deleted) deleted first =
        [.ofFile "the included file is missing" first 1] := by
      simp [analyzer, Analyzer.inclusion, same_self, isFile_deleted.2.1]
    rw [tree_later, hMissing] at hFirst
    exact ⟨report, hOutcome, hFirst, hConfined⟩
  · have hOk := schedule_later.2
    rw [hOutcome] at hOk
    cases hOk

end Inclusion

end AnalysisCache
