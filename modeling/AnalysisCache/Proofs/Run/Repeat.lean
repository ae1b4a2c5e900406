import AnalysisCache.Proofs.Dependencies.RoundTrip
import AnalysisCache.Proofs.Run.Replacement
import AnalysisCache.Proofs.Snapshot.Same

/-!
# Runs without a change

A run that follows another one with nothing changed in between carries on all that was saved of its
files. It schedules nothing, unless something depended on a file that is not among those of the run.
If it is saved, it reports the errors that the first run reported, and saves what was saved before,
up to the spelling of paths.

* `DependentGraph.Settled.among_schedule_iff`: what a run schedules where nothing has changed.
* `Turn.Writes.settled`: what a run saves stays settled until a file changes.
* `Turn.repeats`: what the following run makes of what was saved.
-/

namespace AnalysisCache

open AnalysisCache.Path (same_symm same_trans)

/-! ## Schedules where nothing has changed -/

namespace DependentGraph

section Settled

variable {w : FileTree} {m : Memo} {s : Snapshot} {files : List Path}
  (h : s.dependents.Settled w) (hm : m.Current w) (hFiles : ∀ f ∈ files, w.isFile f = true)

include h hm hFiles

theorem Settled.not_isChanged (f : Path) : ¬ Plan.IsChanged w.read m s.dependents files f := by
  rintro ⟨d, q, hGet, hFind, hNe⟩
  obtain ⟨k, he, hk⟩ := PathMap.mem_of_get? hGet
  have hq := FileTree.addressable_of_isFile (hFiles q (List.mem_of_find?_eq_some hFind))
  have hSame : q.same k = true := same_trans (Plan.same_of_find? hFind) (same_symm hk)
  exact hNe ((Memo.digest_eq_ok_iff hm hq).2 (FileTree.digest?_of_same hq hSame (h.digest k d he)))

/-- If nothing is new and nothing has changed, only what depended on a lost file is scheduled. -/
theorem Settled.among_schedule_iff (hOld : ∀ f ∈ files, s.dependents.contains f = true) {p : Path} :
    p.Among (Plan.reuse w.isFile w.read m s files).2.schedule ↔
      ∃ e ∈ s.dependents.entries, ¬ e.1.Among files ∧ p.Among (e.2.files.filter w.isFile) := by
  have hNotNew : Plan.hasNew s.dependents files = false := by
    rw [← Bool.not_eq_true, Plan.hasNew_iff]
    rintro ⟨f, hf, hNew⟩
    rw [hOld f hf] at hNew
    cases hNew
  have hContains : ¬ (p.Among files ∧ s.dependents.contains p = false) := by
    rintro ⟨⟨f, hf, hSame⟩, hNew⟩
    rw [← PathMap.contains_congr _ hSame, hOld f hf] at hNew
    cases hNew
  have hOrphans : p.Among (Plan.orphans w.isFile s.dependents files) ↔
      ∃ e ∈ s.dependents.entries, ¬ e.1.Among files ∧ p.Among (e.2.files.filter w.isFile) := by
    constructor
    · rintro ⟨q, hq, hSame⟩
      obtain ⟨e, he, hLost, hq⟩ := Plan.mem_orphans_iff.1 hq
      exact ⟨e, he, hLost, q, hq, hSame⟩
    · rintro ⟨e, he, hLost, q, hq, hSame⟩
      exact ⟨q, Plan.mem_orphans_iff.2 ⟨e, he, hLost, hq⟩, hSame⟩
  rw [← hOrphans, Plan.among_orphans_iff, Plan.among_schedule_iff]
  simp only [hContains, hNotNew, Plan.IsAffected, Plan.DependsOnChange,
    h.not_isChanged hm hFiles, Bool.false_eq_true, false_and, or_false, false_or]

end Settled

end DependentGraph

/-! ## Runs that follow without a change -/

namespace Turn

/-- The paths that a run has to do with: its files, and those that what it knows of dependencies
names. -/
def named (turn : Turn) (t : FileTree) : List Path := turn.files ++ (turn.graph t).named

section

variable {turn later : Turn} {t v w : FileTree} {s : Snapshot} {m : Memo}

theorem exists_graph_eq (hSaved : turn.IsSaved t (turn.tree t) v) :
    ∃ g, turn.report.dependencies = some g ∧ turn.graph t = (turn.plan t).mergedDependencies g := by
  obtain ⟨hIsKept, _, _⟩ := hSaved
  cases hKept : Plan.kept turn.report turn.save with
  | error reason => rw [hKept] at hIsKept; cases hIsKept
  | ok g =>
    have hDependencies := (Plan.kept_eq_ok_iff.1 hKept).2.1
    exact ⟨g, hDependencies, by rw [graph, hDependencies, Option.getD_some]⟩

/-- All that a run schedules is among its dependencies if the analysis tells them of each file. -/
theorem among_keys_graph_of_scheduled (hSaved : turn.IsSaved t (turn.tree t) v)
    (hEntries : ∀ g, turn.report.dependencies = some g →
      ∀ p ∈ (turn.plan t).schedule, p.Among g.keys) {p : Path}
    (hp : p.Among (turn.plan t).schedule) : p.Among (turn.graph t).keys := by
  obtain ⟨g, hDependencies, hGraph⟩ := exists_graph_eq hSaved
  obtain ⟨q, hq, hSame⟩ := hp
  have hKey : p.Among g.keys := (Path.among_congr hSame).1 (hEntries g hDependencies q hq)
  rw [hGraph, Plan.mergedDependencies]
  split
  · exact hKey
  · exact Plan.among_keys_replaceAll.2 (.inl ⟨⟨q, hq, hSame⟩, hKey⟩)

/-- All files of a run are among its dependencies, since what is not scheduled was so before. -/
theorem among_keys_graph (hSaved : turn.IsSaved t (turn.tree t) v)
    (hEntries : ∀ g, turn.report.dependencies = some g →
      ∀ p ∈ (turn.plan t).schedule, p.Among g.keys) {f : Path} (hf : f ∈ turn.files) :
    f.Among (turn.graph t).keys := by
  by_cases hScheduled : f.Among (turn.plan t).schedule
  · exact among_keys_graph_of_scheduled hSaved hEntries hScheduled
  · obtain ⟨g, _, hGraph⟩ := exists_graph_eq hSaved
    rcases plan_cases turn t with ⟨reason, hPlan, _⟩ | ⟨old, _, _, _, _, hPlan, _⟩
    · rw [hPlan] at hScheduled
      exact absurd (Path.among_of_mem hf) hScheduled
    · have hOld : f.Among old.dependents.keys := by
        rw [hPlan, Plan.among_schedule_iff_of_mem hf, not_or, Bool.not_eq_false] at hScheduled
        exact PathMap.contains_iff.1 hScheduled.1
      obtain ⟨k, hk, hSame⟩ := hOld
      have hKept : f.Among (turn.plan t).dependents.forward.keys := by
        refine DependentGraph.among_keys_forward ⟨k, ?_, hSame⟩
        obtain ⟨d, he⟩ := PathMap.mem_keys_iff.1 hk
        rw [hPlan]
        exact PathMap.mem_keys_iff.2 ⟨d, DependentGraph.mem_restrict_iff.2
          ⟨he, (Path.among_congr hSame).2 (Path.among_of_mem hf)⟩⟩
      have hPartial : (turn.plan t).isFull = false := by
        rw [hPlan]
        rfl
      rw [hGraph, Plan.mergedDependencies, if_neg (by rw [hPartial]; decide)]
      exact Plan.among_keys_replaceAll.2 (.inr ⟨hScheduled, hKept⟩)

/-- A file that is among the dependencies is a key of what is saved. -/
theorem Writes.contains_of_among_keys (h : turn.Writes t (turn.tree t) v s m)
    (hPlain : ∀ p ∈ turn.named t, (turn.tree t).Plain p) {p : Path}
    (hKey : p.Among (turn.graph t).keys) (hFile : (turn.tree t).isFile p = true) :
    s.dependents.contains p = true := by
  obtain ⟨k, hk, hSame⟩ := hKey
  have hNamed : k ∈ turn.named t := List.mem_append_right _ (List.mem_append_left _ hk)
  have hThere : (turn.tree t).isFile k = true := hPlain k hNamed p (same_symm hSame) hFile
  exact (h.contains_iff p).2 (.inr ⟨k, List.mem_filter.2 ⟨hk, hThere⟩, hSame⟩)

/-- What a run saves is settled for as long as nothing changes. -/
theorem Writes.settled (h : turn.Writes t (turn.tree t) v s m)
    (hPlain : ∀ p ∈ turn.named t, (turn.tree t).Plain p)
    (hStill : ∀ p ∈ turn.named t, w.digest? p = (turn.tree t).digest? p) :
    s.dependents.Settled w := by
  have hCurrent : m.Current (turn.tree t) := h.grows.current (current_memo turn t)
  exact h.inverts.settled h.spells hCurrent (fun p hp => hPlain p (List.mem_append_right _ hp))
    fun p hp => hStill p (List.mem_append_right _ hp)

/-- All errors that are saved are of files of the run, if all keys of what is saved are. -/
theorem Writes.among_files_of_get?_errors (h : turn.Writes t (turn.tree t) v s m)
    (hSaved : turn.IsSaved t (turn.tree t) v)
    (hConfined : ∀ p, ¬ p.Among (turn.plan t).schedule → errorsAt turn.report.diagnostics p = [])
    (hEntries : ∀ g, turn.report.dependencies = some g →
      ∀ p ∈ (turn.plan t).schedule, p.Among g.keys)
    (hPlain : ∀ p ∈ turn.named t, (turn.tree t).Plain p)
    (hAll : ∀ k ∈ s.dependents.keys, k.Among turn.files) {p : Path} {ds : List Diagnostic}
    (hGet : s.errors.get? p = some ds) : p.Among turn.files := by
  have hFresh : p.Among (turn.plan t).schedule → p.Among turn.files := by
    rintro ⟨q, hq, hSame⟩
    rcases mem_plan_schedule hq with hFile | hFile
    · exact ⟨q, hFile, hSame⟩
    · have hKey := among_keys_graph_of_scheduled hSaved hEntries (Path.among_of_mem hq)
      have hContains := h.contains_of_among_keys hPlain hKey hFile
      obtain ⟨k, hk, hkq⟩ := PathMap.contains_iff.1 hContains
      exact (Path.among_congr (same_trans hkq hSame)).1 (hAll k hk)
  rw [h.errors, Plan.mergedErrors] at hGet
  split at hGet
  · refine hFresh (Decidable.byContradiction fun hNot => ?_)
    rw [Partition.get?_errors, if_pos (hConfined p hNot)] at hGet
    cases hGet
  · rw [Plan.get?_replaceAll] at hGet
    split at hGet
    · rename_i hScheduled
      exact hFresh hScheduled
    · rcases plan_cases turn t with ⟨reason, hPlan, _⟩ | ⟨old, _, _, _, _, hPlan, _⟩
      · rw [hPlan] at hGet
        cases hGet
      · have hErrors : (turn.plan t).errors = Plan.errorsOf old.errors turn.files := by
          rw [hPlan]
          rfl
        rw [hErrors, Plan.get?_errorsOf] at hGet
        split at hGet
        · assumption
        · cases hGet

/-- A run that follows without a change, and has nothing to analyse, reports the errors that were
reported and saves what was saved. -/
theorem Writes.exists_same (h : turn.Writes t (turn.tree t) v s m)
    (hLater : later.Follows turn t v w) (hSettled : s.dependents.Settled w)
    (hSchedule : (later.plan w).schedule = [])
    (hKeys : ∀ k ∈ s.dependents.keys, k.Among later.files)
    (hErrors : ∀ p ds, s.errors.get? p = some ds → p.Among later.files)
    (hSave : later.save = true) (hDiagnostics : later.report.diagnostics = [])
    (hDependencies : later.report.dependencies = some .empty) :
    ∃ s', s.Same s' ∧
      (Snapshot.load (later.after w) later.settings.cacheFile).2 = some s' ∧
      later.outcome w = .ok ((later.plan w).mergedReport later.report) ∧
      ((later.plan w).mergedErrors later.report).values = s.errors.values := by
  obtain ⟨hTree, hPlan, _⟩ := h.plan_eq hLater
  rw [hPlan] at hSchedule
  have hMergedErrors : ∀ p, ((later.plan w).mergedErrors later.report).get? p = s.errors.get? p := by
    intro p
    rw [hPlan, Plan.mergedErrors_reuse hSchedule, Plan.get?_errorsOf]
    split
    · rfl
    · rename_i hNot
      cases hGet : s.errors.get? p with
      | none => rfl
      | some ds => exact absurd (hErrors p ds hGet) hNot
  have hMergedDependencies : (later.plan w).mergedDependencies .empty = s.dependents.forward := by
    rw [hPlan, Plan.mergedDependencies_reuse hSchedule, DependentGraph.restrict_eq_self hKeys]
  have hSame : s.Same ⟨(later.plan w).lastFull, later.fingerprint w,
      (later.plan w).mergedErrors later.report, s.dependents⟩ := by
    refine ⟨?_, ?_, hMergedErrors, rfl⟩
    · rw [hPlan]
      rfl
    · rw [h.fingerprint]
      exact hLater.fingerprint
  obtain ⟨u, hSaved⟩ : ∃ u, Snapshot.save w later.settings.cacheFile ⟨(later.plan w).lastFull,
      later.fingerprint w, (later.plan w).mergedErrors later.report, s.dependents⟩ =
        (u, .ok ()) := by
    obtain ⟨text, hText, _⟩ := Snapshot.read_of_save h.save_eq
    obtain ⟨content, hRead, _⟩ :=
      Snapshot.load_eq_some_iff.1 (congrArg Prod.snd (h.load_eq hLater))
    refine Snapshot.exists_save_of_read hRead (hSame.isText ?_)
    exact Snapshot.exists_text_iff.1 ⟨text, hText⟩
  have hCurrent : (later.memo w).Current w := by
    have hMemo := current_memo later w
    rwa [hTree] at hMemo
  obtain ⟨m', hBack⟩ := hSettled.dependents_forward hCurrent
  have hKept : Plan.kept later.report later.save = .ok .empty := by
    rw [Plan.kept_eq_ok_iff, hDiagnostics]
    exact ⟨hSave, hDependencies, rfl⟩
  have hProcessed : later.processed w = (u, { (later.restored w).2.1 with memo := m' },
      .ok ((later.plan w).mergedReport later.report)) := by
    rw [processed, hTree, processedAt_eq, hKept]
    dsimp only
    rw [hMergedDependencies, Snapshot.saveDraft_eq_ok hBack hSaved]
    rfl
  refine ⟨_, hSame, ?_, ?_, PathMap.values_eq_of_get? hMergedErrors⟩
  · rw [after, hProcessed]
    exact congrArg Prod.snd (Snapshot.load_of_save hSaved rfl)
  · rw [outcome, hProcessed]

end

/-- A run that follows one that was saved carries on what was saved of its files if nothing has
changed. It schedules what is there of the dependents of other files. If there are no such files, it
schedules nothing, and as long as nothing is reported of it, it reports the same errors as the first
run and saves the same. -/
theorem repeats {turn later : Turn} {t v w : FileTree} (hSaved : turn.IsSaved t (turn.tree t) v)
    (hFiles : ∀ f ∈ turn.files, (turn.tree t).isFile f = true)
    (hConfined : ∀ p, ¬ p.Among (turn.plan t).schedule → errorsAt turn.report.diagnostics p = [])
    (hEntries : ∀ g, turn.report.dependencies = some g →
      ∀ p ∈ (turn.plan t).schedule, p.Among g.keys)
    (hPlain : ∀ p ∈ turn.named t, (turn.tree t).Plain p)
    (hStill : ∀ p ∈ turn.named t, w.digest? p = (turn.tree t).digest? p)
    (hLater : later.Follows turn t v w) (hPerm : later.files.Perm turn.files) :
    ∃ s, (Snapshot.load v turn.settings.cacheFile).2 = some s ∧
      (Snapshot.load w later.settings.cacheFile).2 = some s ∧
      (later.plan w).isFull = false ∧ (later.plan w).lastFull = s.lastFull ∧
      (∀ p, (later.plan w).errors.get? p =
        if p.Among later.files then s.errors.get? p else none) ∧
      (∀ e, e ∈ (later.plan w).dependents.entries ↔
        e ∈ s.dependents.entries ∧ e.1.Among later.files) ∧
      (∀ p : Path, p.Among (later.plan w).schedule ↔
        ∃ e ∈ s.dependents.entries, ¬ e.1.Among later.files ∧
          p.Among (e.2.files.filter w.isFile)) ∧
      ((∀ k ∈ s.dependents.keys, k.Among later.files) →
        (later.plan w).schedule = [] ∧
        (later.save = true → later.report.diagnostics = [] →
          later.report.dependencies = some .empty →
            ∃ report report' s', turn.outcome t = .ok report ∧ later.outcome w = .ok report' ∧
              (∀ p, errorsAt report'.diagnostics p = errorsAt report.diagnostics p) ∧
              (Snapshot.load (later.after w) later.settings.cacheFile).2 = some s' ∧
              s.Same s')) := by
  obtain ⟨s, m, hWrites⟩ := exists_snapshot hSaved
  obtain ⟨hTree, hPlan, _⟩ := hWrites.plan_eq hLater
  have hSettled : s.dependents.Settled w := hWrites.settled hPlain hStill
  have hThere : ∀ f ∈ later.files, w.isFile f = true := by
    intro f hf
    have hf' : f ∈ turn.files := hPerm.mem_iff.1 hf
    have hFile := hFiles f hf'
    rw [← FileTree.digest?_isSome_iff] at hFile ⊢
    rwa [hStill f (List.mem_append_left _ hf')]
  have hOld : ∀ f ∈ later.files, s.dependents.contains f = true := by
    intro f hf
    have hf' : f ∈ turn.files := hPerm.mem_iff.1 hf
    exact hWrites.contains_of_among_keys hPlain (among_keys_graph hSaved hEntries hf') (hFiles f hf')
  have hAmong : ∀ p : Path, p.Among turn.files ↔ p.Among later.files := by
    intro p
    simp only [Path.Among, hPerm.mem_iff]
  have hScheduled : ∀ p : Path, p.Among (later.plan w).schedule ↔
      ∃ e ∈ s.dependents.entries, ¬ e.1.Among later.files ∧ p.Among (e.2.files.filter w.isFile) := by
    intro p
    rw [hPlan]
    exact hSettled.among_schedule_iff (current_inputMemo later w) hThere hOld
  refine ⟨s, congrArg Prod.snd (Snapshot.load_of_save hWrites.save_eq rfl),
    congrArg Prod.snd (hWrites.load_eq hLater), hWrites.isFull_plan hLater, ?_, fun p => ?_,
    fun e => ?_, hScheduled, fun hKeys => ?_⟩
  · rw [hPlan]
    rfl
  · rw [hPlan]
    exact Plan.get?_errorsOf s.errors later.files p
  · rw [hPlan]
    exact DependentGraph.mem_restrict_iff
  · have hSchedule : (later.plan w).schedule = [] := by
      refine List.eq_nil_iff_forall_not_mem.2 fun p hp => ?_
      obtain ⟨e, he, hLost, _⟩ := (hScheduled p).1 (Path.among_of_mem hp)
      exact hLost (hKeys e.1 (PathMap.mem_keys_iff.2 ⟨e.2, he⟩))
    refine ⟨hSchedule, fun hSave hDiagnostics hDependencies => ?_⟩
    have hErrors : ∀ p ds, s.errors.get? p = some ds → p.Among later.files := by
      intro p ds hGet
      rw [← hAmong]
      refine hWrites.among_files_of_get?_errors hSaved hConfined hEntries hPlain ?_ hGet
      exact fun k hk => (hAmong k).2 (hKeys k hk)
    obtain ⟨s', hSame, hLoad, hOutcome, hValues⟩ := hWrites.exists_same hLater hSettled hSchedule
      hKeys hErrors hSave hDiagnostics hDependencies
    obtain ⟨report, hReport⟩ : ∃ report, turn.outcome t = .ok report := by
      have hOk := hSaved.outcome_ok
      cases hOutcome : turn.outcome t with
      | ok report => exact ⟨report, rfl⟩
      | error e =>
        rw [show (turn.processedAt t (turn.tree t)).2.2 = .error e from hOutcome] at hOk
        cases hOk
    refine ⟨report, _, s', hReport, hOutcome, fun p => ?_, hLoad, hSame⟩
    rw [eq_mergedReport_of_processedAt hReport, Plan.errorsAt_mergedReport_eq_flatten,
      Plan.errorsAt_mergedReport_eq_flatten, hValues, hWrites.errors]

end Turn

/-! ## A run that is repeated -/

namespace Inclusion

/-- A run over both files that reports an error of the first one. -/
def reporting : Turn :=
  { turn [first, second] with report := ⟨[.ofFile "odd" first 1], some included, false⟩ }

/-- A run over the same files in another order, of which there is nothing to report. -/
def again : Turn := { turn [second, first] with report := ⟨[], some .empty, false⟩ }

/-- What the first run leaves. -/
def reported : FileTree := reporting.after files

theorem repeats_reporting : (again.plan reported).schedule = [] ∧
    ∃ s report report' s', (Snapshot.load reported (.ofText "c")).2 = some s ∧
      reporting.outcome files = .ok report ∧ again.outcome reported = .ok report' ∧
      errorsAt report'.diagnostics first = errorsAt report.diagnostics first ∧
      (Snapshot.load (again.after reported) (.ofText "c")).2 = some s' ∧ s.Same s' := by
  have hSaved : reporting.IsSaved files (reporting.tree files) reported :=
    ⟨by decide +kernel, rfl, by decide +kernel⟩
  have hThere : ∀ p ∈ reporting.named files, (reporting.tree files).isFile p = true := by
    decide +kernel
  have hStill : ∀ p ∈ reporting.named files,
      reported.digest? p = (reporting.tree files).digest? p := by
    decide +kernel
  have hConfined : ∀ p, ¬ p.Among (reporting.plan files).schedule →
      errorsAt reporting.report.diagnostics p = [] := by
    intro p hNot
    refine errorsAt_eq_nil fun d hd => ?_
    obtain rfl := List.mem_singleton.1 hd
    cases hSame : first.same p with
    | false => exact hSame
    | true =>
      have hFirst : first.Among (reporting.plan files).schedule := by decide +kernel
      exact absurd ((Path.among_congr hSame).1 hFirst) hNot
  have hEntries : ∀ g, reporting.report.dependencies = some g →
      ∀ p ∈ (reporting.plan files).schedule, p.Among g.keys := by
    rintro g ⟨⟩
    decide +kernel
  have hLater : again.Follows reporting files reported reported :=
    ⟨rfl, rfl, rfl, by decide +kernel, rfl⟩
  obtain ⟨s, hLoad, hLoaded, -, -, -, -, -, hLast⟩ := Turn.repeats hSaved
    (fun f hf => hThere f (List.mem_append_left _ hf)) hConfined hEntries
    (fun p hp => FileTree.plain_of_isFile (hThere p hp)) hStill hLater (.swap first second [])
  have hKeys : ∀ k ∈ s.dependents.keys, k.Among again.files := by
    obtain ⟨written, m, hWrites⟩ := Turn.exists_snapshot hSaved
    have hSnapshot : s = written := by
      rw [Snapshot.load_of_save hWrites.save_eq rfl] at hLoad
      exact (Option.some.inj hLoad).symm
    have hAll : ((reporting.snapshot? files (reporting.tree files)).map fun s =>
        decide (∀ k ∈ s.dependents.keys, k.Among again.files)) = some true := by
      decide +kernel
    rw [hWrites.snapshot, ← hSnapshot] at hAll
    simpa using hAll
  obtain ⟨hSchedule, hRepeat⟩ := hLast hKeys
  obtain ⟨report, report', s', hReport, hReport', hErrors, hLoad', hSame⟩ := hRepeat rfl rfl rfl
  exact ⟨hSchedule, s, report, report', s', hLoad, hReport, hReport', hErrors first, hLoad', hSame⟩

end Inclusion

end AnalysisCache
