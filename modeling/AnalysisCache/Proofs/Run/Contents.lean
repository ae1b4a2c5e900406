import AnalysisCache.Proofs.Run.Course

/-!
# What is in the cache file

The cache file holds the errors of each file that has any, each under its own file, and nothing else
of what is reported. They are just those that the run reported which wrote it, whether it analysed
all files or carried some of them over: sorting the report file by file gives them back.

* `ErrorsByFile.Proper.get?_of_flatten`: sorting what was kept by file gives it back.
* `Turn.Writes.reflects`: what a saved run keeps of what it reports.
* `Course.holds_report`: what the cache file holds.
-/

namespace AnalysisCache

namespace ErrorsByFile

/-- Whether no file is kept without errors, and each error is one of its file. -/
structure Proper (errors : ErrorsByFile) : Prop where
  nonempty : ∀ p ds, errors.get? p = some ds → ds ≠ []
  filed : errors.Filed

theorem proper_empty : Proper .empty := ⟨fun _ _ h => (by cases h), filed_empty⟩

/-- What is kept of either of two maps is proper if both are. -/
theorem Proper.of_get? {errors fresh kept : ErrorsByFile} (hFresh : fresh.Proper)
    (hKept : kept.Proper)
    (h : ∀ p, errors.get? p = none ∨ errors.get? p = fresh.get? p ∨ errors.get? p = kept.get? p) :
    errors.Proper := by
  constructor
  · intro p ds hGet
    rcases h p with hEq | hEq | hEq <;> rw [hGet] at hEq
    · cases hEq
    · exact hFresh.nonempty p ds hEq.symm
    · exact hKept.nonempty p ds hEq.symm
  · intro p ds hGet
    rcases h p with hEq | hEq | hEq <;> rw [hGet] at hEq
    · cases hEq
    · exact hFresh.filed p ds hEq.symm
    · exact hKept.filed p ds hEq.symm

theorem Proper.errorsOf {errors : ErrorsByFile} (h : errors.Proper) (files : List Path) :
    (Plan.errorsOf errors files).Proper := by
  refine .of_get? h proper_empty fun p => ?_
  rw [Plan.get?_errorsOf]
  split
  · exact .inr (.inl rfl)
  · exact .inl rfl

/-- Sorting diagnostics gives back the errors that were kept by file, if of each file they are those
of the kept ones laid end to end. -/
theorem Proper.get?_of_flatten {errors : ErrorsByFile} (h : errors.Proper) {ds : List Diagnostic}
    (hFlatten : ∀ p, errorsAt ds p = errorsAt errors.values.flatten p) (p : Path) :
    (Partition.ofList ds).errors.get? p = errors.get? p := by
  rw [Partition.get?_errors, hFlatten, errorsAt_flatten h.filed]
  cases hGet : errors.get? p with
  | none => rfl
  | some es => rw [Option.getD_some, if_neg (h.nonempty p es hGet)]

theorem Proper.not_isUnstable {errors : ErrorsByFile} (h : errors.Proper) :
    (Partition.ofList errors.values.flatten).isUnstable = false := by
  rw [← Bool.not_eq_true, Partition.isUnstable_iff]
  rintro ⟨d, hd, hKind⟩
  obtain ⟨ds, hds, hd⟩ := List.mem_flatten.1 hd
  obtain ⟨e, he, rfl⟩ := List.mem_map.1 hds
  obtain ⟨f, hFile, _⟩ := Diagnostic.isErrorOf_iff.1
    (h.filed e.1 e.2 (PathMap.get?_of_mem he (Path.same_self e.1)) d hd)
  rw [hFile] at hKind
  rcases hKind with hKind | hKind <;> cases hKind

end ErrorsByFile

theorem Partition.proper_errors (ds : List Diagnostic) : (ofList ds).errors.Proper := by
  refine ⟨fun p es hGet => ?_, filed_errors ds⟩
  rw [get?_errors] at hGet
  split at hGet
  · cases hGet
  · rename_i hSome
    cases hGet
    exact hSome

theorem Partition.eq_nil_of_stable {ds : List Diagnostic} (h : (ofList ds).isUnstable = false) :
    (ofList ds).global = [] ∧ (ofList ds).warnings = [] := by
  rw [isUnstable, Bool.or_eq_false_iff, Bool.not_eq_false', Bool.not_eq_false', List.isEmpty_iff,
    List.isEmpty_iff] at h
  exact h

namespace Plan

theorem proper_mergedErrors {plan : Plan} (h : plan.errors.Proper) (fresh : Report) :
    (plan.mergedErrors fresh).Proper := by
  have hFresh := Partition.proper_errors fresh.diagnostics
  rw [mergedErrors]
  split
  · exact hFresh
  · refine .of_get? hFresh h fun p => ?_
    rw [get?_replaceAll]
    split
    · exact .inr (.inl rfl)
    · exact .inr (.inr rfl)

/-- A stable run reports nothing but the errors that are kept. -/
theorem not_isUnstable_mergedReport {plan : Plan} (h : plan.errors.Proper) {fresh : Report}
    (hStable : (Partition.ofList fresh.diagnostics).isUnstable = false) :
    (Partition.ofList (plan.mergedReport fresh).diagnostics).isUnstable = false := by
  cases hFull : plan.isFull with
  | true =>
    rw [mergedReport, if_pos hFull]
    exact hStable
  | false =>
    obtain ⟨hGlobal, hWarnings⟩ := Partition.eq_nil_of_stable hStable
    rw [mergedReport, if_neg (by rw [hFull]; decide)]
    dsimp only
    rw [hGlobal, hWarnings, List.append_nil, List.append_nil]
    exact (proper_mergedErrors h fresh).not_isUnstable

end Plan

/-! ## Snapshots -/

namespace Snapshot

/-- Whether a snapshot has the dependents of each file in order, and its errors in place. -/
structure Proper (s : Snapshot) : Prop where
  sorted : ∀ p d, s.dependents.get? p = some d → d.files.Pairwise fun q r => compare q r = .lt
  errors : s.errors.Proper

/-- Whether the errors of a snapshot are just those that are reported. -/
structure Reflects (s : Snapshot) (report : Report) : Prop where
  global : (Partition.ofList report.diagnostics).global = []
  warnings : (Partition.ofList report.diagnostics).warnings = []
  errors : ∀ p, (Partition.ofList report.diagnostics).errors.get? p = s.errors.get? p

end Snapshot

namespace Turn

variable {turn : Turn} {t u v : FileTree} {s : Snapshot} {m : Memo}

theorem proper_plan_errors
    (hOld : ∀ old, (Snapshot.load t turn.settings.cacheFile).2 = some old → old.Proper) :
    (turn.plan t).errors.Proper := by
  rcases plan_cases turn t with ⟨reason, hPlan, _⟩ | ⟨old, hLoad, _, _, _, hPlan, _⟩
  · rw [hPlan]
    exact ErrorsByFile.proper_empty
  · rw [hPlan]
    exact (hOld old hLoad).errors.errorsOf turn.files

theorem Writes.proper (h : turn.Writes t u v s m) (hErrors : (turn.plan t).errors.Proper) :
    s.Proper := by
  constructor
  · intro p d hGet
    rw [← DependentGraph.filesAt_of_get? hGet]
    exact h.spells.sorted p
  · rw [h.errors]
    exact Plan.proper_mergedErrors hErrors turn.report

/-- What a run saves is what it reports. -/
theorem Writes.reflects (h : turn.Writes t u v s m) (hErrors : (turn.plan t).errors.Proper)
    (hSaved : turn.IsSaved t u v) :
    ∃ report, (turn.processedAt t u).2.2 = .ok report ∧ s.Reflects report := by
  obtain ⟨report, hReport⟩ : ∃ report, (turn.processedAt t u).2.2 = .ok report := by
    have hOk := hSaved.outcome_ok
    generalize (turn.processedAt t u).2.2 = outcome at hOk ⊢
    cases outcome with
    | ok report => exact ⟨report, rfl⟩
    | error e => cases hOk
  have hStable : (Partition.ofList turn.report.diagnostics).isUnstable = false := by
    have hKept := hSaved.kept
    cases hEq : Plan.kept turn.report turn.save with
    | ok g => exact (Plan.kept_eq_ok_iff.1 hEq).2.2
    | error e => rw [hEq] at hKept; cases hKept
  refine ⟨report, hReport, ?_⟩
  rw [eq_mergedReport_of_processedAt hReport]
  obtain ⟨hGlobal, hWarnings⟩ :=
    Partition.eq_nil_of_stable (Plan.not_isUnstable_mergedReport hErrors hStable)
  refine ⟨hGlobal, hWarnings, fun p => ?_⟩
  rw [h.errors]
  exact (Plan.proper_mergedErrors hErrors turn.report).get?_of_flatten
    (Plan.errorsAt_mergedReport_eq_flatten (turn.plan t) turn.report) p

end Turn

/-! ## The cache file -/

/-- Whether a snapshot is proper and holds what was reported by the run that wrote it last. -/
def Event.Explains (events : List Event) (s : Snapshot) : Prop :=
  s.Proper ∧ ∃ e report, writer events = some e ∧ e.outcome = .ok report ∧ s.Reflects report

namespace Course

variable {c : Path} {t : FileTree} {events : List Event}

theorem exists_explained (h : Course c t events) {content : Bytes}
    (hCached : Snapshot.cached t c = .ok content) :
    ∃ s, Snapshot.ofContent? content = some s ∧ Event.Explains events s := by
  refine h.keeps ?_ ?_ hCached
  · rintro turn t u v events s m rfl hOld hSaved hWrites
    have hErrors := Turn.proper_plan_errors fun old hLoad => (hOld old hLoad).1
    obtain ⟨report, hReport, hReflects⟩ := hWrites.reflects hErrors hSaved
    refine ⟨hWrites.proper hErrors, turn.entry t u, report, ?_, hReport, hReflects⟩
    exact Event.latest_self hSaved.entry_isSaved events
  · rintro e events s hNot ⟨hProper, hWriter⟩
    refine ⟨hProper, ?_⟩
    rw [Event.writer, Event.latest_of_not hNot]
    exact hWriter

/-- Whenever the cache file is there it can be loaded. It lists the dependents of each file in order
and has nothing but errors of single files, each under its file, and no file without any. They are
the errors that the run reported which wrote the file, in the same order, and that run reported
nothing else. -/
theorem holds_report (h : Course c t events) (hFile : t.isFile c = true) :
    ∃ s, (Snapshot.load t c).2 = some s ∧
      (∀ p d, s.dependents.get? p = some d → d.files.Pairwise fun q r => compare q r = .lt) ∧
      (∀ p ds, s.errors.get? p = some ds → ds ≠ [] ∧
        ∀ d ∈ ds, d.severity = .error ∧ ∃ f, d.file = some f ∧ f.same p = true) ∧
      ∃ e report, Event.writer events = some e ∧ e.outcome = .ok report ∧
        (Partition.ofList report.diagnostics).global = [] ∧
        (Partition.ofList report.diagnostics).warnings = [] ∧
        ∀ p, (Partition.ofList report.diagnostics).errors.get? p = s.errors.get? p := by
  obtain ⟨content, hRead⟩ := FileTree.isFile_iff.1 hFile
  obtain ⟨s, hContent, hProper, e, report, hWriter, hOutcome, hReflects⟩ :=
    h.exists_explained (Snapshot.cached_of_read hRead)
  refine ⟨s, Snapshot.load_eq_some_iff.2 ⟨content, hRead, hContent⟩, hProper.sorted, ?_, e, report,
    hWriter, hOutcome, hReflects.global, hReflects.warnings, hReflects.errors⟩
  intro p ds hGet
  exact ⟨hProper.errors.nonempty p ds hGet, fun d hd =>
    Diagnostic.isErrorOf_iff_severity.1 (hProper.errors.filed p ds hGet d hd)⟩

end Course

namespace Inclusion

/-- The error that was reported is in the cache file. -/
theorem holds_report_reported : reported.isFile (.ofText "c") = true ∧
    ∃ s, (Snapshot.load reported (.ofText "c")).2 = some s ∧
      s.errors.get? first = some [.ofFile "odd" first 1] := by
  have hFile : reported.isFile (.ofText "c") = true := by
    obtain ⟨s, m, hWrites⟩ := Turn.exists_snapshot isSaved_reporting
    obtain ⟨text, _, hRead⟩ := Snapshot.read_of_save hWrites.save_eq
    exact FileTree.isFile_of_read hRead
  obtain ⟨s, hLoad, -, -, e, report, hWriter, hOutcome, -, -, hErrors⟩ :=
    course_reported.holds_report hFile
  refine ⟨hFile, s, hLoad, ?_⟩
  have hEntry : Event.writer [.ran (reporting.entry files files)] =
      some (reporting.entry files files) := Event.latest_self isSaved_reporting.entry_isSaved []
  rw [hEntry] at hWriter
  cases hWriter
  rw [← hErrors first, Turn.eq_mergedReport_of_processedAt hOutcome]
  decide +kernel

end Inclusion

end AnalysisCache
