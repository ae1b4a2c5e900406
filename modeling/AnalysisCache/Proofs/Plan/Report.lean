import AnalysisCache.Proofs.Plan.Merge

/-!
# What a partial run reports

A partial run reports file by file, in the order of paths: of a scheduled file what is new, and of
any other one what is carried over. Warnings and errors of no file come last. Nothing else is
reported, and nothing is left out or doubled, whether the run is kept or not.

* `Plan.diagnostics_mergedReport`: what is reported, in order.
* `Plan.count_mergedReport`: how often a diagnostic is reported.
* `Plan.merge_reports`: both, and that they do not depend on whether the run is kept.
-/

namespace AnalysisCache

namespace Plan

/-- What is reported of a file. -/
def reportedAt (p : Plan) (fresh : Report) (q : Path) : List Diagnostic :=
  if q.Among p.schedule then errorsAt fresh.diagnostics q else (p.errors.get? q).getD []

/-- The files of which there may be something to report, in order. -/
def reported (p : Plan) : List Path := sortedPaths (p.schedule ++ p.errors.keys)

/-- Whether what is new is reported. An error of a file that was not scheduled is not. -/
def takes (p : Plan) (d : Diagnostic) : Bool :=
  match d.kind with
  | .file f => f.Among p.schedule
  | _ => true

/-- The errors that are carried over, those of the files that are not scheduled. -/
def carried (p : Plan) : ErrorsByFile := p.errors.filterKeys fun q => !decide (q.Among p.schedule)

variable (p : Plan) (fresh : Report)

theorem get?_carried (q : Path) :
    p.carried.get? q = if q.Among p.schedule then none else p.errors.get? q := by
  rw [carried, PathMap.get?_filterKeys]
  · by_cases h : q.Among p.schedule <;> simp [h]
  · intro k hSame
    simp only [Path.among_congr hSame]

/-! ## The order of a report -/

theorem among_reported_iff {q : Path} :
    q.Among p.reported ↔ q.Among p.schedule ∨ q.Among p.errors.keys := by
  rw [reported, among_sortedPaths_iff, Path.among_append_iff]

theorem flatten_mergedErrors (h : p.isFull = false) :
    (p.mergedErrors fresh).values.flatten = p.reported.flatMap (p.reportedAt fresh) := by
  have hPart : p.reportedAt fresh = fun q => ((p.mergedErrors fresh).get? q).getD [] := by
    funext q
    rw [getD_mergedErrors, h, reportedAt]
    simp only [Bool.false_eq_true, false_or]
  rw [hPart]
  refine PathMap.flatten_values_eq (pairwise_sortedPaths _) fun q hq => ?_
  rw [mergedErrors, if_neg (by rw [h]; decide), among_keys_replaceAll] at hq
  rw [among_reported_iff]
  exact hq.imp And.left And.right

theorem diagnostics_mergedReport (h : p.isFull = false) :
    (p.mergedReport fresh).diagnostics = p.reported.flatMap (p.reportedAt fresh) ++
      (fresh.diagnostics.filter fun d => d.kind = .warning) ++
        fresh.diagnostics.filter fun d => d.kind = .global := by
  have hGlobal : (Partition.ofList fresh.diagnostics).global = _ :=
    Partition.global_foldl_add fresh.diagnostics .empty
  have hWarnings : (Partition.ofList fresh.diagnostics).warnings = _ :=
    Partition.warnings_foldl_add fresh.diagnostics .empty
  rw [mergedReport, if_neg (by rw [h]; decide)]
  dsimp only
  rw [flatten_mergedErrors p fresh h, hGlobal, hWarnings]
  rfl

/-! ## How often a diagnostic is reported -/

theorem count_flatMap_append {α β : Type} [DecidableEq β] (f g : α → List β) (l : List α) (x : β) :
    (l.flatMap fun a => f a ++ g a).count x = (l.flatMap f).count x + (l.flatMap g).count x := by
  induction l with
  | nil => rfl
  | cons a rest ih =>
    simp only [List.flatMap_cons, List.count_append, ih]
    omega

/-- What is new is reported of the scheduled files. -/
theorem count_fresh (d : Diagnostic) :
    (p.reported.flatMap fun q =>
      if q.Among p.schedule then errorsAt fresh.diagnostics q else []).count d =
        match d.kind with
        | .file f => if f.Among p.schedule then fresh.diagnostics.count d else 0
        | _ => 0 := by
  have hError : ∀ q, d ∈ (if q.Among p.schedule then errorsAt fresh.diagnostics q else []) →
      d.isErrorOf q = true := by
    intro q hd
    split at hd
    · exact (mem_errorsAt.1 hd).2
    · cases hd
  have hNone : (∀ q, d.isErrorOf q = false) → (p.reported.flatMap fun q =>
      if q.Among p.schedule then errorsAt fresh.diagnostics q else []).count d = 0 := by
    intro hNot
    rw [List.count_eq_zero, List.mem_flatMap]
    rintro ⟨q, _, hd⟩
    have hOf := hError q hd
    rw [hNot q] at hOf
    cases hOf
  cases hKind : d.kind with
  | warning => exact hNone fun q => by rw [Diagnostic.isErrorOf, hKind]
  | global => exact hNone fun q => by rw [Diagnostic.isErrorOf, hKind]
  | file f =>
    have hOf : ∀ q, d.isErrorOf q = f.same q := fun q => by rw [Diagnostic.isErrorOf, hKind]
    have hApart : p.reported.Pairwise fun q r => q.same r = false :=
      (pairwise_sortedPaths _).imp fun hLt => Path.not_same_of_lt hLt
    rw [Path.count_flatMap (p := f) _ _ hApart]
    · by_cases hAmong : f.Among p.schedule
      · simp only [if_pos hAmong]
        rw [if_pos ((among_reported_iff p).2 (.inl hAmong)),
          count_errorsAt _ ((hOf f).trans (Path.same_self f))]
      · simp only [if_neg hAmong, List.count_nil, ite_self]
    · intro q hSame
      simp only [Path.among_congr hSame, errorsAt_congr _ hSame]
    · intro q hNot hd
      have hSame := hError q hd
      rw [hOf, hNot] at hSame
      cases hSame

/-- What is carried over is reported of the other files. -/
theorem flatMap_reported_carried :
    (p.reported.flatMap fun q => if q.Among p.schedule then [] else (p.errors.get? q).getD []) =
      p.carried.values.flatten := by
  rw [PathMap.flatten_values_eq (pairwise_sortedPaths (p.schedule ++ p.errors.keys))]
  · refine List.flatMap_congr fun q _ => ?_
    rw [get?_carried]
    split <;> rfl
  · rintro q ⟨k, hk, hSame⟩
    exact (among_reported_iff p).2 (.inr ⟨k, (PathMap.mem_keys_filterKeys hk).1, hSame⟩)

theorem count_mergedReport (h : p.isFull = false) (d : Diagnostic) :
    (p.mergedReport fresh).diagnostics.count d =
      (if p.takes d then fresh.diagnostics.count d else 0) + p.carried.values.flatten.count d := by
  have hPart : p.reportedAt fresh = fun q =>
      (if q.Among p.schedule then errorsAt fresh.diagnostics q else []) ++
        if q.Among p.schedule then [] else (p.errors.get? q).getD [] := by
    funext q
    rw [reportedAt]
    split
    · rw [List.append_nil]
    · rfl
  rw [diagnostics_mergedReport p fresh h, hPart, List.count_append, List.count_append,
    count_flatMap_append, count_fresh, flatMap_reported_carried, count_filter_kind,
    count_filter_kind, takes]
  cases d.kind with
  | warning => simp; omega
  | global => simp; omega
  | file f => simp

/-! ## Errors that are kept under their files -/

theorem takes_eq_false {p : Plan} {d : Diagnostic} {q : Path} (hError : d.isErrorOf q = true)
    (hNot : ¬ q.Among p.schedule) : p.takes d = false := by
  obtain ⟨f, hKind, hSame⟩ := Diagnostic.isErrorOf_iff.1 hError
  rw [takes, hKind]
  rw [← Path.among_congr hSame] at hNot
  exact decide_eq_false hNot

section Filed

variable {p : Plan} (hFiled : p.errors.Filed)

include hFiled

theorem filed_carried : p.carried.Filed := by
  intro q ds hGet
  rw [get?_carried] at hGet
  split at hGet
  · cases hGet
  · exact hFiled q ds hGet

/-- An error is carried over for its own file alone. -/
theorem count_carried {d : Diagnostic} {q : Path} (hError : d.isErrorOf q = true) :
    p.carried.values.flatten.count d =
      if q.Among p.schedule then 0 else ((p.errors.get? q).getD []).count d := by
  rw [← count_errorsAt _ hError, errorsAt_flatten (filed_carried hFiled), get?_carried]
  split <;> rfl

/-- What is new and reported is not carried over. -/
theorem count_carried_of_takes {d : Diagnostic} (h : p.takes d = true) :
    p.carried.values.flatten.count d = 0 := by
  have hError : d ∈ p.carried.values.flatten → ∃ q, d.isErrorOf q = true := by
    intro hd
    obtain ⟨k, ds, hGet, hMem⟩ := mem_flatten_values.1 hd
    exact ⟨k, filed_carried hFiled k ds hGet d hMem⟩
  have hNone : (∀ q, d.isErrorOf q = false) → p.carried.values.flatten.count d = 0 := by
    intro hNot
    rw [List.count_eq_zero]
    intro hd
    obtain ⟨q, hq⟩ := hError hd
    rw [hNot q] at hq
    cases hq
  cases hKind : d.kind with
  | warning => exact hNone fun q => by rw [Diagnostic.isErrorOf, hKind]
  | global => exact hNone fun q => by rw [Diagnostic.isErrorOf, hKind]
  | file f =>
    rw [takes, hKind] at h
    rw [count_carried hFiled (Diagnostic.isErrorOf_iff.2 ⟨f, hKind, Path.same_self f⟩),
      if_pos (of_decide_eq_true h)]

end Filed

/-- A partial run is always merged, and what it reports does not depend on whether it is kept. It
reports the files in order, then the warnings and then the errors of no file. A diagnostic is reported
as often as it is new, unless it is an error of a file that was not scheduled, and once for every time
that it is carried over. If the errors are kept under their files, it is one or the other. -/
theorem merge_reports (p : Plan) (fresh : Report) (h : p.isFull = false) :
    ∃ report, (∀ save, ∃ draft, p.merge fresh save = .ok ⟨report, draft⟩) ∧
      report.dependencies = fresh.dependencies ∧ report.limitReached = fresh.limitReached ∧
      report.diagnostics = p.reported.flatMap (p.reportedAt fresh) ++
        (fresh.diagnostics.filter fun d => d.kind = .warning) ++
          (fresh.diagnostics.filter fun d => d.kind = .global) ∧
      (∀ d, report.diagnostics.count d =
        (if p.takes d then fresh.diagnostics.count d else 0) +
          p.carried.values.flatten.count d) ∧
      (p.errors.Filed →
        (∀ d, p.takes d = true → report.diagnostics.count d = fresh.diagnostics.count d) ∧
        ∀ q, ¬ q.Among p.schedule → ∀ d ∈ (p.errors.get? q).getD [],
          report.diagnostics.count d = ((p.errors.get? q).getD []).count d) := by
  have hCount := count_mergedReport p fresh h
  have hFields : (p.mergedReport fresh).dependencies = fresh.dependencies ∧
      (p.mergedReport fresh).limitReached = fresh.limitReached := by
    rw [mergedReport, if_neg (by rw [h]; decide)]
    exact ⟨rfl, rfl⟩
  refine ⟨p.mergedReport fresh, fun save => ⟨_, merge_eq p fresh save⟩, hFields.1, hFields.2,
    diagnostics_mergedReport p fresh h, hCount, fun hFiled => ⟨?_, ?_⟩⟩
  · intro d hTakes
    rw [hCount, if_pos hTakes, count_carried_of_takes hFiled hTakes, Nat.add_zero]
  · intro q hNot d hd
    have hError : d.isErrorOf q = true := by
      cases hGet : p.errors.get? q with
      | none =>
        rw [hGet] at hd
        cases hd
      | some ds =>
        rw [hGet] at hd
        exact hFiled q ds hGet d hd
    rw [hCount, takes_eq_false hError hNot, count_carried hFiled hError, if_neg hNot,
      if_neg (by decide), Nat.zero_add]

/-! ## A report in which everything occurs -/

namespace Retold

def scheduled : Path := .ofText "a"

def other : Path := .ofText "b"

def oldError (p : Path) : Diagnostic := .ofFile "an old error" p 1

def newError (p : Path) : Diagnostic := .ofFile "a new error" p 1

/-- One of two files that had errors is to be analysed. -/
def plan : Plan where
  schedule := [scheduled]
  fullReason := none
  lastFull := 0
  errors := (PathMap.empty.insert scheduled [oldError scheduled]).insert other [oldError other]
  dependents := .empty

/-- Both files are reported on. -/
def answer : Report where
  diagnostics := [.ofRun "out of memory", newError other, newError scheduled, .warning "slow",
    newError scheduled]
  dependencies := none
  limitReached := false

theorem merge_reports_retold : plan.isFull = false ∧ plan.errors.Filed ∧ ∃ report,
    (∀ save, ∃ draft, plan.merge answer save = .ok ⟨report, draft⟩) ∧
    report.diagnostics = [newError scheduled, newError scheduled, oldError other,
      .warning "slow", .ofRun "out of memory"] ∧
    report.diagnostics.count (newError scheduled) =
      answer.diagnostics.count (newError scheduled) := by
  have hPartial : plan.isFull = false := rfl
  have hFiled : plan.errors.Filed := by
    intro p ds hGet d hd
    obtain ⟨k, he, hSame⟩ := PathMap.mem_of_get? hGet
    have hEntries : plan.errors.entries =
        [(scheduled, [oldError scheduled]), (other, [oldError other])] := by decide +kernel
    rw [hEntries, List.mem_cons, List.mem_singleton] at he
    rcases he with he | he
    · cases he
      rw [List.mem_singleton.1 hd]
      exact hSame
    · cases he
      rw [List.mem_singleton.1 hd]
      exact hSame
  obtain ⟨report, hMerge, -, -, hReport, -, hOnce⟩ := merge_reports plan answer hPartial
  refine ⟨hPartial, hFiled, report, hMerge, ?_, (hOnce hFiled).1 _ (by decide +kernel)⟩
  rw [hReport]
  decide +kernel

end Retold

end Plan

end AnalysisCache
