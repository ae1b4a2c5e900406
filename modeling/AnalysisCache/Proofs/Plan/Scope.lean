import AnalysisCache.Proofs.Plan.Merge

/-!
# Files outside the analysed ones

A plan is to cover no more than the files that it is made for, but a snapshot may name others: files
that are still there and once were analysed. One of them is scheduled if it depended on a key that
has changed or is no longer analysed, and then it is reported on and kept again.

* `Plan.Confines`: whether a merge tells nothing of other files.
* `Plan.within_iff`: exactly when a plan covers only its files, and when a merge tells of no others.
* `Plan.Departed.not_within`: a file that is no longer analysed, and is scheduled and reported on.
-/

namespace AnalysisCache

namespace Plan

/-- Whether no error of another file than the given ones is reported or kept, as long as only the
scheduled files are reported on. -/
def Confines (p : Plan) (files : List Path) : Prop :=
  ∀ fresh save merged, (∀ q, ¬ q.Among p.schedule → errorsAt fresh.diagnostics q = []) →
    p.merge fresh save = .ok merged → ∀ q : Path, ¬ q.Among files →
      errorsAt merged.report.diagnostics q = [] ∧
        ∀ draft, merged.draft = .ok draft → draft.errors.contains q = false

/-- Whether what a snapshot keeps for the files that are not scheduled are errors of the given
files. -/
def KeepsWithin (s : Snapshot) (files schedule : List Path) : Prop :=
  ∀ f : Path, f.Among files → ¬ f.Among schedule → ∀ ds, s.errors.get? f = some ds →
    ∀ d ∈ ds, ∀ q, d.isErrorOf q = true → q.Among files

/-! ## Errors that are reported -/

/-- After a partial run the errors that are reported are those that are kept file by file. -/
theorem mem_errorsAt_mergedReport {p : Plan} (h : p.isFull = false) {fresh : Report} {q : Path}
    {d : Diagnostic} : d ∈ errorsAt (p.mergedReport fresh).diagnostics q ↔
      d.isErrorOf q = true ∧ ∃ k ds, (p.mergedErrors fresh).get? k = some ds ∧ d ∈ ds := by
  have hReport : (p.mergedReport fresh).diagnostics = (p.mergedErrors fresh).values.flatten ++
      (Partition.ofList fresh.diagnostics).warnings ++
        (Partition.ofList fresh.diagnostics).global := by
    rw [mergedReport, h]
    rfl
  rw [mem_errorsAt, hReport, List.mem_append, List.mem_append, mem_flatten_values]
  constructor
  · rintro ⟨(hKept | hWarning) | hGlobal, hError⟩
    · exact ⟨hError, hKept⟩
    · rw [Partition.not_isErrorOf (.inl hWarning) q] at hError
      cases hError
    · rw [Partition.not_isErrorOf (.inr hGlobal) q] at hError
      cases hError
  · rintro ⟨hError, hKept⟩
    exact ⟨.inl (.inl hKept), hError⟩

/-- If a merge tells of no other files, the errors that it keeps are of the given files. -/
theorem Confines.among {p : Plan} {files : List Path} (h : p.Confines files)
    (hPartial : p.isFull = false) {fresh : Report}
    (hFresh : ∀ q, ¬ q.Among p.schedule → errorsAt fresh.diagnostics q = []) {k : Path}
    {ds : List Diagnostic} (hGet : (p.mergedErrors fresh).get? k = some ds) {d : Diagnostic}
    (hd : d ∈ ds) {q : Path} (hError : d.isErrorOf q = true) : q.Among files := by
  by_contra hOut
  have hNone := (h fresh false _ hFresh (merge_eq _ fresh false) q hOut).1
  have hMem : d ∈ errorsAt (p.mergedReport fresh).diagnostics q :=
    (mem_errorsAt_mergedReport hPartial).2 ⟨hError, k, ds, hGet, hd⟩
  rw [hNone] at hMem
  cases hMem

section reuse

variable {isFile : Path → Bool} {read : Path → Except FileError Bytes} {m : Memo} {s : Snapshot}
  {files : List Path}

theorem get?_mergedErrors_reuse (fresh : Report) (q : Path) :
    ((reuse isFile read m s files).2.mergedErrors fresh).get? q =
      if q.Among (reuse isFile read m s files).2.schedule then
        (Partition.ofList fresh.diagnostics).errors.get? q
      else if q.Among files then s.errors.get? q else none := by
  show (replaceAll _ _ (errorsOf s.errors files)).get? q = _
  rw [get?_replaceAll, get?_errorsOf]

/-- A file that is scheduled is one of the given files, or it depended on a change. -/
theorem within_reuse_iff : (∀ p ∈ (reuse isFile read m s files).2.schedule, p.Among files) ↔
    ∀ p, DependsOnChange isFile read m s files p → p.Among files := by
  constructor
  · intro hWithin p hp
    obtain ⟨q, hq, hSame⟩ : p.Among (reuse isFile read m s files).2.schedule :=
      among_schedule_iff.2 (.inr (.inl (.inr hp)))
    exact (Path.among_congr hSame).1 (hWithin q hq)
  · intro hDepends p hp
    rcases among_schedule_iff.1 (Path.among_of_mem hp) with
      ⟨hAmong, _⟩ | (⟨_, q, _, hFind, _⟩ | hChange) | ⟨_, hAmong, _⟩
    · exact hAmong
    · exact ⟨q, List.mem_of_find?_eq_some hFind, same_of_find? hFind⟩
    · exact hDepends p hChange
    · exact hAmong

theorem within_of_confines (h : (reuse isFile read m s files).2.Confines files) :
    ∀ p ∈ (reuse isFile read m s files).2.schedule, p.Among files := by
  intro p hp
  -- An error of the scheduled file alone.
  have hError : ∀ q, (Diagnostic.ofFile "" p 0).isErrorOf q = p.same q := fun _ => rfl
  have hFresh : ∀ q, ¬ q.Among (reuse isFile read m s files).2.schedule →
      errorsAt [Diagnostic.ofFile "" p 0] q = [] := by
    intro q hq
    refine errorsAt_eq_nil fun d hd => ?_
    rw [List.mem_singleton.1 hd, hError, ← Bool.not_eq_true]
    exact fun hSame => hq ⟨p, hp, hSame⟩
  have hGet : ((reuse isFile read m s files).2.mergedErrors
      ⟨[.ofFile "" p 0], none, false⟩).get? p = _ := get?_mergedErrors_reuse _ p
  rw [if_pos (Path.among_of_mem hp), Partition.get?_errors] at hGet
  simp only [errorsAt, List.filter_cons, hError, Path.same_self, if_true, List.filter_nil,
    reduceCtorEq, if_false] at hGet
  exact h.among rfl hFresh hGet List.mem_cons_self (Path.same_self p)

theorem keepsWithin_of_confines (h : (reuse isFile read m s files).2.Confines files) :
    KeepsWithin s files (reuse isFile read m s files).2.schedule := by
  intro f hf hNot ds hGet d hd q hError
  have hKept :
      ((reuse isFile read m s files).2.mergedErrors ⟨[], none, false⟩).get? f = some ds := by
    rw [get?_mergedErrors_reuse, if_neg hNot, if_pos hf, hGet]
  exact h.among rfl (fun _ _ => rfl) hKept hd hError

theorem confines_of_within (hWithin : ∀ p ∈ (reuse isFile read m s files).2.schedule, p.Among files)
    (hKeeps : KeepsWithin s files (reuse isFile read m s files).2.schedule) :
    (reuse isFile read m s files).2.Confines files := by
  intro fresh save merged hFresh hMerge q hOut
  rw [merge_eq] at hMerge
  cases hMerge
  constructor
  · refine List.eq_nil_iff_forall_not_mem.2 fun d hd => hOut ?_
    obtain ⟨hError, k, ds, hGet, hd⟩ := (mem_errorsAt_mergedReport rfl).1 hd
    rw [get?_mergedErrors_reuse] at hGet
    split at hGet
    · rename_i hAmong
      obtain ⟨p, hp, hSame⟩ := hAmong
      have hErrorOf := Partition.filed_errors fresh.diagnostics k ds hGet d hd
      rw [Diagnostic.isErrorOf_eq_same hErrorOf] at hError
      exact (Path.among_congr (Path.same_trans hSame hError)).1 (hWithin p hp)
    · rename_i hNot
      split at hGet
      · rename_i hAmong
        exact hKeeps k hAmong hNot ds hGet d hd q hError
      · cases hGet
  · intro draft hDraft
    dsimp only at hDraft
    cases hKept : kept fresh save with
    | error reason =>
      rw [hKept] at hDraft
      cases hDraft
    | ok g =>
      rw [hKept] at hDraft
      cases hDraft
      have hOutside : ¬ q.Among (reuse isFile read m s files).2.schedule := by
        rintro ⟨p, hp, hSame⟩
        exact hOut ((Path.among_congr hSame).1 (hWithin p hp))
      rw [← PathMap.get?_eq_none_iff]
      show ((reuse isFile read m s files).2.mergedErrors fresh).get? q = none
      rw [get?_mergedErrors_reuse, if_neg hOutside, if_neg hOut]

end reuse

/-- A plan that is not for all files schedules only the given files if no other file is there that
depended on a change. A merge tells of no others if, moreover, the kept errors are theirs. -/
theorem within_iff {isFile : Path → Bool} {read : Path → Except FileError Bytes} {m : Memo}
    {previous : Option Snapshot} {f : Fingerprint} {files : List Path} {debug : Bool} {now : UInt64}
    (h : (ofSnapshotFrom isFile read m previous f files debug now).2.isFull = false) :
    ∃ s, previous = some s ∧
      ((∀ p ∈ (ofSnapshotFrom isFile read m previous f files debug now).2.schedule, p.Among files) ↔
        ∀ p, DependsOnChange isFile read m s files p → p.Among files) ∧
      ((ofSnapshotFrom isFile read m previous f files debug now).2.Confines files ↔
        (∀ p, DependsOnChange isFile read m s files p → p.Among files) ∧
          KeepsWithin s files (ofSnapshotFrom isFile read m previous f files debug now).2.schedule) := by
  rcases ofSnapshotFrom_cases isFile read m previous f files debug now with
    ⟨reason, hEq⟩ | ⟨s, _, hPrevious, _, _, hEq⟩
  · rw [hEq] at h
    cases h
  · rw [hEq]
    refine ⟨s, hPrevious, within_reuse_iff, fun hConfines => ?_, fun ⟨hDepends, hKeeps⟩ => ?_⟩
    · exact ⟨within_reuse_iff.1 (within_of_confines hConfines), keepsWithin_of_confines hConfines⟩
    · exact confines_of_within (within_reuse_iff.2 hDepends) hKeeps

/-! ## A file that is no longer analysed -/

namespace Departed

def analysed : Path := .ofText "a"

def departed : Path := .ofText "b"

/-- Both files are there. -/
def files : FileTree := (FileTree.empty.set [[0x61]] (.file [1])).set [[0x62]] (.file [2])

/-- A snapshot of both files in which the one depends on the other, whose content was another. -/
def previous : Snapshot where
  lastFull := 0
  fingerprint := (Fingerprint.ofSettings files .empty (.ofCacheFile (.ofText "c"))).2
  errors := .empty
  dependents := (PathMap.empty.insert analysed ⟨.ofSource [3], [departed]⟩).insert departed
    ⟨.ofSource [2], []⟩

def plan : Plan :=
  (ofSnapshot files .empty (some previous) previous.fingerprint [analysed] false 0).2

/-- A report of an error in a file. -/
def report (p : Path) : Report := ⟨[.ofFile "an error" p 1], none, false⟩

/-- Of the two files only one is to be analysed, but both are, and the other one is reported on. -/
theorem not_within : plan.isFull = false ∧ departed ∈ plan.schedule ∧ ¬ departed.Among [analysed] ∧
    (plan.merge (report departed) false).toOption.map (fun merged =>
      errorsAt merged.report.diagnostics departed) = some (report departed).diagnostics := by
  decide +kernel

/-- The file is outside since it depended on a change. -/
theorem within_iff_departed : plan.isFull = false ∧ (¬ ∀ p ∈ plan.schedule, p.Among [analysed]) ∧
    (∃ p, DependsOnChange files.isFile files.read .empty previous [analysed] p ∧
      ¬ p.Among [analysed]) ∧ ¬ plan.Confines [analysed] := by
  have hPartial : plan.isFull = false := by decide +kernel
  have hOutside : ¬ ∀ p ∈ plan.schedule, p.Among [analysed] := by decide +kernel
  obtain ⟨s, hs, hWithin, hConfines⟩ := within_iff hPartial
  cases hs
  have hDepends := mt hWithin.2 hOutside
  refine ⟨hPartial, hOutside, ?_, fun h => hDepends (hConfines.1 h).1⟩
  push Not at hDepends
  exact hDepends

end Departed

end Plan

end AnalysisCache
