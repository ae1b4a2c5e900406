import AnalysisCache.Plan.Merge
import AnalysisCache.Proofs.Dependencies.Links
import AnalysisCache.Proofs.Diagnostic.Partition
import AnalysisCache.Proofs.Plan.Schedule

/-!
# What a merge gives

Merging never fails. For a file that was scheduled everything is taken from the fresh report, and
for any other file it stays as the plan has it.

* `Plan.merge_eq`: the outcome of a merge.
* `Plan.errorsAt_mergedReport`: the errors that are reported for a file.
-/

namespace AnalysisCache

open PathMap (valuesAt)

/-! ## Replacing values -/

namespace Plan

variable {α : Type}

/-- Gives a file the value that it has in `fresh`, or none. -/
def replaceOne (fresh kept : PathMap α) (f : Path) : PathMap α :=
  match fresh.get? f with
  | some v => kept.insert f v
  | none => kept.erase f

theorem replaceAll_eq (files : List Path) (fresh kept : PathMap α) :
    replaceAll files fresh kept = files.foldl (replaceOne fresh) kept := rfl

theorem get?_replaceOne (fresh kept : PathMap α) (f p : Path) :
    (replaceOne fresh kept f).get? p = if f.same p then fresh.get? p else kept.get? p := by
  rw [replaceOne]
  cases hSame : f.same p with
  | true =>
    rw [if_pos rfl, ← PathMap.get?_congr fresh hSame]
    cases fresh.get? f with
    | none => simp only [PathMap.get?_erase, hSame, if_true]
    | some v => simp only [PathMap.get?_insert, hSame, if_true]
  | false =>
    cases fresh.get? f with
    | none => simp only [PathMap.get?_erase, hSame, Bool.false_eq_true, if_false]
    | some v => simp only [PathMap.get?_insert, hSame, Bool.false_eq_true, if_false]

theorem get?_replaceAll (files : List Path) (fresh kept : PathMap α) (p : Path) :
    (replaceAll files fresh kept).get? p =
      if p.Among files then fresh.get? p else kept.get? p := by
  rw [replaceAll_eq]
  induction files generalizing kept with
  | nil => rw [if_neg (Path.not_among_nil p)]; rfl
  | cons f rest ih =>
    rw [List.foldl_cons, ih, get?_replaceOne]
    by_cases hRest : p.Among rest
    · rw [if_pos hRest, if_pos (Path.among_cons_iff.2 (.inr hRest))]
    · rw [if_neg hRest]
      cases hSame : f.same p with
      | true => rw [if_pos rfl, if_pos (Path.among_cons_iff.2 (.inl hSame))]
      | false =>
        rw [if_neg (by decide), if_neg]
        rw [Path.among_cons_iff, hSame]
        rintro (h | h)
        · cases h
        · exact hRest h

/-- A path is a key after a replacement if it is one where its value is from. -/
theorem among_keys_replaceAll {files : List Path} {fresh kept : PathMap α} {p : Path} :
    p.Among (replaceAll files fresh kept).keys ↔
      p.Among files ∧ p.Among fresh.keys ∨ ¬ p.Among files ∧ p.Among kept.keys := by
  simp only [← PathMap.contains_iff, PathMap.contains_eq_isSome, get?_replaceAll]
  by_cases h : p.Among files <;> simp [h]

theorem mem_keys_replaceAll {files : List Path} {fresh kept : PathMap α} {k : Path}
    (h : k ∈ (replaceAll files fresh kept).keys) : k ∈ files ∨ k ∈ kept.keys := by
  rw [replaceAll_eq] at h
  induction files generalizing kept with
  | nil => exact .inr h
  | cons f rest ih =>
    rcases ih h with hk | hk
    · exact .inl (List.mem_cons_of_mem f hk)
    · rw [replaceOne] at hk
      cases hf : fresh.get? f with
      | none =>
        rw [hf] at hk
        exact .inr (PathMap.mem_keys_erase hk)
      | some v =>
        rw [hf] at hk
        rcases PathMap.mem_keys_insert hk with rfl | hk
        · exact .inl List.mem_cons_self
        · exact .inr hk

end Plan

namespace Plan

/-! ## Merging -/

/-- The errors of each file after a run. -/
def mergedErrors (p : Plan) (fresh : Report) : ErrorsByFile :=
  let parts := Partition.ofList fresh.diagnostics
  if p.isFull then parts.errors else replaceAll p.schedule parts.errors p.errors

/-- The dependencies of each file after a run. -/
def mergedDependencies (p : Plan) (g : DependencyGraph) : DependencyGraph :=
  if p.isFull then g else replaceAll p.schedule g p.dependents.forward

/-- What is reported after a run. -/
def mergedReport (p : Plan) (fresh : Report) : Report :=
  let parts := Partition.ofList fresh.diagnostics
  if p.isFull then fresh
  else { fresh with
    diagnostics := (p.mergedErrors fresh).values.flatten ++ parts.warnings ++ parts.global }

/-- The dependencies that a run is kept with, if it is kept. -/
def kept (fresh : Report) (save : Bool) : Except SkipReason DependencyGraph :=
  keepable fresh (Partition.ofList fresh.diagnostics) save

theorem merge_eq (p : Plan) (fresh : Report) (save : Bool) :
    p.merge fresh save = .ok ⟨p.mergedReport fresh, (kept fresh save).map fun g =>
      ⟨p.lastFull, p.mergedErrors fresh, p.mergedDependencies g⟩⟩ := by
  rw [merge, mergedReport, mergedErrors]
  simp only [kept, mergedDependencies]
  cases p.isFull with
  | true => rfl
  | false =>
    rw [if_neg (by decide), DependentGraph.dependencies_eq]
    cases keepable fresh (Partition.ofList fresh.diagnostics) save <;> rfl

theorem kept_eq_ok_iff {fresh : Report} {save : Bool} {g : DependencyGraph} :
    kept fresh save = .ok g ↔
      save = true ∧ fresh.dependencies = some g ∧
        (Partition.ofList fresh.diagnostics).isUnstable = false := by
  rw [kept, keepable, Partition.isUnstable]
  cases save with
  | false => simp
  | true =>
    cases fresh.dependencies with
    | none => simp
    | some h =>
      cases (Partition.ofList fresh.diagnostics).global.isEmpty <;>
        cases (Partition.ofList fresh.diagnostics).warnings.isEmpty <;> simp

/-- A run is kept if its dependencies are known and there is nothing to report but errors of files. -/
theorem kept_eq_ok {fresh : Report} {g : DependencyGraph} (hDependencies : fresh.dependencies = some g)
    (hStable : ∀ d ∈ fresh.diagnostics, ¬ (d.kind = .global ∨ d.kind = .warning)) :
    kept fresh true = .ok g := by
  refine kept_eq_ok_iff.2 ⟨rfl, hDependencies, ?_⟩
  rw [← Bool.not_eq_true, Partition.isUnstable_iff]
  rintro ⟨d, hd, hKind⟩
  exact hStable d hd hKind

theorem filed_mergedErrors {p : Plan} (h : p.errors.Filed) (fresh : Report) :
    (p.mergedErrors fresh).Filed := by
  have hFresh := Partition.filed_errors fresh.diagnostics
  rw [mergedErrors]
  split
  · exact hFresh
  · intro q ds hq
    rw [get?_replaceAll] at hq
    split at hq
    · exact hFresh q ds hq
    · exact h q ds hq

/-- The errors that are kept for a file after a run. -/
theorem getD_mergedErrors (p : Plan) (fresh : Report) (q : Path) :
    ((p.mergedErrors fresh).get? q).getD [] =
      if p.isFull = true ∨ q.Among p.schedule then errorsAt fresh.diagnostics q
      else (p.errors.get? q).getD [] := by
  rw [mergedErrors]
  cases p.isFull with
  | true => rw [if_pos rfl, if_pos (.inl rfl), Partition.getD_errors]
  | false =>
    rw [if_neg (by decide), get?_replaceAll]
    by_cases h : q.Among p.schedule
    · rw [if_pos h, if_pos (.inr h), Partition.getD_errors]
    · rw [if_neg h, if_neg]
      rintro (hFull | hAmong)
      · cases hFull
      · exact h hAmong

/-- The errors that are reported for a file are among those that are kept, and in their order. -/
theorem errorsAt_mergedReport_eq_flatten (p : Plan) (fresh : Report) (q : Path) :
    errorsAt (p.mergedReport fresh).diagnostics q =
      errorsAt (p.mergedErrors fresh).values.flatten q := by
  cases hFull : p.isFull with
  | true =>
    rw [mergedReport, if_pos hFull, mergedErrors, if_pos hFull,
      errorsAt_flatten (Partition.filed_errors _), Partition.getD_errors]
  | false =>
    rw [mergedReport, if_neg (by rw [hFull]; decide)]
    dsimp only
    rw [errorsAt_append, errorsAt_append,
      errorsAt_eq_nil fun d hd => Partition.not_isErrorOf (.inl hd) q,
      errorsAt_eq_nil fun d hd => Partition.not_isErrorOf (.inr hd) q, List.append_nil,
      List.append_nil]

/-- The errors that are reported for a file after a run. -/
theorem errorsAt_mergedReport {p : Plan} (h : p.errors.Filed) (fresh : Report) (q : Path) :
    errorsAt (p.mergedReport fresh).diagnostics q =
      if p.isFull = true ∨ q.Among p.schedule then errorsAt fresh.diagnostics q
      else (p.errors.get? q).getD [] := by
  rw [← getD_mergedErrors, errorsAt_mergedReport_eq_flatten,
    errorsAt_flatten (filed_mergedErrors h fresh)]

/-! ## Where nothing is scheduled

All that is kept is what is carried over. -/

section

variable {isFile : Path → Bool} {read : Path → Except FileError Bytes} {m : Memo} {s : Snapshot}
  {files : List Path} (hSchedule : (reuse isFile read m s files).2.schedule = [])

include hSchedule

theorem mergedErrors_reuse (fresh : Report) :
    (reuse isFile read m s files).2.mergedErrors fresh = errorsOf s.errors files := by
  have hPartial : (reuse isFile read m s files).2.isFull = false := rfl
  rw [mergedErrors, if_neg (by rw [hPartial]; decide), hSchedule]
  rfl

theorem mergedDependencies_reuse (g : DependencyGraph) :
    (reuse isFile read m s files).2.mergedDependencies g =
      (s.dependents.restrict files).forward := by
  have hPartial : (reuse isFile read m s files).2.isFull = false := rfl
  rw [mergedDependencies, if_neg (by rw [hPartial]; decide), hSchedule]
  rfl

end

end Plan

end AnalysisCache
