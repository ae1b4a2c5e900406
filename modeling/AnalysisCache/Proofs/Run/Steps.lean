import AnalysisCache.Proofs.Fingerprint.Inputs
import AnalysisCache.Proofs.Plan.Merge
import AnalysisCache.Proofs.Snapshot.Store
import AnalysisCache.Run

/-!
# The steps of a run

A run is taken apart into what it loads, the fingerprint, the plan, the merge and the save. Digests
are taken on the way, all of them of the files that are at hand when the plan is made, until the run
is saved.

* `Run.processFrom_eq`: what a run makes of a report.
* `Snapshot.saveDraftFrom_cases`: what is saved of a draft.
-/

namespace AnalysisCache

theorem eq_ok_of_isOk_map {α : Type} {outcome : Except CacheError Unit} {f : Unit → α}
    (h : (outcome.map f).isOk = true) : outcome = .ok () := by
  cases outcome with
  | ok _ => rfl
  | error e => cases h

namespace Run

/-- The snapshot that a run starts from, and the files after it is loaded. -/
def previous (t : FileTree) (c : Path) (debug : Bool) : FileTree × Option Snapshot :=
  if debug then (t, none) else Snapshot.load t c

theorem read_of_read_previous {t : FileTree} {c p : Path} {debug : Bool} {content : Bytes}
    (h : (previous t c debug).1.read p = .ok content) : t.read p = .ok content := by
  rw [previous] at h
  split at h
  · exact h
  · exact Snapshot.read_of_read_load h

theorem previous_eq_some {t : FileTree} {c : Path} {debug : Bool} {s : Snapshot}
    (h : (previous t c debug).2 = some s) :
    (previous t c debug).1 = t ∧ (Snapshot.load t c).2 = some s := by
  rw [previous] at h ⊢
  split at h
  · cases h
  · rename_i hDebug
    rw [if_neg hDebug]
    exact ⟨Snapshot.files_of_load h, h⟩

/-- A run looks at the files only after it has looked at the cache. -/
theorem restore_eq (r : Run) (t : FileTree) (files : List Path) (debug : Bool) (now : UInt64) :
    r.restore t files debug now =
      let before := previous t r.cacheFile debug
      let (r, f) := r.fingerprint before.1
      let (m, plan) := Plan.ofSnapshot before.1 r.memo before.2 f files debug now
      (before.1, { r with memo := m }, plan) := rfl

theorem cacheFile_fingerprintFrom (isFile : Path → Bool) (read : Path → Except FileError Bytes)
    (r : Run) : (r.fingerprintFrom isFile read).1.cacheFile = r.cacheFile := by
  rw [fingerprintFrom]
  cases r.taken <;> rfl

/-- A run that is kept is saved under its fingerprint, which may only now be taken. -/
theorem processFrom_eq (isFile : Path → Bool) (read : Path → Except FileError Bytes) (r : Run)
    (t : FileTree) (fresh : Report) (plan : Plan) (save : Bool) :
    r.processFrom isFile read t fresh plan save =
      match Plan.kept fresh save with
      | .error _ => (t, r, .ok (plan.mergedReport fresh))
      | .ok g =>
        let taken := r.fingerprintFrom isFile read
        let saved := Snapshot.saveDraftFrom isFile read t taken.1.memo r.cacheFile taken.2
          ⟨plan.lastFull, plan.mergedErrors fresh, plan.mergedDependencies g⟩
        (saved.1, { taken.1 with memo := saved.2.1 },
          saved.2.2.map fun _ => plan.mergedReport fresh) := by
  rw [processFrom, Plan.merge_eq, ← cacheFile_fingerprintFrom isFile read r]
  cases Plan.kept fresh save <;> rfl

theorem process_eq_saveDraft (r : Run) (t : FileTree) (fresh : Report) (plan : Plan)
    (save : Bool) :
    r.process t fresh plan save =
      match Plan.kept fresh save with
      | .error _ => (t, r, .ok (plan.mergedReport fresh))
      | .ok g =>
        let saved := Snapshot.saveDraft t (r.fingerprint t).1.memo r.cacheFile (r.fingerprint t).2
          ⟨plan.lastFull, plan.mergedErrors fresh, plan.mergedDependencies g⟩
        (saved.1, { (r.fingerprint t).1 with memo := saved.2.1 },
          saved.2.2.map fun _ => plan.mergedReport fresh) :=
  processFrom_eq t.isFile t.read r t fresh plan save

theorem process_eq {r : Run} {f : Fingerprint} (h : r.taken = some f) (t : FileTree)
    (fresh : Report) (plan : Plan) (save : Bool) :
    r.process t fresh plan save =
      match Plan.kept fresh save with
      | .error _ => (t, r, .ok (plan.mergedReport fresh))
      | .ok g =>
        let saved := Snapshot.saveDraft t r.memo r.cacheFile f
          ⟨plan.lastFull, plan.mergedErrors fresh, plan.mergedDependencies g⟩
        (saved.1, { r with memo := saved.2.1 },
          saved.2.2.map fun _ => plan.mergedReport fresh) := by
  have hTaken : r.fingerprint t = (r, f) := by rw [fingerprint, fingerprintFrom, h]
  rw [process_eq_saveDraft, hTaken]

end Run

namespace Snapshot

/-- A draft is saved as a snapshot, unless its dependencies cannot be turned round. -/
theorem saveDraftFrom_cases (isFile : Path → Bool) (read : Path → Except FileError Bytes)
    (t : FileTree) (m : Memo) (p : Path) (f : Fingerprint) (d : Draft) :
    (∃ m' g, d.dependencies.dependentsFrom isFile read m = (m', .ok g) ∧
        saveDraftFrom isFile read t m p f d =
          ((save t p ⟨d.lastFull, f, d.errors, g⟩).1, m',
            (save t p ⟨d.lastFull, f, d.errors, g⟩).2)) ∨
      ∃ m' e, d.dependencies.dependentsFrom isFile read m = (m', .error e) ∧
        saveDraftFrom isFile read t m p f d = (t, m', .error e) := by
  rw [saveDraftFrom]
  cases hDependents : d.dependencies.dependentsFrom isFile read m with
  | mk m' outcome =>
    cases outcome with
    | ok g => exact .inl ⟨m', g, rfl, rfl⟩
    | error e => exact .inr ⟨m', e, rfl, rfl⟩

theorem saveDraft_cases (t : FileTree) (m : Memo) (p : Path) (f : Fingerprint) (d : Draft) :
    (∃ m' g, d.dependencies.dependents t m = (m', .ok g) ∧
        saveDraft t m p f d =
          ((save t p ⟨d.lastFull, f, d.errors, g⟩).1, m',
            (save t p ⟨d.lastFull, f, d.errors, g⟩).2)) ∨
      ∃ m' e, d.dependencies.dependents t m = (m', .error e) ∧
        saveDraft t m p f d = (t, m', .error e) :=
  saveDraftFrom_cases t.isFile t.read t m p f d

/-- A draft that is saved is saved as a snapshot with the graph that its dependencies are turned
into. -/
theorem exists_save_of_saveDraftFrom {isFile : Path → Bool} {read : Path → Except FileError Bytes}
    {t : FileTree} {m : Memo} {p : Path} {f : Fingerprint} {d : Draft}
    (h : (saveDraftFrom isFile read t m p f d).2.2 = .ok ()) :
    ∃ m' g, d.dependencies.dependentsFrom isFile read m = (m', .ok g) ∧
      save t p ⟨d.lastFull, f, d.errors, g⟩ =
        ((saveDraftFrom isFile read t m p f d).1, .ok ()) := by
  rcases saveDraftFrom_cases isFile read t m p f d with
    ⟨m', g, hDependents, hEq⟩ | ⟨m', e, _, hEq⟩
  · rw [hEq] at h ⊢
    exact ⟨m', g, hDependents, Prod.ext rfl h⟩
  · rw [hEq] at h
    cases h

theorem exists_save_of_saveDraft {t : FileTree} {m : Memo} {p : Path} {f : Fingerprint} {d : Draft}
    (h : (saveDraft t m p f d).2.2 = .ok ()) :
    ∃ m' g, d.dependencies.dependents t m = (m', .ok g) ∧
      save t p ⟨d.lastFull, f, d.errors, g⟩ = ((saveDraft t m p f d).1, .ok ()) :=
  exists_save_of_saveDraftFrom h

theorem saveDraft_eq_ok {t u : FileTree} {m m' : Memo} {p : Path} {f : Fingerprint} {n : UInt64}
    {errors : ErrorsByFile} {g : DependencyGraph} {d : DependentGraph}
    (hDependents : g.dependents t m = (m', .ok d))
    (hSave : save t p ⟨n, f, errors, d⟩ = (u, .ok ())) :
    saveDraft t m p f ⟨n, errors, g⟩ = (u, m', .ok ()) := by
  rw [DependencyGraph.dependents] at hDependents
  rw [saveDraft, saveDraftFrom]
  dsimp only
  rw [hDependents]
  dsimp only
  rw [hSave]

end Snapshot

end AnalysisCache
