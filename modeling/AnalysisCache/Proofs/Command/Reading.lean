import AnalysisCache.Command.Run
import AnalysisCache.Proofs.Snapshot.Foreign
import AnalysisCache.Proofs.Run.Steps

/-!
# Reading the cache

Whatever is in the place of the cache file, it is read without harm. A JSON document that is no
snapshot is removed, and nothing else is ever touched, be it by a run that restores a plan or by a
command that reports. Once the document is gone the cache reads as it did before, so that a plan can
be restored again.

* `Run.plan_restore_restore`: a plan that is restored once more.
* `Invocation.files_of_run`: what a command that reports does to the files.
* `Snapshot.load_spares`: what reading does, to the cache and to all other files.
-/

namespace AnalysisCache

open FileTree (Without)

/-! ## Runs -/

namespace Run

theorem previous_previous (t : FileTree) (c : Path) (debug : Bool) :
    previous (previous t c debug).1 c false = previous t c false := by
  cases debug with
  | true => rfl
  | false => exact Snapshot.load_load t c

/-- A plan is not another one because a plan was restored before. -/
theorem plan_restore_restore {r later : Run} (h : later.cacheFile = r.cacheFile) (t : FileTree)
    (files files' : List Path) (debug debug' : Bool) (now now' : UInt64) :
    (later.restore (r.restore t files' debug' now').1 files debug now).2.2 =
      (later.restore t files debug now).2.2 := by
  cases debug with
  | true => rfl
  | false =>
    have hFiles : (r.restore t files' debug' now').1 = (previous t later.cacheFile debug').1 := by
      rw [h]
      rfl
    rw [restore_eq, hFiles, previous_previous, ← restore_eq]

end Run

/-! ## Commands -/

namespace Invocation

/-- A command that does not clear the cache does no more to the files than to load the cache. -/
theorem files_of_run {t : FileTree} {i : Invocation} (h : i.command ≠ .clear) (now : UInt64) :
    (i.run t now).1 = t ∨ ∃ p, Project.load t (i.config.map Path.ofText) = .ok p ∧
      (i.run t now).1 = (Snapshot.load t p.settings.cacheFile).1 := by
  rw [run]
  cases hProject : Project.load t (i.config.map Path.ofText) with
  | error e => exact .inl rfl
  | ok p =>
    dsimp only
    cases hCommand : i.command with
    | clear => exact absurd hCommand h
    | status debug format =>
      dsimp only [runStatus]
      cases p.files t with
      | error e => exact .inl rfl
      | ok files =>
        cases debug with
        | true => exact .inl rfl
        | false => exact .inr ⟨p, rfl, rfl⟩
    | dump format =>
      refine .inr ⟨p, rfl, ?_⟩
      dsimp only [runDump]
      show _ = ((Run.start p.settings).load t).1
      cases (Run.start p.settings).load t with
      | mk u loaded => cases loaded <;> rfl

end Invocation

/-- Reading the cache loads a snapshot exactly if the cache file holds one, removes the cache file
exactly if it holds a document that is neither a snapshot nor `null`, and leaves all as it is
otherwise. A run that restores a plan does just that, and not even that in debug mode, and no run
that comes after it restores another plan because of it. The commands that report do no more. -/
theorem Snapshot.load_spares (t : FileTree) (c : Path) :
    (∀ s, (load t c).2 = some s ↔ ∃ v, Holds t c v ∧ ofJson? v = some s) ∧
    (Without t (load t c).1 c ↔ ∃ v, Holds t c v ∧ v ≠ .null ∧ ofJson? v = none) ∧
    (¬ Without t (load t c).1 c → (load t c).1 = t) ∧
    (∀ (r : Run) (files : List Path) (debug : Bool) (now : UInt64), r.cacheFile = c →
      (r.restore t files debug now).1 = if debug then t else (load t c).1) ∧
    (∀ (r later : Run) (files files' : List Path) (debug debug' : Bool) (now now' : UInt64),
      r.cacheFile = c → later.cacheFile = c →
        (later.restore (r.restore t files' debug' now').1 files debug now).2.2 =
          (later.restore t files debug now).2.2) ∧
    ∀ (i : Invocation) (now : UInt64), i.command ≠ .clear → (i.run t now).1 = t ∨
      ∃ p, Project.load t (i.config.map Path.ofText) = .ok p ∧
        IsForeign t p.settings.cacheFile ∧ Without t (i.run t now).1 p.settings.cacheFile := by
  refine ⟨fun s => load_eq_some_iff_holds, isForeign_iff.symm, fun hNot => ?_, ?_, ?_, ?_⟩
  · exact files_of_load_of_not_isForeign fun h => hNot (isForeign_iff.1 h)
  · rintro r files debug now rfl
    cases debug <;> rfl
  · rintro r later files files' debug debug' now now' rfl hLater
    exact Run.plan_restore_restore hLater t files files' debug debug' now now'
  · intro i now hCommand
    rcases Invocation.files_of_run hCommand now with hSame | ⟨p, hProject, hFiles⟩
    · exact .inl hSame
    · by_cases h : IsForeign t p.settings.cacheFile
      · refine .inr ⟨p, hProject, h, ?_⟩
        rw [hFiles]
        exact isForeign_iff.1 h
      · rw [files_of_load_of_not_isForeign h] at hFiles
        exact .inl hFiles

/-! ## A list in the place of the cache file -/

namespace Snapshot.Stray

def cache : Path := .ofText "c"

/-- A file that holds an empty list. -/
def files : FileTree := FileTree.empty.set [[0x63]] (.file [0x5B, 0x5D])

def run : Run := .start (.ofCacheFile cache)

def dump : Invocation := ⟨false, false, none, .dump .json⟩

theorem holds_list : Holds files cache (.array []) :=
  ⟨[0x5B, 0x5D], "[]", by decide +kernel, by decide +kernel, by cbv⟩

/-- The list is removed, but not in debug mode, and the plan is restored once more. -/
theorem load_spares_all_but_list :
    Without files (load files cache).1 cache ∧ (run.restore files [cache] true 0).1 = files ∧
    (run.restore files [cache] false 0).1 = (load files cache).1 ∧
    (run.restore (run.restore files [cache] false 0).1 [cache] false 0).2.2 =
      (run.restore files [cache] false 0).2.2 ∧
    ((dump.run files 0).1 = files ∨ ∃ p, Project.load files none = .ok p ∧
      IsForeign files p.settings.cacheFile ∧
        Without files (dump.run files 0).1 p.settings.cacheFile) := by
  obtain ⟨-, hRemoved, -, hRestore, hAgain, hReport⟩ := load_spares files cache
  refine ⟨hRemoved.2 ⟨.array [], holds_list, ⟨nofun, rfl⟩⟩, ?_, ?_, ?_, ?_⟩
  · exact hRestore run [cache] true 0 rfl
  · exact hRestore run [cache] false 0 rfl
  · exact hAgain run run [cache] [cache] false false 0 0 rfl rfl
  · exact hReport dump 0 (by decide)

end Snapshot.Stray

end AnalysisCache
