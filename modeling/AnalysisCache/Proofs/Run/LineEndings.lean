import AnalysisCache.Proofs.Files.Lines
import AnalysisCache.Proofs.Run.Sight
import AnalysisCache.Proofs.Snapshot.Room

/-!
# Runs do not see how lines end

Files that differ in nothing but their line ends are the same to a run. Only of the cache file the
content itself is read, so that it has to be the same in both trees: the file that the path of the
cache names once its directory is there. In a tree without stray nodes, and for a path that does not
go up, that is the file that it names before (`FileTree.SameLines.cached_eq_iff`).

* `FileTree.SameLines.restore`: what a run restores.
* `FileTree.SameLines.process`: what a run makes of a report.
* `Run.ignores_line_ends`: runs on files that differ in their line ends.
-/

namespace AnalysisCache

namespace FileTree.SameLines

open Snapshot (cached makeRoom IsForeign)

variable {t u : FileTree} {c : Path} (h : t.SameLines u)

include h

/-! ## The cache file -/

theorem makeRoom (c : Path) : Both (Snapshot.makeRoom t c) (Snapshot.makeRoom u c) := by
  rw [Snapshot.makeRoom, Snapshot.makeRoom]
  cases c.parent? with
  | none => exact ⟨h, rfl⟩
  | some d =>
    obtain ⟨v, w, outcome, hv, hw, hMade⟩ := (h.makeDirectories d).cases
    dsimp only
    split
    · exact ⟨h, rfl⟩
    · rw [hv, hw]
      cases outcome <;> exact ⟨hMade, rfl⟩

theorem read_eq_of_cached (hCache : cached t c = cached u c) : t.read c = u.read c := by
  rcases h.read_cases c with ⟨e, ht, hu⟩ | ⟨a, b, ht, hu, _⟩
  · rw [ht, hu]
  · rw [Snapshot.cached_of_read ht, Snapshot.cached_of_read hu] at hCache
    rw [ht, hu, hCache]

/-- Making the directory of the cache file matters only where that brings a file to light. -/
theorem cached_eq_iff (ht : t.Rooted) (hUp : Component.up ∉ c.components) :
    cached t c = cached u c ↔ t.read c = u.read c := by
  refine ⟨h.read_eq_of_cached, fun hRead => ?_⟩
  cases hFile : t.read c with
  | ok content =>
    rw [Snapshot.cached_of_read hFile, Snapshot.cached_of_read (hRead ▸ hFile)]
  | error e =>
    refine (h.makeRoom c).files.read_eq_of_not_isFile ?_
    rw [← Bool.not_eq_true, isFile_iff]
    rintro ⟨content, hMade⟩
    rw [Snapshot.read_of_read_makeRoom ht hUp hMade] at hFile
    cases hFile

theorem load (hRead : t.read c = u.read c) : Both (Snapshot.load t c) (Snapshot.load u c) := by
  rw [Snapshot.load, Snapshot.load, Snapshot.document?_eq, Snapshot.document?_eq, hRead,
    ← Snapshot.document?_eq]
  cases Snapshot.document? u c with
  | none => exact ⟨h, rfl⟩
  | some v =>
    have hRemoved := (h.removeFile c).files
    cases v with
    | null => exact ⟨h, rfl⟩
    | _ =>
      dsimp only
      split
      · exact ⟨h, rfl⟩
      · exact ⟨hRemoved, rfl⟩

/-- After loading, the cache file is the same in both trees, or it is gone in both. -/
theorem cached_load (hCache : cached t c = cached u c) :
    cached (Snapshot.load t c).1 c = cached (Snapshot.load u c).1 c := by
  have hRead := h.read_eq_of_cached hCache
  have hForeign : IsForeign t c ↔ IsForeign u c := by
    rw [IsForeign, IsForeign]
    simp only [Snapshot.Holds, hRead]
  by_cases hGone : IsForeign t c
  · rw [Snapshot.cached_load_of_isForeign hGone,
      Snapshot.cached_load_of_isForeign (hForeign.1 hGone)]
    exact (h.load hRead).files.read_eq_of_not_isFile (Snapshot.isForeign_iff.1 hGone).not_isFile
  · rw [Snapshot.files_of_load_of_not_isForeign hGone,
      Snapshot.files_of_load_of_not_isForeign (mt hForeign.2 hGone)]
    exact hCache

theorem save (c : Path) (s : Snapshot) : Both (Snapshot.save t c s) (Snapshot.save u c s) := by
  obtain ⟨t', u', outcome, ht, hu, hFiles⟩ := (h.makeRoom c).cases
  rw [Snapshot.save, Snapshot.save, ht, hu]
  cases outcome with
  | error e => exact ⟨hFiles, rfl⟩
  | ok _ =>
    dsimp only
    cases s.text with
    | error e => exact ⟨hFiles, rfl⟩
    | ok text =>
      obtain ⟨v, w, outcome, hv, hw, hWritten⟩ := (hFiles.write c (Bytes.ofText text)).cases
      dsimp only
      rw [hv, hw]
      cases outcome <;> exact ⟨hWritten, rfl⟩

/-- The cache file holds what has been saved, or what it held before. -/
theorem read_save_eq (hCache : cached t c = cached u c) (s : Snapshot) :
    (Snapshot.save t c s).1.read c = (Snapshot.save u c s).1.read c := by
  obtain ⟨t', u', outcome, ht, hu, _⟩ := (h.save c s).cases
  rw [ht, hu]
  cases outcome with
  | ok _ => exact Snapshot.read_eq_of_save ht hu
  | error e =>
    rw [Snapshot.files_of_save_error ht, Snapshot.files_of_save_error hu]
    exact hCache

/-! ## Runs -/

theorem fingerprint_eq (r : Run) : r.fingerprint t = r.fingerprint u := by
  have hPrint : Fingerprint.ofSettingsFrom t.isFile t.read r.memo r.settings =
      Fingerprint.ofSettingsFrom u.isFile u.read r.memo r.settings :=
    Fingerprint.ofSettings_congr (fun p _ => h.digestOf_eq p) r.memo
  rw [Run.fingerprint, Run.fingerprint, Run.fingerprintFrom, Run.fingerprintFrom, hPrint]

theorem previous (hRead : t.read c = u.read c) (debug : Bool) :
    Both (Run.previous t c debug) (Run.previous u c debug) := by
  cases debug with
  | true => exact ⟨h, rfl⟩
  | false => exact h.load hRead

/-- A run restores the same plan from both trees. -/
theorem restore {r : Run} (hRead : t.read r.cacheFile = u.read r.cacheFile) (files : List Path)
    (debug : Bool) (now : UInt64) :
    Both (r.restore t files debug now) (r.restore u files debug now) := by
  obtain ⟨hFiles, hPrevious⟩ := h.previous hRead debug
  refine ⟨hFiles, ?_⟩
  rw [Run.restore_eq, Run.restore_eq]
  dsimp only
  rw [hFiles.fingerprint_eq, hPrevious, Plan.ofSnapshot_congr hFiles.digestOf_eq]

theorem cached_restore {r : Run} (hCache : cached t r.cacheFile = cached u r.cacheFile)
    (files : List Path) (debug : Bool) (now : UInt64) :
    cached (r.restore t files debug now).1 r.cacheFile =
      cached (r.restore u files debug now).1 r.cacheFile := by
  cases debug with
  | true => exact hCache
  | false => exact h.cached_load hCache

theorem dependentsFrom_eq (g : DependencyGraph) (m : Memo) :
    g.dependentsFrom t.isFile t.read m = g.dependentsFrom u.isFile u.read m :=
  DependencyGraph.dependents_congr (fun e _ => h.digestOf_eq e.2) (fun k _ => h.digestOf_eq k) m

theorem saveDraft (m : Memo) (c : Path) (f : Fingerprint) (d : Snapshot.Draft) :
    Both (Snapshot.saveDraft t m c f d) (Snapshot.saveDraft u m c f d) := by
  rw [Snapshot.saveDraft, Snapshot.saveDraft, Snapshot.saveDraftFrom, Snapshot.saveDraftFrom,
    h.dependentsFrom_eq]
  rcases d.dependencies.dependentsFrom u.isFile u.read m with ⟨m, outcome⟩
  cases outcome with
  | error e => exact ⟨h, rfl⟩
  | ok g =>
    have hSaved := h.save c ⟨d.lastFull, f, d.errors, g⟩
    exact ⟨hSaved.files, Prod.ext rfl hSaved.outcome_eq⟩

theorem read_saveDraft_eq (hCache : cached t c = cached u c) (m : Memo) (f : Fingerprint)
    (d : Snapshot.Draft) :
    (Snapshot.saveDraft t m c f d).1.read c = (Snapshot.saveDraft u m c f d).1.read c := by
  rw [Snapshot.saveDraft, Snapshot.saveDraft, Snapshot.saveDraftFrom, Snapshot.saveDraftFrom,
    h.dependentsFrom_eq]
  rcases d.dependencies.dependentsFrom u.isFile u.read m with ⟨m, outcome⟩
  cases outcome with
  | error e => exact h.read_eq_of_cached hCache
  | ok g => exact h.read_save_eq hCache _

/-- A run makes the same of a report in both trees. -/
theorem process (r : Run) (fresh : Report) (plan : Plan) (save : Bool) :
    Both (r.process t fresh plan save) (r.process u fresh plan save) := by
  rw [Run.process_eq_saveDraft, Run.process_eq_saveDraft, h.fingerprint_eq]
  cases Plan.kept fresh save with
  | error reason => exact ⟨h, rfl⟩
  | ok g =>
    obtain ⟨hFiles, hOutcome⟩ := h.saveDraft (r.fingerprint u).1.memo r.cacheFile
      (r.fingerprint u).2 ⟨plan.lastFull, plan.mergedErrors fresh, plan.mergedDependencies g⟩
    refine ⟨hFiles, ?_⟩
    dsimp only
    rw [hOutcome]

theorem read_process_eq {r : Run} (hCache : cached t r.cacheFile = cached u r.cacheFile)
    (fresh : Report) (plan : Plan) (save : Bool) :
    (r.process t fresh plan save).1.read r.cacheFile =
      (r.process u fresh plan save).1.read r.cacheFile := by
  rw [Run.process_eq_saveDraft, Run.process_eq_saveDraft, h.fingerprint_eq]
  cases Plan.kept fresh save with
  | error reason => exact h.read_eq_of_cached hCache
  | ok g => exact h.read_saveDraft_eq hCache _ _ _

end FileTree.SameLines

open FileTree (SameLines)
open Snapshot (cached)

/-- Where two trees differ in nothing but the line ends of files, and not in the cache file, a run
has the same fingerprint, restores the same plan, makes the same of any report, and leaves the same
cache file. -/
theorem Run.ignores_line_ends {t u : FileTree} (h : t.SameLines u) {r : Run}
    (hCache : cached t r.cacheFile = cached u r.cacheFile) :
    (r.fingerprint t).2 = (r.fingerprint u).2 ∧
    ∀ (files : List Path) (debug : Bool) (now : UInt64) (fresh : Report) (plan : Plan)
      (save : Bool),
      let x := r.restore t files debug now
      let y := r.restore u files debug now
      x.2 = y.2 ∧
      (x.2.1.process x.1 fresh plan save).2 = (y.2.1.process y.1 fresh plan save).2 ∧
      (x.2.1.process x.1 fresh plan save).1.read r.cacheFile =
        (y.2.1.process y.1 fresh plan save).1.read r.cacheFile := by
  refine ⟨by rw [h.fingerprint_eq], fun files debug now fresh plan save => ?_⟩
  obtain ⟨hFiles, hRestored⟩ := h.restore (h.read_eq_of_cached hCache) files debug now
  have hSame : (r.restore u files debug now).2.1.cacheFile = r.cacheFile :=
    cacheFile_fingerprintFrom _ _ r
  dsimp only
  rw [hRestored]
  refine ⟨rfl, (hFiles.process _ fresh plan save).outcome_eq, ?_⟩
  rw [← hSame]
  refine hFiles.read_process_eq ?_ fresh plan save
  rw [hSame]
  exact h.cached_restore hCache files debug now

/-! ## A file with either line end -/

namespace LineEnds

def source : Path := .ofText "a"

/-- A file with one line, which ends as given. -/
def files (ending : Bytes) : FileTree := FileTree.empty.set [[0x61]] (.file (0x31 :: ending))

def dos : FileTree := files [0x0D, 0x0A]

def unix : FileTree := files [0x0A]

/-- A run for which the file is a stub as well. -/
def run : Run := .start { Settings.ofCacheFile (.ofText "c") with stubFiles := [source] }

/-- What is reported of the file: it depends on nothing. -/
def report : Report := ⟨[], some (PathMap.empty.insert source []), false⟩

theorem sameLines : dos.SameLines unix := (SameLines.refl .empty).set [[0x61]] (.file rfl)

/-- The file can be saved with one line end and be looked up with the other one. -/
theorem ignores_line_ends_of_file :
    dos.read source ≠ unix.read source ∧ (run.fingerprint dos).2 = (run.fingerprint unix).2 ∧
    let x := run.restore dos [source] false 0
    let y := run.restore unix [source] false 0
    x.2.2 = y.2.2 ∧
    (x.2.1.process x.1 report x.2.2 true).2.2 = (y.2.1.process y.1 report x.2.2 true).2.2 ∧
    (x.2.1.process x.1 report x.2.2 true).1.read run.cacheFile =
      (y.2.1.process y.1 report x.2.2 true).1.read run.cacheFile := by
  obtain ⟨hFingerprint, hRun⟩ := Run.ignores_line_ends (r := run) sameLines rfl
  refine ⟨by decide +kernel, hFingerprint, ?_⟩
  obtain ⟨hRestored, hProcessed, hRead⟩ :=
    hRun [source] false 0 report (run.restore dos [source] false 0).2.2 true
  exact ⟨congrArg Prod.snd hRestored, congrArg Prod.snd hProcessed, hRead⟩

end LineEnds

end AnalysisCache
