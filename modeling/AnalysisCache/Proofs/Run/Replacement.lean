import AnalysisCache.Proofs.Dependencies.Outcome
import AnalysisCache.Proofs.Run.Analyzer
import AnalysisCache.Proofs.Snapshot.Encoding
import AnalysisCache.Proofs.Snapshot.Room

/-!
# Replacing the cache file

Saving replaces the whole cache file or leaves it as it was. It fails exactly if a file cannot be
read that another one depends on, or that is there and has dependencies, if a path is no text, or if
there is no room for the cache file. Then all that it leaves behind are directories on the way to the
cache file. What is seen of the files that are read is given apart from the tree, so that there may
be files that are there and cannot be read.

* `Snapshot.exists_save_of_read`: a snapshot can always take the place of another one.
* `Snapshot.saveDraftFrom_error_iff`: when a draft cannot be saved.
* `Snapshot.replaced_of_saveDraftFrom`: what a draft is saved as.
* `Run.process_replaces`: what a run that is processed makes of the files.
-/

namespace AnalysisCache

open FileTree (Grown Replaced)

/-- The directories that lead to a path, innermost first. -/
def Path.parents (p : Path) : List Path :=
  match p.parent? with
  | some d => d.ancestors
  | none => []

namespace Snapshot

/-! ## Room for the cache file -/

theorem makeRoom_grown (t : FileTree) (p : Path) : Grown t (makeRoom t p).1 p.parents := by
  rcases makeRoom_cases p with hRoom | ⟨d, hParent, hRoom⟩
  · rw [hRoom]
    exact .refl t _
  · rw [hRoom, Path.parents, hParent]
    exact FileTree.makeDirectories_grown t d

/-- Whether there is no place for a cache file: its directory cannot be made, or it cannot be written
there, whatever it is to hold. -/
def NoRoom (t : FileTree) (p : Path) : Prop :=
  (∃ e, (makeRoom t p).2 = .error e) ∨
    ∃ e, ∀ content, ((makeRoom t p).1.write p content).2 = .error e

theorem save_error_iff {t : FileTree} {p : Path} {s : Snapshot} :
    (∃ e, (save t p s).2 = .error e) ↔ (∃ q ∈ s.paths, q.text? = none) ∨ NoRoom t p := by
  rw [← text_eq_error_iff, NoRoom, save]
  rcases makeRoom t p with ⟨u, outcome⟩
  cases outcome with
  | error e => simp
  | ok _ =>
    dsimp only
    cases hText : s.text with
    | error e => cases e; simp
    | ok text =>
      dsimp only [FileTree.write]
      cases u.locateTarget p with
      | error e => simp
      | ok l => simp

theorem not_noRoom_of_read {t : FileTree} {p : Path} {content : Bytes}
    (h : t.read p = .ok content) : ¬ NoRoom t p := by
  rw [NoRoom, makeRoom_of_read h]
  rintro (⟨e, he⟩ | ⟨e, he⟩)
  · cases he
  · obtain ⟨u, hu⟩ := FileTree.exists_write_of_read h []
    have hError := he []
    rw [hu] at hError
    cases hError

theorem exists_save_of_read {t : FileTree} {p : Path} {content : Bytes} {s : Snapshot}
    (h : t.read p = .ok content) (hText : ∀ q ∈ s.paths, q.IsText) :
    ∃ u, save t p s = (u, .ok ()) := by
  have hNone : ¬ ∃ e, (save t p s).2 = .error e := by
    rw [save_error_iff]
    rintro (⟨q, hq, hNot⟩ | hRoom)
    · exact Path.not_isText_iff.2 hNot (hText q hq)
    · exact not_noRoom_of_read h hRoom
  refine ⟨(save t p s).1, Prod.ext rfl ?_⟩
  cases hSave : (save t p s).2 with
  | ok _ => rfl
  | error e => exact absurd ⟨e, hSave⟩ hNone

theorem replaced_of_save {t u : FileTree} {p : Path} {s : Snapshot}
    (h : save t p s = (u, .ok ())) :
    ∃ text, s.text = .ok text ∧ Replaced t u p (Bytes.ofText text) p.parents := by
  have hRoom := makeRoom_grown t p
  rw [save] at h
  split at h
  · cases h
  · rename_i w hMade
    rw [hMade] at hRoom
    split at h
    · cases h
    · rename_i text hText
      split at h
      · rename_i hWrite
        cases h
        obtain ⟨l, hSet, hLocate, hNode⟩ := FileTree.write_eq_ok hWrite
        exact ⟨text, hText, w, l, hRoom, hSet, hLocate, hNode⟩
      · cases h

theorem grown_of_save_error {t u : FileTree} {p : Path} {s : Snapshot} {e : CacheError}
    (h : save t p s = (u, .error e)) : Grown t u p.parents := by
  rw [files_of_save_error h]
  exact makeRoom_grown t p

/-! ## Drafts -/

/-- What can keep a draft from being saved. -/
inductive Obstacle (isFile : Path → Bool) (read : Path → Except FileError Bytes) (t : FileTree)
    (m : Memo) (p : Path) (f : Fingerprint) (d : Draft) : Prop where
  /-- A file that another one depends on cannot be read. -/
  | target (file target : Path) (x : CacheError) (hEdge : (file, target) ∈ d.dependencies.edges)
      (hDigest : (m.digestFrom read target).2 = .error x)
  /-- A file that has dependencies is there, but cannot be read. -/
  | file (k : Path) (x : CacheError) (hKey : k ∈ d.dependencies.keys) (hFile : isFile k = true)
      (hDigest : (m.digestFrom read k).2 = .error x)
  /-- A path of what is to be saved is no text. -/
  | path (m' : Memo) (g : DependentGraph) (q : Path)
      (hDependents : d.dependencies.dependentsFrom isFile read m = (m', .ok g))
      (hPath : q ∈ Snapshot.paths ⟨d.lastFull, f, d.errors, g⟩) (hText : q.text? = none)
  | room (hRoom : NoRoom t p)

section saveDraft

variable {isFile : Path → Bool} {read : Path → Except FileError Bytes} {t : FileTree} {m : Memo}
  {p : Path} {f : Fingerprint} {d : Draft}

/-- A draft cannot be saved exactly if something keeps it from that, given that all spellings of a
path open the same file. -/
theorem saveDraftFrom_error_iff (hAlike : OpenAlike isFile read d.dependencies.named) :
    (∃ e, (saveDraftFrom isFile read t m p f d).2.2 = .error e) ↔
      Obstacle isFile read t m p f d := by
  have hBlocks := DependencyGraph.error_iff_blocks (m := m) hAlike
  rcases saveDraftFrom_cases isFile read t m p f d with
    ⟨m', g, hDependents, hEq⟩ | ⟨m', x, hDependents, hEq⟩
  · have hNone : ¬ ∃ q, d.dependencies.Blocks isFile read m q := by
      rw [← hBlocks, hDependents]
      rintro ⟨_, _, h⟩
      cases h
    rw [hEq, save_error_iff]
    constructor
    · rintro (⟨q, hq, hText⟩ | hRoom)
      · exact .path m' g q hDependents hq hText
      · exact .room hRoom
    · rintro (⟨file, target, x, hEdge, hDigest⟩ | ⟨k, x, hKey, hFile, hDigest⟩ |
        ⟨m₁, g₁, q, hDependents₁, hq, hText⟩ | hRoom)
      · exact absurd ⟨target, .inl (List.mem_map_of_mem (f := (·.2)) hEdge), x, hDigest⟩ hNone
      · exact absurd (DependencyGraph.exists_blocks_of_key hAlike hKey hFile ⟨x, hDigest⟩) hNone
      · rw [hDependents] at hDependents₁
        cases hDependents₁
        exact .inl ⟨q, hq, hText⟩
      · exact .inr hRoom
  · rw [hEq]
    refine iff_of_true ⟨x, rfl⟩ ?_
    obtain ⟨q, hq | ⟨hIndependent, hFile⟩, y, hDigest⟩ := hBlocks.1 ⟨m', x, hDependents⟩
    · obtain ⟨⟨file, target⟩, hEdge, rfl⟩ := List.mem_map.1 hq
      exact .target file target y hEdge hDigest
    · exact .file q y (DependencyGraph.mem_independent_iff.1 hIndependent).1 hFile hDigest

/-- A draft that cannot be saved leaves the files as they are, or as they are once there is a
directory for the cache file. -/
theorem files_of_saveDraftFrom_error {e : CacheError}
    (h : (saveDraftFrom isFile read t m p f d).2.2 = .error e) :
    (saveDraftFrom isFile read t m p f d).1 = t ∨
      (saveDraftFrom isFile read t m p f d).1 = (makeRoom t p).1 := by
  rcases saveDraftFrom_cases isFile read t m p f d with ⟨m', g, _, hEq⟩ | ⟨m', x, _, hEq⟩
  · rw [hEq] at h ⊢
    exact .inr (files_of_save_error (Prod.ext rfl h))
  · rw [hEq]
    exact .inl rfl

/-- A draft that cannot be saved leaves all that is there as it was. -/
theorem grown_of_saveDraftFrom_error {e : CacheError}
    (h : (saveDraftFrom isFile read t m p f d).2.2 = .error e) :
    Grown t (saveDraftFrom isFile read t m p f d).1 p.parents := by
  rcases files_of_saveDraftFrom_error h with hEq | hEq <;> rw [hEq]
  · exact .refl t _
  · exact makeRoom_grown t p

/-- A draft that cannot be saved leaves the content of the cache file as it was. -/
theorem cached_of_saveDraftFrom_error {e : CacheError}
    (h : (saveDraftFrom isFile read t m p f d).2.2 = .error e) :
    cached (saveDraftFrom isFile read t m p f d).1 p = cached t p := by
  rcases files_of_saveDraftFrom_error h with hEq | hEq <;> rw [hEq]
  exact cached_makeRoom t p

/-- A draft is saved as the text of its snapshot, which takes the place of the whole cache file. -/
theorem replaced_of_saveDraftFrom (h : (saveDraftFrom isFile read t m p f d).2.2 = .ok ()) :
    ∃ m' g text, d.dependencies.dependentsFrom isFile read m = (m', .ok g) ∧
      Snapshot.text ⟨d.lastFull, f, d.errors, g⟩ = .ok text ∧
      Replaced t (saveDraftFrom isFile read t m p f d).1 p (Bytes.ofText text) p.parents := by
  obtain ⟨m', g, hDependents, hSave⟩ := exists_save_of_saveDraftFrom h
  obtain ⟨text, hText, hReplaced⟩ := replaced_of_save hSave
  exact ⟨m', g, text, hDependents, hText, hReplaced⟩

end saveDraft

end Snapshot

/-! ## Runs -/

namespace Plan

/-- What a run leaves to be kept, if it is kept. -/
def draft (plan : Plan) (fresh : Report) (g : DependencyGraph) : Snapshot.Draft :=
  ⟨plan.lastFull, plan.mergedErrors fresh, plan.mergedDependencies g⟩

theorem exists_kept_error_iff {fresh : Report} {save : Bool} :
    (∃ reason, kept fresh save = .error reason) ↔ save = false ∨ fresh.dependencies = none ∨
      ∃ d ∈ fresh.diagnostics, d.kind = .global ∨ d.kind = .warning := by
  have hKept : (∃ reason, kept fresh save = .error reason) ↔ ¬ ∃ g, kept fresh save = .ok g := by
    cases kept fresh save <;> simp
  rw [hKept, ← Partition.isUnstable_iff]
  simp only [kept_eq_ok_iff]
  cases save <;> cases fresh.dependencies <;> simp

end Plan

namespace Run

/-- A run that is kept saves its draft, under the fingerprint that is taken by then. -/
theorem processFrom_of_kept {isFile : Path → Bool} {read : Path → Except FileError Bytes} {r : Run}
    {t : FileTree} {fresh : Report} {plan : Plan} {save : Bool} {g : DependencyGraph}
    (hKept : Plan.kept fresh save = .ok g) :
    r.processFrom isFile read t fresh plan save =
      let taken := r.fingerprintFrom isFile read
      let saved := Snapshot.saveDraftFrom isFile read t taken.1.memo r.cacheFile taken.2
        (plan.draft fresh g)
      (saved.1, { taken.1 with memo := saved.2.1 },
        saved.2.2.map fun _ => plan.mergedReport fresh) := by
  rw [processFrom_eq, hKept, Plan.draft]

/-- Processing a run replaces the cache file or leaves it alone. A run that is not to be saved, that
could not tell its dependencies, or that has more to report than errors of single files, leaves all
files as they are. Any other run fails exactly if something keeps its draft from being saved, and
then leaves nothing behind but directories, or it leaves the text of its snapshot. -/
theorem process_replaces (isFile : Path → Bool) (read : Path → Except FileError Bytes) (r : Run)
    (t : FileTree) (fresh : Report) (plan : Plan) (save : Bool) :
    let left := r.processFrom isFile read t fresh plan save
    ((save = false ∨ fresh.dependencies = none ∨
        ∃ d ∈ fresh.diagnostics, d.kind = .global ∨ d.kind = .warning) →
      left.1 = t ∧ left.2.2 = .ok (plan.mergedReport fresh)) ∧
    ∀ g, save = true → fresh.dependencies = some g →
      (∀ d ∈ fresh.diagnostics, ¬ (d.kind = .global ∨ d.kind = .warning)) →
      OpenAlike isFile read (plan.mergedDependencies g).named →
      let taken := r.fingerprintFrom isFile read
      ((∃ x, left.2.2 = .error x) ↔
        Snapshot.Obstacle isFile read t taken.1.memo r.cacheFile taken.2 (plan.draft fresh g)) ∧
      (∀ x, left.2.2 = .error x →
        Grown t left.1 r.cacheFile.parents ∧
        Snapshot.cached left.1 r.cacheFile = Snapshot.cached t r.cacheFile ∧
        (∀ content, t.read r.cacheFile = .ok content → left.1.read r.cacheFile = .ok content) ∧
        (t.Rooted → Component.up ∉ r.cacheFile.components → ∀ content,
          left.1.read r.cacheFile = .ok content → t.read r.cacheFile = .ok content)) ∧
      ∀ report, left.2.2 = .ok report →
        report = plan.mergedReport fresh ∧ ∃ m d text,
          (plan.mergedDependencies g).dependentsFrom isFile read taken.1.memo = (m, .ok d) ∧
          Snapshot.text ⟨plan.lastFull, taken.2, plan.mergedErrors fresh, d⟩ = .ok text ∧
          Replaced t left.1 r.cacheFile (Bytes.ofText text) r.cacheFile.parents ∧
          left.1.read r.cacheFile = .ok (Bytes.ofText text) := by
  dsimp only
  constructor
  · intro hGate
    obtain ⟨reason, hKept⟩ := Plan.exists_kept_error_iff.2 hGate
    rw [processFrom_eq, hKept]
    exact ⟨rfl, rfl⟩
  · rintro g rfl hDependencies hStable hAlike
    have hKept : Plan.kept fresh true = .ok g := Plan.kept_eq_ok hDependencies hStable
    have hFails := Snapshot.saveDraftFrom_error_iff (t := t)
      (m := (r.fingerprintFrom isFile read).1.memo) (p := r.cacheFile)
      (f := (r.fingerprintFrom isFile read).2) (d := plan.draft fresh g) hAlike
    rw [processFrom_of_kept hKept, ← hFails]
    dsimp only
    cases hOutcome : (Snapshot.saveDraftFrom isFile read t (r.fingerprintFrom isFile read).1.memo
      r.cacheFile (r.fingerprintFrom isFile read).2 (plan.draft fresh g)).2.2 with
    | error x =>
      have hGrown := Snapshot.grown_of_saveDraftFrom_error hOutcome
      have hCached := Snapshot.cached_of_saveDraftFrom_error hOutcome
      refine ⟨by simp [Except.map], fun _ _ => ⟨hGrown, hCached, fun content hRead =>
        hGrown.within.read hRead, fun hTree hUp content hRead => ?_⟩, fun _ h => (by cases h)⟩
      rw [← Snapshot.cached_eq_ok_iff hTree hUp, ← hCached]
      exact Snapshot.cached_of_read hRead
    | ok _ =>
      refine ⟨by simp [Except.map], fun _ h => (by cases h), fun report h => ?_⟩
      obtain ⟨m, d, text, hDependents, hText, hReplaced⟩ :=
        Snapshot.replaced_of_saveDraftFrom hOutcome
      cases h
      exact ⟨rfl, m, d, text, hDependents, hText, hReplaced, hReplaced.read_eq⟩

end Run

/-! ## A cache file in a directory that is yet to be made -/

namespace Inclusion

def nested : Run := .start (.ofCacheFile (.ofText "d/c"))

/-- All files are to be analysed. -/
def initial : Plan := .full [first, second] .noCache 0

/-- What the first file depends on. -/
def included : DependencyGraph :=
  Analyzer.table (analyzer.dependencies (nested.fingerprint files).2 files) [first, second]

def answer : Report := ⟨[], some included, false⟩

/-- What comes of reading a file, if it is forbidden to read the first one. -/
def guarded (p : Path) : Except FileError Bytes :=
  if p.same first then .error (.other "Permission denied (os error 13)") else files.read p

theorem edges_included : (initial.mergedDependencies included).edges = [(first, second)] := by
  decide +kernel

theorem openAlike_included (isFile : Path → Bool) (read : Path → Except FileError Bytes) :
    OpenAlike isFile read (initial.mergedDependencies included).named :=
  openAlike_of_eq (by decide +kernel)

/-- Without saving nothing is left. Otherwise the cache file is there, unless the second file is
gone or the first file, which is there, cannot be read. Then there is none, as before. -/
theorem process_replaces_nested :
    (nested.process files answer initial false).1 = files ∧
    (∃ m d text, included.dependents files (nested.fingerprint files).1.memo = (m, .ok d) ∧
      Snapshot.text ⟨0, (nested.fingerprint files).2, .empty, d⟩ = .ok text ∧
      (nested.process files answer initial true).1.read (.ofText "d/c") =
        .ok (Bytes.ofText text)) ∧
    (∃ x, (nested.process (files.removeFile second).1 answer initial true).2.2 = .error x) ∧
    files.isFile first = true ∧
    ∃ x, (nested.processFrom files.isFile guarded files answer initial true).2.2 = .error x ∧
      Snapshot.cached (nested.processFrom files.isFile guarded files answer initial true).1
        (.ofText "d/c") = .error .notFound := by
  have hStable : ∀ d ∈ answer.diagnostics, ¬ (d.kind = .global ∨ d.kind = .warning) :=
    fun d hd => by cases hd
  have hFirst : files.isFile first = true := rfl
  have hAll := fun isFile read t => (Run.process_replaces isFile read nested t answer initial
    true).2 included rfl rfl hStable (openAlike_included isFile read)
  refine ⟨((Run.process_replaces files.isFile files.read nested files answer initial
    false).1 (.inl rfl)).1, ?_, ?_, hFirst, ?_⟩
  · obtain ⟨-, -, hOk⟩ := hAll files.isFile files.read files
    obtain ⟨report, hReport⟩ : ∃ report,
        (nested.process files answer initial true).2.2 = .ok report :=
      ⟨answer, by decide +kernel⟩
    obtain ⟨-, m, d, text, hDependents, hText, -, hRead⟩ := hOk report hReport
    exact ⟨m, d, text, hDependents, hText, hRead⟩
  · let left := (files.removeFile second).1
    obtain ⟨hFails, -⟩ := hAll left.isFile left.read left
    refine hFails.2 (.target first second (.files second .notFound) ?_ (by decide +kernel))
    show (first, second) ∈ (initial.mergedDependencies included).edges
    rw [edges_included]
    exact List.mem_singleton_self _
  · obtain ⟨hFails, hLeaves, -⟩ := hAll files.isFile guarded files
    have hKey : first ∈ (initial.mergedDependencies included).keys := by decide +kernel
    obtain ⟨x, hx⟩ := hFails.2 (.file first (.files first
      (.other "Permission denied (os error 13)")) hKey hFirst (by decide +kernel))
    obtain ⟨-, hCached, -⟩ := hLeaves x hx
    exact ⟨x, hx, hCached.trans (by decide +kernel)⟩

end Inclusion

end AnalysisCache
