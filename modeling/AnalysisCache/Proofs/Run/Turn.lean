import AnalysisCache.Proofs.Run.Steps
import AnalysisCache.Proofs.Snapshot.Room

/-!
# Runs as a whole

A run restores a plan, an analysis works through it, and the run processes the report, by which time
the files may be others. If the run is saved, the cache file holds what the run knows to depend on
what, and a later run that finds the file as it was left starts from there.

* `Turn.exists_snapshot`: what is in the cache file after a run that was saved.
* `Turn.plan_of_load`: when a run uses again what it loads.
* `Turn.Writes.among_schedule_iff`: what a run schedules that starts from there.
-/

namespace AnalysisCache

open FileTree (Addressable)

/-- What a run is given: its settings and files, the report of the analysis, and whether the run is
to be saved. -/
structure Turn where
  settings : Settings
  files : List Path
  debug : Bool
  now : UInt64
  report : Report
  save : Bool

namespace Turn

variable (turn : Turn) (t : FileTree)

def restored : FileTree × Run × Plan :=
  (Run.start turn.settings).restore t turn.files turn.debug turn.now

/-- The files that are analysed. They differ from those before at most in the cache file. -/
def tree : FileTree := (turn.restored t).1

def plan : Plan := (turn.restored t).2.2

/-- The digests that are taken by the time the plan is made. -/
def memo : Memo := (turn.restored t).2.1.memo

def fingerprint : Fingerprint :=
  (Fingerprint.ofSettings (turn.tree t) .empty turn.settings).2

/-- The digests that are taken of some files for the fingerprint. -/
def inputMemo : Memo := (Fingerprint.ofSettings t .empty turn.settings).1

/-- What becomes of the report if the files are others by then. -/
def processedAt (u : FileTree) : FileTree × Run × Except CacheError Report :=
  (turn.restored t).2.1.process u turn.report (turn.plan t) turn.save

def processed : FileTree × Run × Except CacheError Report := turn.processedAt t (turn.tree t)

/-- The files that the run leaves. -/
def after : FileTree := (turn.processed t).1

def outcome : Except CacheError Report := (turn.processed t).2.2

variable {turn t}

theorem read_of_read_tree {p : Path} {content : Bytes} (h : (turn.tree t).read p = .ok content) :
    t.read p = .ok content := Run.read_of_read_previous h

/-- Restoring leaves the content of the cache file, or takes it away. -/
theorem cached_of_cached_tree {content : Bytes}
    (h : Snapshot.cached (turn.tree t) turn.settings.cacheFile = .ok content) :
    Snapshot.cached t turn.settings.cacheFile = .ok content := by
  have hTree : turn.tree t = (Run.previous t turn.settings.cacheFile turn.debug).1 := rfl
  rw [hTree, Run.previous] at h
  split at h
  · exact h
  · exact Snapshot.cached_of_cached_load h

theorem current_inputMemo (turn : Turn) (t : FileTree) : (turn.inputMemo t).Current t :=
  (Fingerprint.grows_ofSettings t .empty turn.settings).current (Memo.current_empty t)

theorem contains_inputMemo {turn : Turn} {t : FileTree} {p : Path} :
    (turn.inputMemo t).known.contains p = true ↔
      p.Among ((Fingerprint.inputs turn.settings).filter t.isFile) := by
  rw [inputMemo, Fingerprint.contains_ofSettings]
  exact or_iff_right fun hEmpty => by cases hEmpty

theorem current_memo (turn : Turn) (t : FileTree) : (turn.memo t).Current (turn.tree t) := by
  have hPrint := Fingerprint.grows_ofSettings (turn.tree t) .empty turn.settings
  exact (hPrint.trans (Plan.grows_ofSnapshot _ _ _ _ _ _ _)).current (Memo.current_empty _)

theorem ofSnapshot_eq (turn : Turn) (t : FileTree) :
    (turn.memo t, turn.plan t) = Plan.ofSnapshot (turn.tree t) (turn.inputMemo (turn.tree t))
      (Run.previous t turn.settings.cacheFile turn.debug).2 (turn.fingerprint t) turn.files
      turn.debug turn.now := rfl

/-- A plan is for all files, or it is made from the snapshot that was loaded. -/
theorem plan_cases (turn : Turn) (t : FileTree) :
    (∃ reason, turn.plan t = Plan.full turn.files reason turn.now ∧
        turn.memo t = turn.inputMemo (turn.tree t)) ∨
      ∃ s, (Snapshot.load t turn.settings.cacheFile).2 = some s ∧ turn.tree t = t ∧
        s.fingerprint.same (turn.fingerprint t) = true ∧
        Plan.isStale s.lastFull turn.now = false ∧
        turn.plan t = (Plan.reuse t.isFile t.read (turn.inputMemo t) s turn.files).2 ∧
        turn.memo t = (Plan.reuse t.isFile t.read (turn.inputMemo t) s turn.files).1 := by
  have hPlan := ofSnapshot_eq turn t
  rcases Plan.ofSnapshotFrom_cases (turn.tree t).isFile (turn.tree t).read
    (turn.inputMemo (turn.tree t)) (Run.previous t turn.settings.cacheFile turn.debug).2
    (turn.fingerprint t) turn.files turn.debug turn.now with
    ⟨reason, hEq⟩ | ⟨s, _, hPrevious, hSame, hStale, hEq⟩
  · rw [Plan.ofSnapshot, hEq] at hPlan
    exact .inl ⟨reason, congrArg Prod.snd hPlan, congrArg Prod.fst hPlan⟩
  · obtain ⟨hTree, hLoad⟩ := Run.previous_eq_some hPrevious
    have hTree : turn.tree t = t := hTree
    rw [Plan.ofSnapshot, hEq, hTree] at hPlan
    exact .inr ⟨s, hLoad, hTree, hSame, hStale, congrArg Prod.snd hPlan, congrArg Prod.fst hPlan⟩

theorem mem_plan_schedule {p : Path} (h : p ∈ (turn.plan t).schedule) :
    p ∈ turn.files ∨ (turn.tree t).isFile p = true := by
  rcases plan_cases turn t with ⟨reason, hPlan, _⟩ | ⟨s, _, hTree, _, _, hPlan, _⟩
  · rw [hPlan] at h
    exact .inl h
  · rw [hPlan] at h
    rw [hTree]
    exact (Plan.mem_schedule h).imp_right And.right

/-- A run outside debug mode uses a snapshot that was taken under its fingerprint and not too long
ago. -/
theorem plan_of_load {s : Snapshot} (hLoad : (Snapshot.load t turn.settings.cacheFile).2 = some s)
    (hDebug : turn.debug = false) (hSame : s.fingerprint.same (turn.fingerprint t) = true)
    (hStale : Plan.isStale s.lastFull turn.now = false) :
    turn.tree t = t ∧
      turn.plan t = (Plan.reuse t.isFile t.read (turn.inputMemo t) s turn.files).2 ∧
      turn.memo t = (Plan.reuse t.isFile t.read (turn.inputMemo t) s turn.files).1 := by
  have hPrevious : Run.previous t turn.settings.cacheFile turn.debug = (t, some s) := by
    rw [Run.previous, hDebug, if_neg (by decide)]
    exact Prod.ext (Snapshot.files_of_load hLoad) hLoad
  have hTree : turn.tree t = t := congrArg Prod.fst hPrevious
  have hEq := ofSnapshot_eq turn t
  rw [hPrevious, hTree, Plan.ofSnapshot, Plan.ofSnapshotFrom, hDebug, if_neg (by decide)] at hEq
  simp only [hSame, hStale, Bool.not_true, Bool.false_eq_true, if_false] at hEq
  exact ⟨hTree, congrArg Prod.snd hEq, congrArg Prod.fst hEq⟩

theorem processedAt_eq (turn : Turn) (t u : FileTree) :
    turn.processedAt t u =
      match Plan.kept turn.report turn.save with
      | .error _ => (u, (turn.restored t).2.1, .ok ((turn.plan t).mergedReport turn.report))
      | .ok g =>
        let saved := Snapshot.saveDraft u (turn.memo t) turn.settings.cacheFile
          (turn.fingerprint t) ⟨(turn.plan t).lastFull, (turn.plan t).mergedErrors turn.report,
            (turn.plan t).mergedDependencies g⟩
        (saved.1, { (turn.restored t).2.1 with memo := saved.2.1 },
          saved.2.2.map fun _ => (turn.plan t).mergedReport turn.report) :=
  Run.process_eq (f := turn.fingerprint t) rfl u turn.report (turn.plan t) turn.save

/-- What a run reports if it does not fail. -/
theorem eq_mergedReport_of_processedAt {u : FileTree} {report : Report}
    (h : (turn.processedAt t u).2.2 = .ok report) :
    report = (turn.plan t).mergedReport turn.report := by
  rw [processedAt_eq] at h
  split at h
  · cases h
    rfl
  · dsimp only at h
    generalize (Snapshot.saveDraft _ _ _ _ _).2.2 = outcome at h
    cases outcome with
    | error e => cases h
    | ok _ =>
      cases h
      rfl

/-- Whether a run is saved, by way of files that are others after it. -/
structure IsSaved (turn : Turn) (t u v : FileTree) : Prop where
  kept : (Plan.kept turn.report turn.save).isOk = true
  after_eq : (turn.processedAt t u).1 = v
  outcome_ok : (turn.processedAt t u).2.2.isOk = true

/-- What a run knows to depend on what when it is saved. -/
def graph (turn : Turn) (t : FileTree) : DependencyGraph :=
  (turn.plan t).mergedDependencies (turn.report.dependencies.getD .empty)

/-- What a run saves, if all files that another one depends on can be read. -/
def snapshot? (turn : Turn) (t u : FileTree) : Option Snapshot :=
  match ((turn.graph t).dependents u (turn.memo t)).2 with
  | .ok d =>
    some ⟨(turn.plan t).lastFull, turn.fingerprint t, (turn.plan t).mergedErrors turn.report, d⟩
  | .error _ => none

/-- What a run writes into the cache file if it is saved. -/
structure Writes (turn : Turn) (t u v : FileTree) (s : Snapshot) (m : Memo) : Prop where
  snapshot : turn.snapshot? t u = some s
  grows : Memo.Grows u (turn.memo t) m
  inverts : DependencyGraph.Inverts u.isFile m (turn.graph t) s.dependents
  lastFull : s.lastFull = (turn.plan t).lastFull
  fingerprint : s.fingerprint = turn.fingerprint t
  errors : s.errors = (turn.plan t).mergedErrors turn.report
  save_eq : Snapshot.save u turn.settings.cacheFile s = (v, .ok ())

theorem exists_snapshot {u v : FileTree} (h : turn.IsSaved t u v) :
    ∃ s m, turn.Writes t u v s m := by
  obtain ⟨hIsKept, hAfter, hOutcome⟩ := h
  obtain ⟨g, hKept⟩ : ∃ g, Plan.kept turn.report turn.save = .ok g := by
    revert hIsKept
    cases Plan.kept turn.report turn.save with
    | ok g => exact fun _ => ⟨g, rfl⟩
    | error reason => exact fun h => by cases h
  have hGraph : turn.graph t = (turn.plan t).mergedDependencies g := by
    rw [graph, (Plan.kept_eq_ok_iff.1 hKept).2.1, Option.getD_some]
  rw [processedAt_eq, hKept] at hAfter hOutcome
  dsimp only at hAfter hOutcome
  obtain ⟨m, d, hDependents, hSave⟩ := Snapshot.exists_save_of_saveDraft (eq_ok_of_isOk_map hOutcome)
  rw [hAfter] at hSave
  dsimp only at hDependents
  rw [← hGraph] at hDependents
  obtain ⟨hGrows, hInverts⟩ := DependencyGraph.dependents_spec hDependents
  exact ⟨_, m, by rw [snapshot?, hDependents], hGrows, hInverts, rfl, rfl, rfl, hSave⟩

theorem Writes.spells {u v : FileTree} {s : Snapshot} {m : Memo} (h : turn.Writes t u v s m) :
    DependencyGraph.Spells u.isFile (turn.graph t) s.dependents := by
  have hSnapshot := h.snapshot
  rw [snapshot?] at hSnapshot
  cases hDependents : (turn.graph t).dependents u (turn.memo t) with
  | mk m' outcome =>
    rw [hDependents] at hSnapshot
    cases outcome with
    | error e => cases hSnapshot
    | ok d =>
      cases hSnapshot
      exact DependencyGraph.spells_dependents hDependents

/-- Whether one run starts from what another one left: it finds the same cache file, under the same
fingerprint, before a full analysis is due. -/
structure Follows (later turn : Turn) (t v w : FileTree) : Prop where
  cacheFile : later.settings.cacheFile = turn.settings.cacheFile
  read_eq : w.read turn.settings.cacheFile = v.read turn.settings.cacheFile
  debug : later.debug = false
  fingerprint : (turn.fingerprint t).same (later.fingerprint w) = true
  inTime : Plan.isStale (turn.plan t).lastFull later.now = false

/-- A run that follows another one reads what that one wrote. -/
theorem Writes.load_eq {later : Turn} {u v w : FileTree} {s : Snapshot} {m : Memo}
    (h : turn.Writes t u v s m) (hLater : later.Follows turn t v w) :
    Snapshot.load w later.settings.cacheFile = (w, some s) := by
  rw [hLater.cacheFile]
  exact Snapshot.load_of_save h.save_eq hLater.read_eq

theorem Writes.plan_eq {later : Turn} {u v w : FileTree} {s : Snapshot} {m : Memo}
    (h : turn.Writes t u v s m) (hLater : later.Follows turn t v w) :
    later.tree w = w ∧
      later.plan w = (Plan.reuse w.isFile w.read (later.inputMemo w) s later.files).2 ∧
      later.memo w = (Plan.reuse w.isFile w.read (later.inputMemo w) s later.files).1 := by
  refine plan_of_load (congrArg Prod.snd (h.load_eq hLater)) hLater.debug ?_ ?_
  · rw [h.fingerprint]
    exact hLater.fingerprint
  · rw [h.lastFull]
    exact hLater.inTime

/-- What becomes of the report of a run once the run has looked at the cache. -/
def outcomeFrom (turn : Turn) (before : FileTree × Option Snapshot) : Except CacheError Report :=
  let (r, f) := (Run.start turn.settings).fingerprint before.1
  let (m, plan) := Plan.ofSnapshot before.1 r.memo before.2 f turn.files turn.debug turn.now
  ({ r with memo := m }.process before.1 turn.report plan turn.save).2.2

theorem Writes.outcome_eq {later : Turn} {u v w : FileTree} {s : Snapshot} {m : Memo}
    (h : turn.Writes t u v s m) (hLater : later.Follows turn t v w) :
    later.outcome w = later.outcomeFrom (w, some s) := by
  have hPrevious : Run.previous w later.settings.cacheFile later.debug = (w, some s) := by
    rw [Run.previous, hLater.debug, if_neg (by decide), h.load_eq hLater]
  exact congrArg later.outcomeFrom hPrevious

theorem schedule_eq_of_snapshot? {later : Turn} {u v w : FileTree} (hSaved : turn.IsSaved t u v)
    (hLater : later.Follows turn t v w) {schedule : List Path}
    (h : (turn.snapshot? t u).map (fun s =>
      (Plan.reuse w.isFile w.read (later.inputMemo w) s later.files).2.schedule) = some schedule) :
    (later.plan w).schedule = schedule := by
  obtain ⟨s, m, hWrites⟩ := exists_snapshot hSaved
  obtain ⟨_, hPlan, _⟩ := hWrites.plan_eq hLater
  rw [hWrites.snapshot] at h
  rw [hPlan]
  exact Option.some.inj h

/-- The keys of what a run wrote are the files that another file depends on, and otherwise the files
that are there. -/
def Mentions (turn : Turn) (t u : FileTree) (p : Path) : Prop :=
  (∃ e ∈ (turn.graph t).edges, e.2.same p = true) ∨
    p.Among ((turn.graph t).keys.filter u.isFile)

theorem Writes.contains_iff {u v : FileTree} {s : Snapshot} {m : Memo}
    (h : turn.Writes t u v s m) (p : Path) :
    s.dependents.contains p = true ↔ turn.Mentions t u p := h.inverts.contains_iff p

theorem Writes.contains_eq_false_iff {u v : FileTree} {s : Snapshot} {m : Memo}
    (h : turn.Writes t u v s m) (p : Path) :
    s.dependents.contains p = false ↔ ¬ turn.Mentions t u p := by
  rw [← h.contains_iff, Bool.not_eq_true]

/-- When a run that follows another one schedules one of its files. -/
theorem Writes.among_schedule_iff {later : Turn} {u v w : FileTree} {s : Snapshot} {m : Memo}
    (h : turn.Writes t u v s m) (hLater : later.Follows turn t v w) {f : Path}
    (hf : f ∈ later.files) : f.Among (later.plan w).schedule ↔
      ¬ turn.Mentions t u f ∨ Plan.IsAffected w.isFile w.read (later.inputMemo w) s later.files f ∨
        (∃ k ∈ later.files, ¬ turn.Mentions t u k) ∧ s.errors.contains f = true := by
  obtain ⟨_, hPlan, _⟩ := h.plan_eq hLater
  rw [hPlan, Plan.among_schedule_iff_of_mem hf]
  simp only [h.contains_eq_false_iff]

/-- A run that follows another one never analyses all files. -/
theorem Writes.isFull_plan {later : Turn} {u v w : FileTree} {s : Snapshot} {m : Memo}
    (h : turn.Writes t u v s m) (hLater : later.Follows turn t v w) :
    (later.plan w).isFull = false := by
  obtain ⟨_, hPlan, _⟩ := h.plan_eq hLater
  rw [hPlan]
  rfl

end Turn

end AnalysisCache
