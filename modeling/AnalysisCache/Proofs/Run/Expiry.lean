import AnalysisCache.Proofs.Run.Course
import AnalysisCache.Proofs.Run.Replacement
import AnalysisCache.Proofs.Run.Sight

/-!
# Cached results expire

The time that a snapshot carries is that of the last run over all files that was saved, however many
runs have carried its results over since. So a plan that uses them again is made within a day of
that run, and a run over all files owes nothing to what was cached before.

* `Course.lastFull_of_load`: the time in the cache file.
* `Turn.lastFull_of_partial`: the time of a plan that uses a snapshot again.
* `Turn.processedAt_congr_of_isFull`: what a run over all files depends on.
* `Course.expires`: when results that are cached may be used.
-/

namespace AnalysisCache

open Snapshot (NoRoom)

namespace Turn

variable {turn : Turn} {t u : FileTree}

/-! ## Plans -/

theorem plan_of_isFull (h : (turn.plan t).isFull = true) :
    ∃ reason, turn.plan t = .full turn.files reason turn.now ∧
      turn.memo t = turn.inputMemo (turn.tree t) := by
  rcases plan_cases turn t with hFull | ⟨s, _, _, _, _, hPlan, _⟩
  · exact hFull
  · rw [hPlan] at h
    cases h

/-- A plan that uses a snapshot again has its time, which is not too long ago. -/
theorem lastFull_of_partial (h : (turn.plan t).isFull = false) :
    ∃ s, (Snapshot.load t turn.settings.cacheFile).2 = some s ∧
      (turn.plan t).lastFull = s.lastFull ∧ Plan.isStale s.lastFull turn.now = false := by
  rcases plan_cases turn t with ⟨reason, hPlan, _⟩ | ⟨s, hLoad, _, _, hStale, hPlan, _⟩
  · rw [hPlan] at h
    cases h
  · refine ⟨s, hLoad, ?_, hStale⟩
    rw [hPlan]
    rfl

end Turn

/-! ## Runs over all files -/

namespace Snapshot

/-- Where there is room, a snapshot is saved unless one of its paths is no text. -/
theorem save_of_room {t : FileTree} {p : Path} (h : ¬ NoRoom t p) (s : Snapshot) :
    (save t p s).2 = match s.text with
      | .ok _ => .ok ()
      | .error e => .error (.encoding e) := by
  rw [NoRoom, not_or] at h
  obtain ⟨hMade, hWritten⟩ := h
  rw [save]
  generalize makeRoom t p = made at hMade hWritten ⊢
  obtain ⟨u, outcome⟩ := made
  cases outcome with
  | error e => exact absurd ⟨e, rfl⟩ hMade
  | ok _ =>
    dsimp only
    cases s.text with
    | error e => rfl
    | ok text =>
      dsimp only [FileTree.write] at hWritten ⊢
      cases hTarget : u.locateTarget p with
      | error e =>
        rw [hTarget] at hWritten
        exact absurd ⟨e, fun _ => rfl⟩ hWritten
      | ok l => rfl

section

variable {t u : FileTree} {m : Memo} {p : Path} {f : Fingerprint} {d : Draft}
  (hDependents : d.dependencies.dependents t m = d.dependencies.dependents u m)
  (ht : ¬ NoRoom t p) (hu : ¬ NoRoom u p)

include hDependents ht hu

theorem saveDraft_congr_of_room : (saveDraft t m p f d).2 = (saveDraft u m p f d).2 := by
  rw [DependencyGraph.dependents, DependencyGraph.dependents] at hDependents
  rw [saveDraft, saveDraft, saveDraftFrom, saveDraftFrom, hDependents]
  rcases d.dependencies.dependentsFrom u.isFile u.read m with ⟨m', outcome⟩
  cases outcome with
  | error e => rfl
  | ok g =>
    refine Prod.ext rfl ?_
    dsimp only
    rw [save_of_room ht, save_of_room hu]

theorem read_saveDraft_congr_of_room (hSaved : (saveDraft t m p f d).2.2 = .ok ()) :
    (saveDraft t m p f d).1.read p = (saveDraft u m p f d).1.read p := by
  have hSaved' : (saveDraft u m p f d).2.2 = .ok () := by
    rw [← saveDraft_congr_of_room hDependents ht hu]
    exact hSaved
  obtain ⟨m₁, g, hGraph, hSave⟩ := exists_save_of_saveDraft hSaved
  obtain ⟨m₂, g', hGraph', hSave'⟩ := exists_save_of_saveDraft hSaved'
  rw [hDependents, hGraph'] at hGraph
  cases hGraph
  exact read_eq_of_save hSave hSave'

end

end Snapshot

namespace Turn

/-- Whether a run over all files may take the digest of a file. -/
def Hashes (turn : Turn) (p : Path) : Prop :=
  p ∈ Fingerprint.inputs turn.settings ∨
    ∃ g, turn.report.dependencies = some g ∧ (p ∈ g.keys ∨ ∃ e ∈ g.edges, e.2 = p)

/-- What is in the cache makes no difference to a run over all files, as long as the files are the
same of which it takes the digest, and there is room for the cache file. -/
theorem processedAt_congr_of_isFull {turn : Turn} {t t' u u' : FileTree}
    (ht : (turn.plan t).isFull = true) (hu : (turn.plan u).isFull = true)
    (hRestored : ∀ p, turn.Hashes p → (turn.tree t).digestOf p = (turn.tree u).digestOf p)
    (hProcessed : ∀ p, turn.Hashes p → t'.digestOf p = u'.digestOf p)
    (hRoom : ¬ NoRoom t' turn.settings.cacheFile) (hRoom' : ¬ NoRoom u' turn.settings.cacheFile) :
    (turn.processedAt t t').2.2 = (turn.processedAt u u').2.2 ∧
      ((turn.entry t t').isSaved = true →
        (turn.processedAt t t').1.read turn.settings.cacheFile =
          (turn.processedAt u u').1.read turn.settings.cacheFile) := by
  obtain ⟨reason, hPlan, hMemo⟩ := plan_of_isFull ht
  obtain ⟨reason', hPlan', hMemo'⟩ := plan_of_isFull hu
  have hInputs : ∀ p ∈ Fingerprint.inputs turn.settings,
      (turn.tree t).digestOf p = (turn.tree u).digestOf p := fun p hp => hRestored p (.inl hp)
  have hSame : turn.memo t = turn.memo u := by
    rw [hMemo, hMemo', inputMemo, inputMemo, Fingerprint.ofSettings_congr hInputs]
  have hFingerprint : turn.fingerprint t = turn.fingerprint u := by
    rw [fingerprint, fingerprint, Fingerprint.ofSettings_congr hInputs]
  rw [entry, processedAt_eq, processedAt_eq, hPlan, hPlan', hSame, hFingerprint]
  cases hKept : Plan.kept turn.report turn.save with
  | error e => exact ⟨rfl, fun h => by cases h⟩
  | ok g =>
    obtain ⟨_, hGraph, _⟩ := Plan.kept_eq_ok_iff.1 hKept
    have hDependents : ∀ m, g.dependents t' m = g.dependents u' m :=
      DependencyGraph.dependents_congr
        (fun e he => hProcessed e.2 (.inr ⟨g, hGraph, .inr ⟨e, he, rfl⟩⟩))
        (fun k hk => hProcessed k (.inr ⟨g, hGraph, .inl hk⟩))
    -- Of either plan the time alone is kept.
    let draft : Snapshot.Draft := ⟨turn.now, (Partition.ofList turn.report.diagnostics).errors, g⟩
    have hOutcome := Snapshot.saveDraft_congr_of_room (f := turn.fingerprint u) (d := draft)
      (hDependents (turn.memo u)) hRoom hRoom'
    refine ⟨congrArg (fun x => x.2.map fun _ => turn.report) hOutcome, fun hSaved => ?_⟩
    refine Snapshot.read_saveDraft_congr_of_room (hDependents (turn.memo u)) hRoom hRoom' ?_
    rw [Bool.and_eq_true] at hSaved
    have hOk := hSaved.2
    dsimp only at hOk
    generalize Snapshot.saveDraft t' _ _ _ _ = saved at hOk ⊢
    obtain ⟨_, _, outcome⟩ := saved
    cases outcome with
    | ok _ => rfl
    | error e => cases hOk

end Turn

/-! ## The time of a snapshot -/

/-- Whether the clock has not gone back so far. -/
def Event.InOrder (now : UInt64) (events : List Event) : Prop :=
  (now :: times events).Pairwise fun later earlier => earlier ≤ later

instance (now : UInt64) (events : List Event) : Decidable (Event.InOrder now events) :=
  inferInstanceAs (Decidable (List.Pairwise _ _))

theorem Event.InOrder.le {now : UInt64} {events : List Event} (h : InOrder now events) {e : Entry}
    (hFull : lastFull events = some e) : e.now ≤ now :=
  (List.pairwise_cons.1 h).1 _ (now_mem_times hFull)

/-- A saved run keeps the time of what it started from, unless it is over all files. -/
theorem Turn.Writes.lastFull_eq {turn : Turn} {t u v : FileTree} {events : List Event}
    {s : Snapshot} {m : Memo}
    (hOld : ∀ old, (Snapshot.load t turn.settings.cacheFile).2 = some old →
      (Event.lastFull events).map Entry.now = some old.lastFull)
    (hSaved : turn.IsSaved t u v) (h : turn.Writes t u v s m) :
    (Event.lastFull (.ran (turn.entry t u) :: events)).map Entry.now = some s.lastFull := by
  have hEntry := hSaved.entry_isSaved
  rw [h.lastFull, Event.lastFull]
  cases hFull : (turn.plan t).isFull with
  | true =>
    obtain ⟨reason, hPlan, _⟩ := Turn.plan_of_isFull hFull
    have hKind : ((turn.entry t u).isSaved && (turn.entry t u).isFull) = true := by
      rw [hEntry, Bool.true_and]
      exact hFull
    rw [Event.latest_self hKind, hPlan]
    rfl
  | false =>
    obtain ⟨old, hLoad, hTime, _⟩ := Turn.lastFull_of_partial hFull
    have hKind : ((turn.entry t u).isSaved && (turn.entry t u).isFull) = false := by
      rw [hEntry, Bool.true_and]
      exact hFull
    rw [Event.latest_of_not hKind, hTime]
    exact hOld old hLoad

namespace Course

variable {c : Path} {t : FileTree} {events : List Event} (h : Course c t events)

include h

/-- The time in the cache file is that of the last run over all files that was saved. -/
theorem lastFull_of_load {s : Snapshot} (hLoad : (Snapshot.load t c).2 = some s) :
    (Event.lastFull events).map Entry.now = some s.lastFull := by
  obtain ⟨content, hRead, hContent⟩ := Snapshot.load_eq_some_iff.1 hLoad
  obtain ⟨s', hContent', hTime⟩ := h.keeps
    (P := fun events s => (Event.lastFull events).map Entry.now = some s.lastFull)
    (fun hCache hOld hSaved hWrites => hWrites.lastFull_eq (hCache ▸ hOld) hSaved)
    (fun hNot hOld => by
      rw [Event.lastFull, Event.latest_of_not (by rw [hNot, Bool.false_and])]
      exact hOld) (Snapshot.cached_of_read hRead)
  rw [hContent] at hContent'
  cases hContent'
  exact hTime

/-- A plan that uses cached results again is made less than a day after the last run over all files
that was saved, however many runs have been saved since. A plan for all files uses nothing of them,
nor does the run make anything of them. -/
theorem expires {turn : Turn} (hCache : turn.settings.cacheFile = c)
    (hClock : Event.InOrder turn.now events) :
    (∀ s, (Snapshot.load t c).2 = some s →
      (Event.lastFull events).map Entry.now = some s.lastFull) ∧
    ((turn.plan t).isFull = false →
      (Event.lastFull events).map Entry.now = some (turn.plan t).lastFull ∧
      (turn.plan t).lastFull ≤ turn.now ∧
      turn.now.toNat - (turn.plan t).lastFull.toNat < 86400 ∧
      ∀ u v, turn.IsSaved t u v → ∃ s s', (Snapshot.load t c).2 = some s ∧
        (Snapshot.load v c).2 = some s' ∧ s'.lastFull = s.lastFull) ∧
    ((turn.plan t).isFull = true →
      (turn.plan t).errors = .empty ∧ (turn.plan t).dependents = .empty ∧
      (turn.plan t).schedule = turn.files ∧ (turn.plan t).lastFull = turn.now ∧
      ∀ u t' u' past, Course c u past → (turn.plan u).isFull = true →
        (∀ p, turn.Hashes p → t.digestOf p = u.digestOf p ∧ t'.digestOf p = u'.digestOf p) →
        ¬ NoRoom t' c → ¬ NoRoom u' c →
          (turn.processedAt t t').2.2 = (turn.processedAt u u').2.2 ∧
          ((turn.entry t t').isSaved = true →
            (turn.processedAt t t').1.read c = (turn.processedAt u u').1.read c)) := by
  subst hCache
  refine ⟨fun s hLoad => h.lastFull_of_load hLoad, fun hPartial => ?_, fun hFull => ?_⟩
  · obtain ⟨s, hLoad, hTime, hStale⟩ := Turn.lastFull_of_partial hPartial
    have hLast := h.lastFull_of_load hLoad
    obtain ⟨e, hEntry, hNow⟩ := Option.map_eq_some_iff.1 hLast
    rw [hTime]
    refine ⟨hLast, hNow ▸ hClock.le hEntry, ?_, fun u v hSaved => ?_⟩
    · rw [Plan.isStale, decide_eq_false_iff_not, Nat.not_le] at hStale
      exact hStale
    · obtain ⟨s', m, hWrites⟩ := Turn.exists_snapshot hSaved
      exact ⟨s, s', hLoad, congrArg Prod.snd (Snapshot.load_of_save hWrites.save_eq rfl),
        hWrites.lastFull.trans hTime⟩
  · obtain ⟨reason, hPlan, _⟩ := Turn.plan_of_isFull hFull
    refine ⟨by rw [hPlan]; rfl, by rw [hPlan]; rfl, by rw [hPlan]; rfl, by rw [hPlan]; rfl, ?_⟩
    intro u t' u' past hOther hFull' hDigests hRoom hRoom'
    refine Turn.processedAt_congr_of_isFull hFull hFull' (fun p hp => ?_)
      (fun p hp => (hDigests p hp).2) hRoom hRoom'
    rw [h.tree_eq rfl, hOther.tree_eq rfl]
    exact (hDigests p hp).1

end Course

/-! ## Two runs a day apart -/

namespace Inclusion

/-- The first run once more, at another time. -/
def repeating (now : UInt64) : Turn := { reporting with now }

/-- The first run once more, without the cache. -/
def checking : Turn := { reporting with debug := true }

theorem follows_reporting :
    (repeating 86399).Follows reporting files reported reported :=
  ⟨rfl, rfl, rfl, by decide +kernel, rfl⟩

theorem not_noRoom_files : ¬ NoRoom files (.ofText "c") := by
  rintro (⟨e, he⟩ | ⟨e, he⟩)
  · cases he
  · have hWritten : (files.write (.ofText "c") []).2 = .ok () := by decide +kernel
    have hError : (files.write (.ofText "c") []).2 = .error e := he []
    rw [hWritten] at hError
    cases hError

theorem mem_of_hashes {p : Path} (h : checking.Hashes p) : p ∈ [first, second] := by
  have hKeys : included.keys = [first, second] := by decide +kernel
  have hEdges : included.edges = [(first, second)] := by decide +kernel
  rcases h with hInput | ⟨g, hGraph, hKey | ⟨e, hEdge, rfl⟩⟩
  · cases hInput
  · cases hGraph
    rw [← hKeys]
    exact hKey
  · cases hGraph
    rw [hEdges] at hEdge
    rw [List.mem_singleton.1 hEdge]
    exact List.mem_cons_of_mem _ List.mem_cons_self

/-- Just before the day is over the errors are used again. A run that does without them gives what
it gives before there are any. -/
theorem expires_within_day :
    ((repeating 86399).plan reported).isFull = false ∧
    ((repeating 86399).plan reported).lastFull ≤ 86399 ∧
    (checking.processedAt reported reported).2.2 = (checking.processedAt files files).2.2 := by
  obtain ⟨s, m, hWrites⟩ := Turn.exists_snapshot isSaved_reporting
  obtain ⟨text, _, hRead⟩ := Snapshot.read_of_save hWrites.save_eq
  have hCache : (repeating 86399).settings.cacheFile = .ofText "c" := rfl
  have hCache' : checking.settings.cacheFile = .ofText "c" := rfl
  obtain ⟨-, hAgain, -⟩ := course_reported.expires hCache (by decide +kernel)
  obtain ⟨-, -, hFull⟩ := course_reported.expires hCache' (by decide +kernel)
  have hPartial := hWrites.isFull_plan follows_reporting
  obtain ⟨-, hNotLater, -, -⟩ := hAgain hPartial
  obtain ⟨-, -, -, -, hSame⟩ := hFull rfl
  have hDigests : ∀ p, checking.Hashes p → reported.digestOf p = files.digestOf p := by
    have hReads : ∀ p ∈ [first, second], reported.read p = files.read p := by decide +kernel
    exact fun p hp => FileTree.digestOf_congr (hReads p (mem_of_hashes hp))
  exact ⟨hPartial, hNotLater, (hSame files reported files [] course_files rfl
    (fun p hp => ⟨hDigests p hp, hDigests p hp⟩) (Snapshot.not_noRoom_of_read hRead)
    not_noRoom_files).1⟩

end Inclusion

end AnalysisCache
