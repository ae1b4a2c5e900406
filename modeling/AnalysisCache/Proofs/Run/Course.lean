import AnalysisCache.Proofs.Run.Repeat

/-!
# The course of a cache file

One run after another restores a plan from the cache file and saves what becomes of it, or does not.
In between files change and the cache is cleared, but nobody else writes the cache file. What has
happened is written down, so that what the cache file holds can be told from it. What counts as its
content is what it holds once its directory is there, which is `Snapshot.cached`.

* `Course.keeps`: what holds of the cache file if every run that is saved sees to it.
* `Course.tree_eq`: no run removes the cache file.
-/

namespace AnalysisCache

/-! ## What has happened -/

/-- What is written down of a run. -/
structure Entry where
  now : UInt64
  isFull : Bool
  isSaved : Bool
  outcome : Except CacheError Report

inductive Event where
  | ran (e : Entry)
  /-- The cache file is not there any more. -/
  | lost

namespace Event

/-- Of some events, the latest one first, the last run of a kind since the cache file was lost. -/
def latest (isOfKind : Entry → Bool) : List Event → Option Entry
  | [] => none
  | .lost :: _ => none
  | .ran e :: prior => if isOfKind e then some e else latest isOfKind prior

/-- The run that wrote the cache file. -/
def writer : List Event → Option Entry := latest Entry.isSaved

/-- The last run over all files that was saved. -/
def lastFull : List Event → Option Entry := latest fun e => e.isSaved && e.isFull

/-- The times of runs. -/
def times (events : List Event) : List UInt64 :=
  events.filterMap fun
    | .ran e => some e.now
    | .lost => none

theorem latest_of_not {isOfKind : Entry → Bool} {e : Entry} (h : isOfKind e = false)
    (prior : List Event) : latest isOfKind (.ran e :: prior) = latest isOfKind prior := by
  rw [latest, h, if_neg (by decide)]

theorem latest_self {isOfKind : Entry → Bool} {e : Entry} (h : isOfKind e = true)
    (prior : List Event) : latest isOfKind (.ran e :: prior) = some e := by
  rw [latest, if_pos h]

theorem now_mem_times {isOfKind : Entry → Bool} {events : List Event} {e : Entry}
    (h : latest isOfKind events = some e) : e.now ∈ times events := by
  induction events with
  | nil => cases h
  | cons event prior ih =>
    cases event with
    | lost => cases h
    | ran first =>
      rw [latest] at h
      split at h
      · cases h
        exact List.mem_cons_self
      · exact List.mem_cons_of_mem _ (ih h)

end Event

/-! ## What a run leaves -/

namespace Turn

variable (turn : Turn) (t u : FileTree)

/-- What is written down of a run that finds other files when it processes the report. -/
def entry : Entry where
  now := turn.now
  isFull := (turn.plan t).isFull
  isSaved := (Plan.kept turn.report turn.save).isOk && (turn.processedAt t u).2.2.isOk
  outcome := (turn.processedAt t u).2.2

variable {turn t u}

theorem isSaved_of_entry (h : (turn.entry t u).isSaved = true) :
    turn.IsSaved t u (turn.processedAt t u).1 := by
  rw [entry, Bool.and_eq_true] at h
  exact ⟨h.1, rfl, h.2⟩

theorem IsSaved.entry_isSaved {v : FileTree} (h : turn.IsSaved t u v) :
    (turn.entry t u).isSaved = true := by
  rw [entry, Bool.and_eq_true]
  exact ⟨h.kept, h.outcome_ok⟩

/-- A run that is not saved leaves the content of the cache file as it was. -/
theorem cached_of_not_saved (h : (turn.entry t u).isSaved = false) :
    Snapshot.cached (turn.processedAt t u).1 turn.settings.cacheFile =
      Snapshot.cached u turn.settings.cacheFile := by
  rw [entry, processedAt_eq] at h
  rw [processedAt_eq]
  cases hKept : Plan.kept turn.report turn.save with
  | error reason => rfl
  | ok g =>
    rw [hKept] at h
    dsimp only at h ⊢
    cases hOutcome : (Snapshot.saveDraft u (turn.memo t) turn.settings.cacheFile
      (turn.fingerprint t) ⟨(turn.plan t).lastFull, (turn.plan t).mergedErrors turn.report,
        (turn.plan t).mergedDependencies g⟩).2.2 with
    | ok _ =>
      rw [hOutcome] at h
      cases h
    | error e => exact Snapshot.cached_of_saveDraftFrom_error hOutcome

end Turn

/-! ## Courses -/

/-- Whether the cache file holds the same in two trees, or nothing in both. -/
def Snapshot.SameCached (t u : FileTree) (c : Path) : Prop :=
  ∀ content, cached t c = .ok content ↔ cached u c = .ok content

/-- The files that a course of a cache file can lead to, and what happened on the way, the latest
first. -/
inductive Course (c : Path) : FileTree → List Event → Prop
  | start {t : FileTree} (h : ∀ content, Snapshot.cached t c ≠ .ok content) : Course c t []
  /-- Files may change in any way as long as the cache file is left alone. -/
  | edit {t u : FileTree} {events : List Event} (prior : Course c t events)
      (hSame : Snapshot.SameCached t u c) : Course c u events
  /-- Files may change in any way if the cache file is not there after it. -/
  | delete {t u : FileTree} {events : List Event} (prior : Course c t events)
      (hGone : ∀ content, Snapshot.cached u c ≠ .ok content) : Course c u (.lost :: events)
  /-- The cache file is lost if it was there to be cleared. -/
  | clear {t : FileTree} {events : List Event} (prior : Course c t events) (s : Settings)
      (hCache : s.cacheFile = c) :
      Course c ((Run.start s).clear t).1 (if t.isFile c then .lost :: events else events)
  /-- Files may change during a run too. -/
  | run {t u : FileTree} {events : List Event} (prior : Course c t events) (turn : Turn)
      (hCache : turn.settings.cacheFile = c) (hSame : Snapshot.SameCached (turn.tree t) u c) :
      Course c (turn.processedAt t u).1 (.ran (turn.entry t u) :: events)

namespace Course

variable {c : Path} {t : FileTree} {events : List Event}

/-- What every saved run brings about, given that it held of what the run loaded, and what no other
run takes away, holds of the cache file whenever it is there. -/
theorem keeps {P : List Event → Snapshot → Prop}
    (saved : ∀ {turn : Turn} {t u v : FileTree} {events : List Event} {s : Snapshot} {m : Memo},
      turn.settings.cacheFile = c → (∀ old, (Snapshot.load t c).2 = some old → P events old) →
        turn.IsSaved t u v → turn.Writes t u v s m → P (.ran (turn.entry t u) :: events) s)
    (skipped : ∀ {e : Entry} {events : List Event} {s : Snapshot}, e.isSaved = false →
      P events s → P (.ran e :: events) s)
    (h : Course c t events) {content : Bytes} (hCached : Snapshot.cached t c = .ok content) :
    ∃ s, Snapshot.ofContent? content = some s ∧ P events s := by
  induction h generalizing content with
  | start hNone => exact absurd hCached (hNone content)
  | edit _ hSame ih => exact ih ((hSame content).2 hCached)
  | delete _ hGone _ => exact absurd hCached (hGone content)
  | @clear t events _ s hCache ih =>
    subst hCache
    rcases Snapshot.clear_cases t s.cacheFile with ⟨hFile, hWithout⟩ | ⟨hFile, hTree⟩
    · exact absurd hCached (Snapshot.cached_of_without hWithout hFile)
    · have hTree : ((Run.start s).clear t).1 = t := hTree
      rw [hTree] at hCached
      rw [hFile, if_neg (by decide)]
      exact ih hCached
  | @run t u _ _ turn hCache hSame ih =>
    cases hSaved : (turn.entry t u).isSaved with
    | true =>
      have hIsSaved := Turn.isSaved_of_entry hSaved
      obtain ⟨s, m, hWrites⟩ := Turn.exists_snapshot hIsSaved
      obtain ⟨text, hText, hRead⟩ := Snapshot.read_of_save hWrites.save_eq
      rw [hCache] at hRead
      rw [Snapshot.cached_of_read hRead] at hCached
      cases hCached
      refine ⟨s, Snapshot.ofContent?_text hText, saved hCache (fun old hOld => ?_) hIsSaved hWrites⟩
      obtain ⟨before, hBefore, hOld⟩ := Snapshot.load_eq_some_iff.1 hOld
      obtain ⟨s', hs', hHolds⟩ := ih (Snapshot.cached_of_read hBefore)
      rw [hOld] at hs'
      cases hs'
      exact hHolds
    | false =>
      have hBefore : Snapshot.cached t c = .ok content := by
        rw [← hCache] at hCached hSame ⊢
        rw [Turn.cached_of_not_saved hSaved] at hCached
        exact Turn.cached_of_cached_tree ((hSame content).2 hCached)
      obtain ⟨s, hContent, hHolds⟩ := ih hBefore
      exact ⟨s, hContent, skipped hSaved hHolds⟩

/-- Whatever is in the cache file can be loaded. -/
theorem exists_ofContent? (h : Course c t events) {content : Bytes}
    (hRead : t.read c = .ok content) : ∃ s, Snapshot.ofContent? content = some s := by
  obtain ⟨s, hContent, _⟩ := h.keeps (P := fun _ _ => True) (fun _ _ _ _ => trivial)
    (fun _ _ => trivial) (Snapshot.cached_of_read hRead)
  exact ⟨s, hContent⟩

/-- No run finds anything to remove in the place of the cache file. -/
theorem tree_eq (h : Course c t events) {turn : Turn} (hCache : turn.settings.cacheFile = c) :
    turn.tree t = t := by
  have hTree : turn.tree t = (Run.previous t c turn.debug).1 := by
    rw [← hCache]
    rfl
  have hNot : ¬ Snapshot.IsForeign t c := by
    rintro ⟨v, ⟨content, text, hRead, hText, hParse⟩, _, hShape⟩
    obtain ⟨s, hs⟩ := h.exists_ofContent? hRead
    rw [Snapshot.ofContent?, hText, Option.bind_eq_bind, Option.bind_some, hParse,
      Option.bind_eq_bind, Option.bind_some, hShape] at hs
    cases hs
  rw [hTree, Run.previous]
  split
  · rfl
  · exact Snapshot.files_of_load_of_not_isForeign hNot

/-- A run during which no file changes. -/
theorem after (h : Course c t events) (turn : Turn) (hCache : turn.settings.cacheFile = c) :
    Course c (turn.after t) (.ran (turn.entry t t) :: events) := by
  have hTree := h.tree_eq hCache
  rw [Turn.after, Turn.processed, hTree]
  exact h.run turn hCache (fun _ => by rw [hTree])

end Course

/-! ## A run that reports an error -/

namespace Inclusion

theorem isSaved_reporting : reporting.IsSaved files files reported :=
  ⟨by decide +kernel, rfl, by decide +kernel⟩

/-- At the beginning there is no cache file. -/
theorem course_files : Course (.ofText "c") files [] := by
  refine .start fun content hContent => ?_
  have hNone : (Snapshot.cached files (.ofText "c")).isOk = false := by decide +kernel
  rw [hContent] at hNone
  cases hNone

/-- The course of that run alone. -/
theorem course_reported :
    Course (.ofText "c") reported [.ran (reporting.entry files files)] :=
  course_files.after reporting rfl

end Inclusion

end AnalysisCache
