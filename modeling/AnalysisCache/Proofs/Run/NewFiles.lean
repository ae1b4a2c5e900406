import AnalysisCache.Proofs.Run.Analyzer

/-!
# Files that a later run takes in

A later run may be over files that the earlier one was not over. Such a file is new to the snapshot
only if nothing mentions it there. A file that another one depends on is mentioned, though it was
never analysed, and so is a file that depended on something when it was analysed still. The later
run takes either for a file without errors, and leaves it out.

* `Turn.TakesIn`: what a later run should do with files that are new to it.
* `Turn.takesIn_iff`: exactly when it does so.
* `Inclusion.not_takesIn`: a run that leaves out a file that nobody has analysed yet.
-/

namespace AnalysisCache

namespace Turn

/-- Whether a run schedules each of its files that an earlier one was not over and, if there is one,
each that has errors in the snapshot. -/
structure TakesIn (later turn : Turn) (w : FileTree) (s : Snapshot) : Prop where
  strangers : ∀ f ∈ later.files, ¬ f.Among turn.files → f.Among (later.plan w).schedule
  suspects : (∃ f ∈ later.files, ¬ f.Among turn.files) →
    ∀ f ∈ later.files, s.errors.contains f = true → f.Among (later.plan w).schedule

/-- A file that the earlier run was not over is left out if the snapshot mentions it, unless it is
scheduled for another reason. Files with errors are left out if the snapshot mentions all files. -/
theorem takesIn_iff {turn later : Turn} {t u v w : FileTree} (hSaved : turn.IsSaved t u v)
    (hLater : later.Follows turn t v w) :
    ∃ s m, turn.Writes t u v s m ∧ (Snapshot.load w later.settings.cacheFile).2 = some s ∧
      (later.plan w).isFull = false ∧
      (later.TakesIn turn w s ↔
        (∀ f ∈ later.files, ¬ f.Among turn.files → turn.Mentions t u f →
          Plan.IsAffected w.isFile w.read (later.inputMemo w) s later.files f ∨
            (∃ k ∈ later.files, ¬ turn.Mentions t u k) ∧ s.errors.contains f = true) ∧
        ((∃ f ∈ later.files, ¬ f.Among turn.files) → (∀ k ∈ later.files, turn.Mentions t u k) →
          ∀ f ∈ later.files, s.errors.contains f = true →
            Plan.IsAffected w.isFile w.read (later.inputMemo w) s later.files f)) := by
  obtain ⟨s, m, hWrites⟩ := exists_snapshot hSaved
  have hLoad := congrArg Prod.snd (hWrites.load_eq hLater)
  have hSchedule := fun f hf => hWrites.among_schedule_iff hLater (f := f) hf
  refine ⟨s, m, hWrites, hLoad, hWrites.isFull_plan hLater, ?_, ?_⟩
  · rintro ⟨hStrangers, hSuspects⟩
    constructor
    · intro f hf hNew hMentions
      rcases (hSchedule f hf).1 (hStrangers f hf hNew) with h | h
      · exact absurd hMentions h
      · exact h
    · intro hSome hAll f hf hErrors
      rcases (hSchedule f hf).1 (hSuspects hSome f hf hErrors) with h | h | ⟨⟨k, hk, h⟩, _⟩
      · exact absurd (hAll f hf) h
      · exact h
      · exact absurd (hAll k hk) h
  · rintro ⟨hStrangers, hSuspects⟩
    constructor
    · intro f hf hNew
      refine (hSchedule f hf).2 ?_
      by_cases hMentions : turn.Mentions t u f
      · exact .inr (hStrangers f hf hNew hMentions)
      · exact .inl hMentions
    · intro hSome f hf hErrors
      refine (hSchedule f hf).2 ?_
      by_cases hAll : ∀ k ∈ later.files, turn.Mentions t u k
      · exact .inr (.inl (hSuspects hSome hAll f hf hErrors))
      · push Not at hAll
        exact .inr (.inr ⟨hAll, hErrors⟩)

end Turn

/-! ## A file that another one depends on -/

namespace Inclusion

/-- A run over the first file alone, which depends on the second one. -/
def alone : Turn := (turn [first]).asking files analyzer

/-- The files that it leaves. -/
def left : FileTree := (alone.processedAt files files).1

/-- A run over both files. -/
def both : Turn := turn [first, second]

theorem isSaved_alone : alone.IsSaved files files left where
  kept := rfl
  after_eq := rfl
  outcome_ok := by decide +kernel

theorem follows_alone : both.Follows alone files left left where
  cacheFile := rfl
  read_eq := rfl
  debug := rfl
  fingerprint := by decide +kernel
  inTime := rfl

/-- The second file is not analysed in either run. -/
theorem schedule_both : (both.plan left).schedule = [] :=
  Turn.schedule_eq_of_snapshot? isSaved_alone follows_alone (by decide +kernel)

/-- Although the second file is new to the later run, it is left out. -/
theorem not_takesIn : alone.IsSaved files files left ∧ both.Follows alone files left left ∧
    second ∈ both.files ∧ ¬ second.Among alone.files ∧
      ¬ second.Among (both.plan left).schedule := by
  refine ⟨isSaved_alone, follows_alone, by decide, by decide, ?_⟩
  rw [schedule_both]
  exact Path.not_among_nil second

/-- It is left out because the snapshot mentions it, and nothing has changed that it depends on. -/
theorem takesIn_iff_both : alone.IsSaved files files left ∧ both.Follows alone files left left ∧
    ∃ s m, alone.Writes files files left s m ∧
      (Snapshot.load left both.settings.cacheFile).2 = some s ∧ (both.plan left).isFull = false ∧
      ¬ both.TakesIn alone left s ∧ alone.Mentions files files second ∧
      ¬ Plan.IsAffected left.isFile left.read (both.inputMemo left) s both.files second := by
  obtain ⟨s, m, hWrites, hLoad, hPartial, hIff⟩ := Turn.takesIn_iff isSaved_alone follows_alone
  have hNot : ¬ both.TakesIn alone left s := by
    intro hTakesIn
    have hAmong := hTakesIn.strangers second (by decide) (by decide)
    rw [schedule_both] at hAmong
    exact Path.not_among_nil second hAmong
  have hErrors : s.errors = .empty := hWrites.errors.trans rfl
  refine ⟨isSaved_alone, follows_alone, s, m, hWrites, hLoad, hPartial, hNot, ?_⟩
  by_contra hOther
  refine hNot (hIff.2 ⟨fun f hf hNew hMentions => ?_, fun _ _ f _ hContains => ?_⟩)
  · rcases List.mem_pair.1 hf with rfl | rfl
    · exact absurd (show first.Among alone.files by decide) hNew
    · exact .inl (by_contra fun hAffected => hOther ⟨hMentions, hAffected⟩)
  · rw [hErrors] at hContains
    cases hContains

end Inclusion

end AnalysisCache
