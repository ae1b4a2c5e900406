import AnalysisCache.Proofs.Run.Analyzer

/-!
# Edits made while a run is under way

A file may be edited after the plan is made and before the run is saved, and what the run reports
then is about its earlier content. The next run sees this only if the digest in the snapshot is the
earlier one. It is if it was taken for the plan, which is so for the keys of the snapshot that the
plan was made from, and for no other file. The digest of a file that is analysed for the first time
is taken when the run is saved, and then the edit is lost.

* `Turn.contains_memo_iff`: the files of a run the digests of which are taken for the plan.
* `Turn.notices_iff`: exactly when the next run schedules the edited file.
* `Inclusion.not_notices`: an edit that is lost.
-/

namespace AnalysisCache

open AnalysisCache.Path (same_self same_symm same_trans)
open FileTree (addressable_of_isFile isFile_of_same isFile_of_digest? digest?_of_same)

namespace Turn

/-! ## Digests that are taken for the plan -/

/-- Of the files of a run, those that bear on the fingerprint and those that the plan carries over
have their digest taken by the time the plan is made. -/
theorem contains_memo_iff {turn : Turn} {t : FileTree} {f : Path} (hf : f ∈ turn.files)
    (hFile : (turn.tree t).isFile f = true) : (turn.memo t).known.contains f = true ↔
      f.Among ((Fingerprint.inputs turn.settings).filter (turn.tree t).isFile) ∨
        (turn.plan t).dependents.contains f = true := by
  rcases plan_cases turn t with
    ⟨reason, hPlan, hMemo⟩ | ⟨s, _, hTree, _, _, hPlan, hMemo⟩
  · rw [hPlan, hMemo, contains_inputMemo]
    exact (or_iff_left fun hEmpty => by cases hEmpty).symm
  · have hAmong : f.Among (turn.files.filter t.isFile) := by
      rw [hTree] at hFile
      exact Path.among_of_mem (List.mem_filter.2 ⟨hf, hFile⟩)
    have hTaken : turn.memo t =
        (Plan.changes t.isFile t.read s.dependents turn.files (turn.inputMemo t)).1 := hMemo
    have hKept : (turn.plan t).dependents = s.dependents.restrict turn.files := by
      rw [hPlan]
      rfl
    have hDependents : (turn.plan t).dependents.contains f = s.dependents.contains f := by
      rw [hKept, PathMap.contains_eq_isSome, PathMap.contains_eq_isSome, Plan.get?_restrict,
        if_pos (Path.among_of_mem hf)]
    rw [hTaken, hDependents, hTree, Plan.contains_changes, contains_inputMemo]
    exact or_congr_right (and_iff_left hAmong)

section edit

variable {turn later : Turn} {t u v w : FileTree} {s : Snapshot} {m : Memo} {f : Path}
  {d e : Digest}

/-- A file with another content than before is no file that bears on a fingerprint that is still
the same. -/
theorem not_among_inputs {turn later : Turn} {t u : FileTree}
    (h : (turn.fingerprint t).same (later.fingerprint u) = true)
    (hBefore : (turn.tree t).digest? f = some d) (hAfter : (later.tree u).digest? f = some e)
    (hNe : e ≠ d) : ¬ f.Among ((Fingerprint.inputs turn.settings).filter (turn.tree t).isFile) := by
  intro hAmong
  obtain ⟨q, hq, hd⟩ := Fingerprint.digest?_of_same h hAmong hBefore
  have hAddressable := addressable_of_isFile (isFile_of_digest? hAfter)
  rw [digest?_of_same hAddressable (same_symm hq) hd] at hAfter
  exact hNe (Option.some.inj hAfter).symm

/-- The digest that is saved of a file is the earlier one if it was taken for the plan, and otherwise
the one at the time of the save. -/
theorem Writes.digest_eq (h : turn.Writes t u v s m) {k : Dependents}
    (hGet : s.dependents.get? f = some k) (hBefore : (turn.tree t).digest? f = some d)
    (hEdited : u.digest? f = some e) :
    k.digest = if (turn.memo t).known.contains f then d else e := by
  have hKnown : m.known.get? f = some k.digest := h.inverts.dated f k hGet
  split
  · rename_i hContains
    obtain ⟨d', hd'⟩ := PathMap.contains_iff_get?.1 hContains
    have hAddressable := addressable_of_isFile (isFile_of_digest? hBefore)
    rw [h.grows.kept hd'] at hKnown
    rw [(current_memo turn t).digest? hAddressable hd'] at hBefore
    exact (Option.some.inj hKnown).symm.trans (Option.some.inj hBefore)
  · rename_i hContains
    rcases h.grows.taken hKnown with hOld | ⟨q, hq, hd⟩
    · exact absurd (PathMap.contains_iff_get?.2 ⟨_, hOld⟩) hContains
    · have hAddressable := addressable_of_isFile (isFile_of_digest? hEdited)
      rw [digest?_of_same hAddressable (same_symm hq) hd] at hEdited
      exact Option.some.inj hEdited

/-- The next run schedules a file that was edited late if its digest was taken for the plan because
it was a key of the snapshot in use. Otherwise the edit is lost, unless the next run schedules the
file for another reason: the snapshot does not mention it, the next run cannot read it by the name
that it is given first, it depends on something that has changed or is lost, or it has errors and
there is a new file. -/
theorem notices_iff (hSaved : turn.IsSaved t u v) (hLater : later.Follows turn t v w)
    (hf : f ∈ turn.files) (hf' : f ∈ later.files) (hBefore : (turn.tree t).digest? f = some d)
    (hEdited : u.digest? f = some e) (hStays : w.digest? f = some e) (hNe : e ≠ d) :
    ∃ s m, turn.Writes t u v s m ∧ (Snapshot.load w later.settings.cacheFile).2 = some s ∧
      (later.plan w).isFull = false ∧
      (f.Among (later.plan w).schedule ↔
        (turn.plan t).dependents.contains f = true ∨ ¬ turn.Mentions t u f ∨
          (∃ q, (later.files.find? fun q => q.same f) = some q ∧ w.isFile q = false) ∨
          Plan.DependsOnChange w.isFile w.read (later.inputMemo w) s later.files f ∨
          (∃ k ∈ later.files, ¬ turn.Mentions t u k) ∧ s.errors.contains f = true) := by
  obtain ⟨s, m, hWrites⟩ := exists_snapshot hSaved
  have hLoad := congrArg Prod.snd (hWrites.load_eq hLater)
  refine ⟨s, m, hWrites, hLoad, hWrites.isFull_plan hLater, ?_⟩
  obtain ⟨hTree, -⟩ := hWrites.plan_eq hLater
  have hAfter : (later.tree w).digest? f = some e := by rw [hTree]; exact hStays
  -- No fingerprint that is still the same knows the file.
  have hTurn := not_among_inputs hLater.fingerprint hBefore hAfter hNe
  have hInputs := not_among_inputs (Fingerprint.same_symm hLater.fingerprint) hAfter hBefore hNe.symm
  have hFile : (turn.tree t).isFile f = true := isFile_of_digest? hBefore
  have hTaken : (turn.memo t).known.contains f = true ↔
      (turn.plan t).dependents.contains f = true := by
    rw [contains_memo_iff hf hFile]
    exact or_iff_right hTurn
  have hUnknown : (later.inputMemo w).known.contains f = false := by
    rw [hTree] at hInputs
    rw [← Bool.not_eq_true, contains_inputMemo]
    exact hInputs
  rw [hWrites.among_schedule_iff hLater hf', ← hTaken]
  by_cases hMentions : turn.Mentions t u f
  · obtain ⟨k, hGet⟩ := PathMap.contains_iff_get?.1 ((hWrites.contains_iff f).2 hMentions)
    have hDigest := hWrites.digest_eq hGet hBefore hEdited
    have hChanged : e ≠ k.digest ↔ (turn.memo t).known.contains f = true := by
      rw [hDigest]
      split <;> simp_all
    rw [Plan.IsAffected, Plan.isChanged_iff_of_unknown (current_inputMemo later w) hf' hUnknown hGet
      hStays, hChanged, or_assoc, or_assoc, or_left_comm]
  · simp only [hMentions, not_false_eq_true, true_or, or_true]

end edit

end Turn

/-! ## A file that is edited in its first run -/

namespace Inclusion

/-- A run over both files, neither of which was analysed before. -/
def whole : Turn := (turn [first, second]).asking files analyzer

/-- The files after the first one is edited. -/
def edited : FileTree := files.set [[0x61]] (.file [3])

/-- What the run leaves if it is saved then. -/
def editedLeft : FileTree := (whole.processedAt files edited).1

def next : Turn := turn [first, second]

/-- The run is saved, and what it leaves has the edited file. -/
theorem processedAt_whole : (whole.processedAt files edited).2.2.isOk = true ∧
    editedLeft.digest? first = edited.digest? first ∧
    edited.digest? first ≠ (whole.tree files).digest? first := by decide +kernel

theorem isSaved_whole : whole.IsSaved files edited editedLeft where
  kept := rfl
  after_eq := rfl
  outcome_ok := processedAt_whole.1

theorem follows_whole : next.Follows whole files editedLeft editedLeft where
  cacheFile := rfl
  read_eq := rfl
  debug := rfl
  fingerprint := by decide +kernel
  inTime := rfl

theorem schedule_next : (next.plan editedLeft).schedule = [] :=
  Turn.schedule_eq_of_snapshot? isSaved_whole follows_whole (by decide +kernel)

theorem exists_digests : ∃ d e, (whole.tree files).digest? first = some d ∧
    edited.digest? first = some e ∧ editedLeft.digest? first = some e ∧ e ≠ d := by
  have hBefore : (whole.tree files).isFile first = true := rfl
  have hEdited : edited.isFile first = true := rfl
  obtain ⟨d, hd⟩ := FileTree.digest?_isSome_iff.2 hBefore
  obtain ⟨e, he⟩ := FileTree.digest?_isSome_iff.2 hEdited
  obtain ⟨-, hStays, hNe⟩ := processedAt_whole
  refine ⟨d, e, hd, he, hStays.trans he, fun hEq => hNe ?_⟩
  rw [hd, he, hEq]

/-- The next run does not schedule the edited file. -/
theorem not_notices : whole.IsSaved files edited editedLeft ∧
    next.Follows whole files editedLeft editedLeft ∧ first ∈ whole.files ∧ next.files = whole.files ∧
    (∃ d e, (whole.tree files).digest? first = some d ∧ edited.digest? first = some e ∧
      editedLeft.digest? first = some e ∧ e ≠ d) ∧
    ¬ first.Among (next.plan editedLeft).schedule := by
  refine ⟨isSaved_whole, follows_whole, by decide, rfl, exists_digests, ?_⟩
  rw [schedule_next]
  exact Path.not_among_nil first

/-- The edit is lost since the file was no key of a snapshot before, the snapshot mentions it now,
and nothing has changed that it depends on. -/
theorem notices_iff_whole : ∃ d e, (whole.tree files).digest? first = some d ∧
    edited.digest? first = some e ∧ editedLeft.digest? first = some e ∧ e ≠ d ∧
    ∃ s m, whole.Writes files edited editedLeft s m ∧
      (Snapshot.load editedLeft next.settings.cacheFile).2 = some s ∧
      (next.plan editedLeft).isFull = false ∧
      ¬ first.Among (next.plan editedLeft).schedule ∧
      (whole.plan files).dependents.contains first ≠ true ∧ whole.Mentions files edited first ∧
      ¬ Plan.DependsOnChange editedLeft.isFile editedLeft.read (next.inputMemo editedLeft) s
        next.files first := by
  obtain ⟨d, e, hBefore, hEdited, hStays, hNe⟩ := exists_digests
  obtain ⟨s, m, hWrites, hLoad, hPartial, hIff⟩ := Turn.notices_iff isSaved_whole follows_whole
    (by decide) (by decide) hBefore hEdited hStays hNe
  have hNot : ¬ first.Among (next.plan editedLeft).schedule := by
    rw [schedule_next]
    exact Path.not_among_nil first
  have hReasons := mt hIff.2 hNot
  simp only [not_or, not_not] at hReasons
  obtain ⟨hKey, hMentions, -, hDepends, -⟩ := hReasons
  exact ⟨d, e, hBefore, hEdited, hStays, hNe, s, m, hWrites, hLoad, hPartial, hNot, hKey,
    hMentions, hDepends⟩

end Inclusion

end AnalysisCache
