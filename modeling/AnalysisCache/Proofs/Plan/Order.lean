import AnalysisCache.Proofs.Plan.Schedule

/-!
# The order of a schedule

A schedule lists files in the order in which they come up. The analysed files are gone through first,
each changed one followed by what depended on it. Next are the files that depended on a key that is
lost, key by key, and last those that had errors. A file that comes up again stays where it came up
first.

* `Plan.ListsFirsts`: what it is to list each path where it comes first.
* `Plan.due`: what comes up when the analysed files are gone through.
* `Plan.firsts_changes`: that a file which is named repeatedly comes up once.
* `Plan.reuses_of_partial`: what is scheduled, in which order, and what is carried over.
-/

namespace AnalysisCache

open AnalysisCache.Path (same_self same_symm same_trans same_comm)
open DependentGraph (filesAt filesAt_of_get?)

namespace Plan

/-! ## First occurrences -/

/-- Whether the second list has each path of the first one as it is spelled where it comes first, in
that order. -/
structure ListsFirsts (ps qs : List Path) : Prop where
  mem_iff : ∀ q, q ∈ qs ↔ (ps.find? fun p => p.same q) = some q
  increasing : qs.Pairwise fun q r =>
    (ps.findIdx fun p => p.same q) < ps.findIdx fun p => p.same r

theorem mem_firsts_iff {ps : List Path} {q : Path} :
    q ∈ firsts ps ↔ (ps.find? fun p => p.same q) = some q := by
  induction ps with
  | nil => simp [firsts]
  | cons p rest ih =>
    rw [firsts, List.mem_cons, List.mem_filter, ih, List.find?_cons, same_comm (p := q)]
    cases hSame : p.same q with
    | true => simp [eq_comm]
    | false =>
      have hNe : q ≠ p := by
        rintro rfl
        rw [same_self] at hSame
        cases hSame
      simp [hNe]

theorem listsFirsts_firsts (ps : List Path) : ListsFirsts ps (firsts ps) := by
  refine ⟨fun q => mem_firsts_iff, ?_⟩
  induction ps with
  | nil => exact .nil
  | cons p rest ih =>
    have hLater : ∀ {q : Path}, q ∈ (firsts rest).filter (fun q => !q.same p) →
        ((p :: rest).findIdx fun r => r.same q) = (rest.findIdx fun r => r.same q) + 1 := by
      intro q hq
      have hNot := (List.mem_filter.1 hq).2
      rw [Bool.not_eq_true', same_comm] at hNot
      rw [List.findIdx_cons, hNot]
      rfl
    refine List.pairwise_cons.2 ⟨fun q hq => ?_, (ih.filter _).imp_of_mem fun {q r} hq hr hLt => ?_⟩
    · rw [hLater hq, List.findIdx_cons, same_self]
      exact Nat.succ_pos _
    · rw [hLater hq, hLater hr]
      exact Nat.succ_lt_succ hLt

/-- It makes no difference whether paths are dropped before or after, if spelling does not matter. -/
theorem filter_firsts {keep : Path → Bool} (h : ∀ p q, p.same q = true → keep p = keep q)
    (ps : List Path) : (firsts ps).filter keep = firsts (ps.filter keep) := by
  induction ps with
  | nil => rfl
  | cons p rest ih =>
    rw [firsts, List.filter_cons, List.filter_cons]
    cases hKeep : keep p with
    | true =>
      rw [if_pos rfl, if_pos rfl, firsts, ← ih, List.filter_filter, List.filter_filter]
      simp only [Bool.and_comm]
    | false =>
      rw [if_neg (by decide), if_neg (by decide), ← ih, List.filter_filter]
      refine List.filter_congr fun q _ => ?_
      cases hSame : q.same p with
      | true => rw [h q p hSame, hKeep, Bool.false_and]
      | false => rw [Bool.not_false, Bool.and_true]

theorem firsts_append (ps qs : List Path) :
    firsts (ps ++ qs) = firsts ps ++ firsts (qs.filter fun q => !decide (q.Among ps)) := by
  induction ps with
  | nil => simp [firsts]
  | cons p rest ih =>
    have hSplit : (qs.filter fun q => !decide (q.Among (p :: rest))) =
        (qs.filter fun q => !decide (q.Among rest)).filter fun q => !q.same p := by
      rw [List.filter_filter]
      refine List.filter_congr fun q _ => ?_
      rw [same_comm]
      simp only [Path.among_cons_iff, Bool.decide_or, Bool.not_or, Bool.decide_eq_true]
    have hInvariant : ∀ q r : Path, q.same r = true → (!q.same p) = !r.same p := by
      intro q r hSame
      rw [Path.same_congr_left hSame]
    rw [List.cons_append, firsts, firsts, ih, List.filter_append, hSplit,
      filter_firsts hInvariant (qs.filter _), List.cons_append]

theorem firsts_append_congr {ps ps' qs qs' : List Path} (h : firsts ps = firsts ps')
    (k : firsts qs = firsts qs') : firsts (ps ++ qs) = firsts (ps' ++ qs') := by
  have hAmong : ∀ q : Path, q.Among ps ↔ q.Among ps' := by
    intro q
    rw [← among_firsts_iff, h, among_firsts_iff]
  have hInvariant : ∀ q r : Path, q.same r = true →
      (!decide (q.Among ps')) = !decide (r.Among ps') := by
    intro q r hSame
    simp only [Path.among_congr hSame]
  rw [firsts_append, firsts_append, h]
  simp only [hAmong]
  rw [← filter_firsts hInvariant, ← filter_firsts hInvariant, k]

theorem firsts_append_right (ps : List Path) {qs qs' : List Path} (h : firsts qs = firsts qs') :
    firsts (ps ++ qs) = firsts (ps ++ qs') := firsts_append_congr rfl h

/-- What has come up before makes no difference. -/
theorem firsts_append_flatMap_congr {ps : List Path} {part part' : Path → List Path}
    {files : List Path} (h : ∀ f ∈ files, part f = part' f ∨
      (∀ q ∈ part f, q.Among ps) ∧ ∀ q ∈ part' f, q.Among ps) :
    firsts (ps ++ files.flatMap part) = firsts (ps ++ files.flatMap part') := by
  have hNone : ∀ qs : List Path, (∀ q ∈ qs, q.Among ps) →
      (qs.filter fun q => !decide (q.Among ps)) = [] := by
    intro qs hqs
    refine List.filter_eq_nil_iff.2 fun q hq => ?_
    rw [decide_eq_true (hqs q hq)]
    decide
  rw [firsts_append, firsts_append, List.filter_flatMap, List.filter_flatMap]
  congr 2
  refine List.flatMap_congr fun f hf => ?_
  rcases h f hf with hEq | ⟨hPart, hPart'⟩
  · rw [hEq]
  · rw [hNone _ hPart, hNone _ hPart']

/-! ## The analysed files -/

variable {isFile : Path → Bool} {read : Path → Except FileError Bytes}

instance (m : Memo) (g : DependentGraph) (files : List Path) (f : Path) :
    Decidable (IsChanged read m g files f) :=
  match hGet : g.get? f, hFind : files.find? fun q => q.same f with
  | some d, some q => decidable_of_iff ((hasChanged read m q d.digest).2 = true) (by
      rw [hasChanged_iff]
      constructor
      · exact fun hNe => ⟨d, q, hGet, hFind, hNe⟩
      · rintro ⟨d', q', hGet', hFind', hNe⟩
        rw [hGet] at hGet'
        rw [hFind] at hFind'
        cases hGet'
        cases hFind'
        exact hNe)
  | none, _ => isFalse (by
      rintro ⟨d, q, hGet', _⟩
      rw [hGet] at hGet'
      cases hGet')
  | _, none => isFalse (by
      rintro ⟨d, q, _, hFind', _⟩
      rw [hFind] at hFind'
      cases hFind')

/-- What comes up for one of the analysed files: the file, if it is new, and if it has changed, also
the files that depended on it and are still there. -/
def dueFor (isFile : Path → Bool) (read : Path → Except FileError Bytes) (m : Memo)
    (g : DependentGraph) (files : List Path) (f : Path) : List Path :=
  if g.contains f = false then [f]
  else if IsChanged read m g files f then f :: (g.filesAt f).filter isFile
  else []

/-- What comes up when the analysed files are gone through. -/
def due (isFile : Path → Bool) (read : Path → Except FileError Bytes) (m : Memo)
    (g : DependentGraph) (files : List Path) : List Path :=
  files.flatMap (dueFor isFile read m g files)

theorem dueFor_of_new {m : Memo} {g : DependentGraph} {files : List Path} {f : Path}
    (h : g.contains f = false) : dueFor isFile read m g files f = [f] := if_pos h

theorem dueFor_of_changed {m : Memo} {g : DependentGraph} {files : List Path}
    {f : Path} (h : IsChanged read m g files f) :
    dueFor isFile read m g files f = f :: (g.filesAt f).filter isFile := by
  obtain ⟨d, _, hGet, _⟩ := id h
  rw [dueFor, if_neg, if_pos h]
  rw [PathMap.contains_iff_get?.2 ⟨d, hGet⟩]
  decide

theorem dueFor_congr {m m' : Memo} {g : DependentGraph} {files files' : List Path}
    {f : Path} (h : IsChanged read m g files f ↔ IsChanged read m' g files' f) :
    dueFor isFile read m g files f = dueFor isFile read m' g files' f := by
  simp only [dueFor, h]

section

variable {m : Memo} {g : DependentGraph} {first : Path} {rest : List Path}

theorem due_of_new (h : g.get? first = none) :
    due isFile read m g (first :: rest) = first :: due isFile read m g rest := by
  have hRest : rest.flatMap (dueFor isFile read m g (first :: rest)) = due isFile read m g rest :=
    List.flatMap_congr fun f _ => dueFor_congr (isChanged_cons_of_new h)
  rw [due, List.flatMap_cons, dueFor_of_new (PathMap.get?_eq_none_iff.1 h), hRest]
  rfl

variable {d : Dependents} (hGet : g.get? first = some d)

include hGet

theorem due_of_unchanged (hOk : (m.digestFrom read first).2 = .ok d.digest) :
    due isFile read m g (first :: rest) = due isFile read (m.digestFrom read first).1 g rest := by
  have hFirst : ¬ IsChanged read m g (first :: rest) first := by
    rintro ⟨d', q, hGet', hFind, hNe⟩
    rw [List.find?_cons, same_self] at hFind
    rw [hGet] at hGet'
    cases hGet'
    cases hFind
    exact hNe hOk
  have hRest : rest.flatMap (dueFor isFile read m g (first :: rest)) =
      due isFile read (m.digestFrom read first).1 g rest := by
    refine List.flatMap_congr fun f _ => dueFor_congr ?_
    rw [isChanged_cons hGet]
    exact or_iff_right fun h => h.2 hOk
  have hContains : g.contains first = true := PathMap.contains_iff_get?.2 ⟨d, hGet⟩
  rw [due, List.flatMap_cons, hRest, dueFor, if_neg (by rw [hContains]; decide), if_neg hFirst]
  rfl

/-- For another spelling of a file nothing comes up that does not come up for the file. -/
theorem among_of_mem_dueFor {files : List Path} {f q : Path} (hSame : first.same f = true)
    (hq : q ∈ dueFor isFile read m g files f) : q.Among (first :: d.files.filter isFile) := by
  have hFiles : g.filesAt f = d.files := by
    rw [PathMap.get?_congr g hSame] at hGet
    exact filesAt_of_get? hGet
  rw [Path.among_cons_iff]
  rw [dueFor, hFiles] at hq
  split at hq
  · rw [List.mem_singleton.1 hq]
    exact .inl hSame
  · split at hq
    · rcases List.mem_cons.1 hq with rfl | hq
      · exact .inl hSame
      · exact .inr (Path.among_of_mem hq)
    · cases hq

theorem firsts_due_of_changed (hNe : (m.digestFrom read first).2 ≠ .ok d.digest) :
    firsts (due isFile read m g (first :: rest)) =
      firsts ((first :: d.files.filter isFile) ++
        due isFile read (m.digestFrom read first).1 g rest) := by
  have hFirst : IsChanged read m g (first :: rest) first :=
    (isChanged_cons hGet).2 (.inl ⟨same_self first, hNe⟩)
  rw [due, List.flatMap_cons, dueFor_of_changed hFirst, filesAt_of_get? hGet]
  refine firsts_append_flatMap_congr fun f _ => ?_
  cases hSame : first.same f with
  | false =>
    refine .inl (dueFor_congr ?_)
    rw [isChanged_cons hGet, hSame]
    exact or_iff_right fun h => by cases h.1
  | true =>
    -- The changed file is named again, and all that comes up has come up before.
    exact .inr ⟨fun q => among_of_mem_dueFor hGet hSame, fun q => among_of_mem_dueFor hGet hSame⟩

end

/-- Going through the files while the memo grows brings up the same files first. -/
theorem firsts_changes (g : DependentGraph) (files : List Path) (m : Memo) :
    firsts (changes isFile read g files m).2 = firsts (due isFile read m g files) := by
  induction files generalizing m with
  | nil => rfl
  | cons first rest ih =>
    cases hGet : g.get? first with
    | none =>
      rw [changes_cons_of_new hGet, due_of_new hGet]
      exact firsts_append_right [first] (ih m)
    | some d =>
      rw [changes_cons hGet]
      by_cases hOk : (m.digestFrom read first).2 = .ok d.digest
      · rw [if_neg fun h => hasChanged_iff.1 h hOk, due_of_unchanged hGet hOk]
        exact ih _
      · rw [if_pos (hasChanged_iff.2 hOk), firsts_due_of_changed hGet hOk]
        exact firsts_append_right (first :: d.files.filter isFile) (ih _)

/-! ## The files with errors -/

/-- Those of some files that had errors, in order. -/
def suspects (errors : ErrorsByFile) (files : List Path) : List Path :=
  sortedPaths (files.filter errors.contains)

theorem keys_errorsOf (errors : ErrorsByFile) (files : List Path) :
    (errorsOf errors files).keys = suspects errors files := by
  have hFold : ∀ (kept : ErrorsByFile) (seen : PathMap Unit), kept.keys = seen.keys →
      (files.foldl (keepErrors errors) kept).keys =
        (((files.filter errors.contains).map fun f => (f, ())).foldl
          (fun m row => m.insert row.1 row.2) seen).keys := by
    induction files with
    | nil => exact fun _ _ h => h
    | cons f rest ih =>
      intro kept seen h
      rw [List.foldl_cons, List.filter_cons, keepErrors, PathMap.contains_eq_isSome]
      cases errors.get? f with
      | none => exact ih kept seen h
      | some ds => exact ih _ _ (PathMap.keys_insert_congr h f ds ())
  exact hFold .empty .empty rfl

/-! ## Plans from a snapshot -/

/-- What a plan makes of a snapshot that is used again. -/
structure Reuses (isFile : Path → Bool) (read : Path → Except FileError Bytes) (m : Memo)
    (s : Snapshot) (files : List Path) (p : Plan) : Prop where
  apart : p.schedule.Pairwise fun q r => q.same r = false
  /-- A file is scheduled if it is new or has changed, if it is there and depended on a key that has
  changed or is lost, or if it had errors and some file is new. -/
  among_iff : ∀ q : Path, q.Among p.schedule ↔
    q.Among files ∧ s.dependents.contains q = false ∨
      IsChanged read m s.dependents files q ∨
      (∃ f, IsChanged read m s.dependents files f ∧
        q.Among ((s.dependents.filesAt f).filter isFile)) ∨
      (∃ f, IsLost s.dependents files f ∧ q.Among ((s.dependents.filesAt f).filter isFile)) ∨
      (∃ f ∈ files, s.dependents.contains f = false) ∧ q.Among files ∧
        s.errors.contains q = true
  ordered : ListsFirsts (due isFile read m s.dependents files ++ orphans isFile s.dependents files ++
    if ∃ f ∈ files, s.dependents.contains f = false then suspects s.errors files else []) p.schedule
  errors : ∀ q, p.errors.get? q = if q.Among files then s.errors.get? q else none
  dependents : ∀ e, e ∈ p.dependents.entries ↔ e ∈ s.dependents.entries ∧ e.1.Among files
  lastFull : p.lastFull = s.lastFull

variable (isFile read) in
theorem reuses_reuse (m : Memo) (s : Snapshot) (files : List Path) :
    Reuses isFile read m s files (reuse isFile read m s files).2 where
  apart := pairwise_firsts _
  among_iff q := by
    rw [among_schedule_iff, hasNew_iff, IsAffected, DependsOnChange]
    simp only [or_and_right, exists_or, or_assoc]
  ordered := by
    have hSchedule : (reuse isFile read m s files).2.schedule =
        firsts (due isFile read m s.dependents files ++ orphans isFile s.dependents files ++
          if ∃ f ∈ files, s.dependents.contains f = false then suspects s.errors files else []) := by
      rw [List.append_assoc, ← firsts_append_congr (firsts_changes s.dependents files m) rfl,
        ← List.append_assoc, ← keys_errorsOf]
      simp only [← hasNew_iff]
      rfl
    rw [hSchedule]
    exact listsFirsts_firsts _
  errors q := get?_errorsOf s.errors files q
  dependents e := DependentGraph.mem_restrict_iff
  lastFull := rfl

/-- A plan that is not for all files is made from a snapshot, and this is what it makes of it. -/
theorem reuses_of_partial {m : Memo} {previous : Option Snapshot} {f : Fingerprint}
    {files : List Path} {debug : Bool} {now : UInt64}
    (h : (ofSnapshotFrom isFile read m previous f files debug now).2.isFull = false) :
    ∃ s, previous = some s ∧
      Reuses isFile read m s files (ofSnapshotFrom isFile read m previous f files debug now).2 := by
  rcases ofSnapshotFrom_cases isFile read m previous f files debug now with
    ⟨reason, hEq⟩ | ⟨s, _, hPrevious, _, _, hEq⟩
  · rw [hEq] at h
    cases h
  · rw [hEq]
    exact ⟨s, hPrevious, reuses_reuse isFile read m s files⟩

/-! ## Files that come up for different reasons -/

namespace Mixed

def changed : Path := .ofText "a"

def failing : Path := .ofText "b"

def added : Path := .ofText "c"

def dependent : Path := .ofText "d"

def lost : Path := .ofText "e"

def files : FileTree :=
  (((FileTree.empty.set [[0x61]] (.file [1])).set [[0x62]] (.file [2])).set [[0x63]]
    (.file [3])).set [[0x64]] (.file [4])

/-- A snapshot in which a file depends on one whose content was another, and also on one that was
analysed and is gone. -/
def previous : Snapshot where
  lastFull := 0
  fingerprint := (Fingerprint.ofSettings files .empty (.ofCacheFile (.ofText "f"))).2
  errors := PathMap.empty.insert failing [.ofFile "an error" failing 1]
  dependents := (((PathMap.empty.insert changed ⟨.ofSource [5], [dependent]⟩).insert failing
    ⟨.ofSource [2], []⟩).insert dependent ⟨.ofSource [4], []⟩).insert lost
    ⟨.ofSource [6], [changed, dependent]⟩

/-- The files to be analysed, one of them named twice. -/
def analysed : List Path := [added, dependent, changed, failing, added]

def plan : Plan := (ofSnapshot files .empty (some previous) previous.fingerprint analysed false 0).2

/-- The new file comes first, then the changed one with the one that depends on it, then the one with
errors. -/
theorem reuses_mixed : plan.schedule = [added, changed, dependent, failing] ∧
    ∃ s, some previous = some s ∧ Reuses files.isFile files.read .empty s analysed plan := by
  have hPartial : plan.isFull = false := by decide +kernel
  exact ⟨by decide +kernel, reuses_of_partial hPartial⟩

end Mixed

end Plan

end AnalysisCache
