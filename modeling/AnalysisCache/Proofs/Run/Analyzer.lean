import AnalysisCache.Proofs.Run.Turn

/-!
# Analyzers and histories

An analyzer gives each file its errors and its dependencies. What it gives may be kept for later
only if it is *lawful*: most of all, if it is a matter of the file and of its dependencies alone.

A history of a cache file is any sequence of edits, removals and runs, in which the analyzer is
asked for exactly the scheduled files and nothing but a run writes the cache file. What counts as
its content is what it holds once its directory is there, which is `Snapshot.cached`.

* `Analyzer.Lawful`: what is asked of an analyzer.
* `Turn.Faithful`: a run in which the analyzer is asked as it should be.
* `History`: the files that a history leads to.
* `Analyzer.inclusion_lawful`: a lawful analyzer, of a file that includes another one.
-/

namespace AnalysisCache

/-! ## Diagnostics up to the spelling of a file -/

namespace Diagnostic

/-- Whether two diagnostics differ at most in how they spell their file. -/
structure Same (d e : Diagnostic) : Prop where
  severity : d.severity = e.severity
  message : d.message = e.message
  file : Option.Rel (fun p q : Path => p.same q = true) d.file e.file
  line : d.line = e.line
  identifier : d.identifier = e.identifier
  tip : d.tip = e.tip

theorem Same.refl (d : Diagnostic) : Same d d := by
  refine ⟨rfl, rfl, ?_, rfl, rfl, rfl⟩
  cases d.file with
  | none => exact .none
  | some p => exact .some (Path.same_self p)

theorem Same.trans {d e f : Diagnostic} (h : Same d e) (k : Same e f) : Same d f := by
  refine ⟨h.severity.trans k.severity, h.message.trans k.message, ?_, h.line.trans k.line,
    h.identifier.trans k.identifier, h.tip.trans k.tip⟩
  have hFile := h.file
  have kFile := k.file
  revert hFile kFile
  generalize d.file = p
  generalize e.file = q
  generalize f.file = r
  rintro (hSame | _) (kSame | _)
  · exact .some (Path.same_trans hSame kSame)
  · exact .none

/-- Whether two lists of diagnostics are the same, one by one. -/
def Agree (ds es : List Diagnostic) : Prop := List.Forall₂ Same ds es

theorem Agree.refl (ds : List Diagnostic) : Agree ds ds :=
  List.forall₂_same.2 fun d _ => Same.refl d

theorem Agree.trans {ds es fs : List Diagnostic} (h : Agree ds es) (k : Agree es fs) :
    Agree ds fs := by
  induction h generalizing fs with
  | nil => exact k
  | cons hFirst _ ih =>
    cases k with
    | cons kFirst kRest => exact .cons (hFirst.trans kFirst) (ih kRest)

theorem Agree.eq_nil_iff {ds es : List Diagnostic} (h : Agree ds es) : ds = [] ↔ es = [] := by
  cases h <;> simp

end Diagnostic

open Diagnostic (Agree)
open AnalysisCache.Path (same_self same_congr_left)
open FileTree (isFile_of_digest?)

/-! ## Analyzers -/

structure Analyzer where
  /-- Which paths are files of the project. -/
  covers : Fingerprint → Path → Prop
  errors : Fingerprint → FileTree → Path → List Diagnostic
  dependencies : Fingerprint → FileTree → Path → List Path

namespace Analyzer

/-- Whether two analyses of a file come to the same. -/
structure SameOutput (A : Analyzer) (f g : Fingerprint) (t u : FileTree) (p q : Path) : Prop where
  errors : Agree (A.errors f t p) (A.errors g u q)
  dependencies : SamePaths (A.dependencies f t p) (A.dependencies g u q)

/-- Whether there is no file of the project in `u` that is not in `t`. -/
def NothingNew (A : Analyzer) (f : Fingerprint) (t u : FileTree) : Prop :=
  ∀ p, A.covers f p → u.isFile p = true → t.isFile p = true

/-- What is asked of an analyzer. Its output for a file is to be a matter of the content of that
file and of its dependencies. Only where it found errors, which may be about files that it missed,
it may also come to another output if there are new files. -/
structure Lawful (A : Analyzer) : Prop where
  covers_congr : ∀ {f g p q}, f.same g = true → p.same q = true → A.covers f p → A.covers g q
  congr : ∀ {f g t p q}, f.same g = true → p.same q = true → t.isFile p = true →
    t.isFile q = true → A.SameOutput f g t t p q
  attached : ∀ {f t p d}, d ∈ A.errors f t p → d.isErrorOf p = true
  existing : ∀ {f t p q}, q ∈ A.dependencies f t p → A.covers f q ∧ t.isFile q = true
  isLocal : ∀ {f t u p}, t.isFile p = true → t.digest? p = u.digest? p →
    (∀ q ∈ A.dependencies f t p, t.digest? q = u.digest? q) →
    A.errors f t p = [] ∨ A.NothingNew f t u → A.SameOutput f f t u p p

end Analyzer

/-- Whether a report holds what an analyzer says of the scheduled files, in the files at hand. It may
say more that is no error of any file, and it may lack the dependencies. -/
structure Report.Answers (r : Report) (A : Analyzer) (f : Fingerprint) (t : FileTree)
    (schedule : List Path) : Prop where
  errors : ∀ p ∈ schedule, Agree (errorsAt r.diagnostics p) (A.errors f t p)
  confined : ∀ p, ¬ p.Among schedule → errorsAt r.diagnostics p = []
  dependencies : ∀ g, r.dependencies = some g → ∀ e ∈ g.entries,
    e.1 ∈ schedule ∧ e.2 = A.dependencies f t e.1
  entries : ∀ g, r.dependencies = some g → ∀ p ∈ schedule, p.Among g.keys

namespace Analyzer

/-- Something for each of some files, each taken once. -/
def table {α : Type} (value : Path → α) (files : List Path) : PathMap α :=
  PathMap.ofList ((Plan.firsts files).map fun p => (p, value p))

theorem perm_table {α : Type} (value : Path → α) (files : List Path) :
    (table value files).entries.Perm ((Plan.firsts files).map fun p => (p, value p)) := by
  refine PathMap.perm_ofList ?_
  rw [List.pairwise_map]
  exact Plan.pairwise_firsts files

theorem mem_table {α : Type} {value : Path → α} {files : List Path} {e : Path × α} :
    e ∈ (table value files).entries ↔ e.1 ∈ Plan.firsts files ∧ e.2 = value e.1 := by
  rw [(perm_table value files).mem_iff, List.mem_map]
  constructor
  · rintro ⟨p, hp, rfl⟩
    exact ⟨hp, rfl⟩
  · rintro ⟨hp, hValue⟩
    exact ⟨e.1, hp, by rw [← hValue]⟩

theorem exists_get?_table {α : Type} {value : Path → α} {files : List Path} {p : Path}
    (h : p.Among files) :
    ∃ q ∈ Plan.firsts files, q.same p = true ∧ (table value files).get? p = some (value q) := by
  obtain ⟨q, hq, hSame⟩ := Plan.among_firsts_iff.2 h
  exact ⟨q, hq, hSame, PathMap.get?_of_mem (mem_table.2 ⟨hq, rfl⟩) hSame⟩

/-- The report of an analyzer that is asked for some files. -/
def report (A : Analyzer) (f : Fingerprint) (t : FileTree) (schedule : List Path) : Report where
  diagnostics := (table (A.errors f t) schedule).values.flatten
  dependencies := some (table (A.dependencies f t) schedule)
  limitReached := false

theorem answers_report {A : Analyzer} (hA : A.Lawful) (f : Fingerprint) {t : FileTree}
    {schedule : List Path} (h : ∀ p ∈ schedule, t.isFile p = true) :
    (A.report f t schedule).Answers A f t schedule := by
  have hFiled : ErrorsByFile.Filed (table (A.errors f t) schedule) := by
    intro p ds hp d hd
    obtain ⟨k, he, hSame⟩ := PathMap.mem_of_get? hp
    have hValue : ds = A.errors f t k := (mem_table.1 he).2
    rw [hValue] at hd
    rw [← d.isErrorOf_congr hSame]
    exact hA.attached hd
  refine ⟨fun p hp => ?_, fun p hp => ?_, fun g hg e he => ?_, fun g hg p hp => ?_⟩
  · obtain ⟨q, hq, hSame, hGet⟩ := exists_get?_table (Path.among_of_mem hp)
    show Agree (errorsAt (table (A.errors f t) schedule).values.flatten p) _
    rw [errorsAt_flatten hFiled, hGet, Option.getD_some]
    exact (hA.congr (Fingerprint.same_self f) hSame (h q (Plan.mem_of_mem_firsts hq))
      (h p hp)).errors
  · show errorsAt (table (A.errors f t) schedule).values.flatten p = []
    rw [errorsAt_flatten hFiled]
    cases hGet : PathMap.get? (table (A.errors f t) schedule) p with
    | none => rfl
    | some ds =>
      obtain ⟨k, he, hSame⟩ := PathMap.mem_of_get? hGet
      exact absurd ⟨k, Plan.mem_of_mem_firsts (mem_table.1 he).1, hSame⟩ hp
  · cases hg
    obtain ⟨hFirst, hValue⟩ := mem_table.1 he
    exact ⟨Plan.mem_of_mem_firsts hFirst, hValue⟩
  · cases hg
    obtain ⟨q, hq, hSame⟩ := Plan.among_firsts_iff.2 (Path.among_of_mem hp)
    exact ⟨q, PathMap.mem_keys_iff.2 ⟨A.dependencies f t q, mem_table.2 ⟨hq, rfl⟩⟩, hSame⟩

end Analyzer

/-! ## Histories -/

namespace Turn

variable (turn : Turn) (t : FileTree)

/-- Whether a run is over the files of the project, and the analyzer is asked for exactly the
scheduled ones. -/
structure Faithful (A : Analyzer) (c : Path) : Prop where
  cacheFile : turn.settings.cacheFile = c
  covered : ∀ f ∈ turn.files, A.covers (turn.fingerprint t) f ∧ t.isFile f = true
  complete : ∀ p, A.covers (turn.fingerprint t) p → t.isFile p = true → p.Among turn.files
  answers : turn.report.Answers A (turn.fingerprint t) (turn.tree t) (turn.plan t).schedule

/-- The run in which the analyzer is asked for what the run schedules. -/
def asking (A : Analyzer) : Turn :=
  { turn with report := A.report (turn.fingerprint t) (turn.tree t) (turn.plan t).schedule }

variable {turn t}

theorem faithful_asking {A : Analyzer} (hA : A.Lawful) {c : Path}
    (hCache : turn.settings.cacheFile = c)
    (hCovered : ∀ f ∈ turn.files, A.covers (turn.fingerprint t) f ∧ t.isFile f = true)
    (hComplete : ∀ p, A.covers (turn.fingerprint t) p → t.isFile p = true → p.Among turn.files)
    (hTree : ∀ f ∈ turn.files, (turn.tree t).isFile f = true) :
    (turn.asking t A).Faithful t A c where
  cacheFile := hCache
  covered := hCovered
  complete := hComplete
  answers := by
    refine Analyzer.answers_report hA (turn.fingerprint t) fun p hp => ?_
    rcases mem_plan_schedule hp with hp | hp
    · exact hTree p hp
    · exact hp

end Turn

/-- The files that a history of a cache file can lead to. -/
inductive History (A : Analyzer) (c : Path) : FileTree → Prop
  /-- At the beginning there is no snapshot in the cache file. -/
  | start {t : FileTree}
      (h : ∀ content, Snapshot.cached t c = .ok content → Snapshot.ofContent? content = none) :
      History A c t
  /-- Files may change in any way, but the cache file is left alone or removed. -/
  | edit {t u : FileTree} (prior : History A c t)
      (hCache : ∀ content, Snapshot.cached u c = .ok content → Snapshot.cached t c = .ok content) :
      History A c u
  | clear {t : FileTree} (prior : History A c t) (s : Settings) (hCache : s.cacheFile = c) :
      History A c ((Run.start s).clear t).1
  | run {t : FileTree} (prior : History A c t) (turn : Turn) (hTurn : turn.Faithful t A c) :
      History A c (turn.after t)

/-! ## A file that includes another one -/

namespace Analyzer

/-- An analyzer of two files, the first of which is to include the second. -/
def inclusion (a b : Path) : Analyzer where
  covers _ p := p.same a = true ∨ p.same b = true
  errors _ t p :=
    if p.same a = true ∧ t.isFile b = false then [.ofFile "the included file is missing" p 1] else []
  dependencies _ t p := if p.same a = true ∧ t.isFile b = true then [b] else []

theorem inclusion_lawful (a b : Path) : (inclusion a b).Lawful where
  covers_congr := by
    rintro f g p q - hSame (h | h)
    · exact .inl ((same_congr_left hSame a).symm.trans h)
    · exact .inr ((same_congr_left hSame b).symm.trans h)
  congr := by
    intro f g t p q _ hSame _ _
    have hEq := same_congr_left hSame a
    constructor
    · simp only [inclusion, hEq]
      split
      · exact .cons ⟨rfl, rfl, .some hSame, rfl, rfl, rfl⟩ .nil
      · exact .nil
    · simp only [inclusion, hEq]
      exact List.forall₂_same.2 fun x _ => same_self x
  attached := by
    intro f t p d hd
    simp only [inclusion] at hd
    split at hd
    · rw [List.mem_singleton.1 hd]
      exact same_self p
    · cases hd
  existing := by
    intro f t p q hq
    simp only [inclusion] at hq ⊢
    split at hq
    · rename_i h
      rw [List.mem_singleton.1 hq]
      exact ⟨.inr (same_self b), h.2⟩
    · cases hq
  isLocal := by
    intro f t u p _ _ hDependencies hNew
    -- The second file is there in both or in neither.
    have hThere : p.same a = true → t.isFile b = u.isFile b := by
      intro hSame
      cases hb : t.isFile b with
      | true =>
        have hEq := hDependencies b (by simp [inclusion, hSame, hb])
        obtain ⟨d, hd⟩ := FileTree.digest?_isSome_iff.2 hb
        rw [hd] at hEq
        exact (isFile_of_digest? hEq.symm).symm
      | false =>
        rcases hNew with hNil | hNothing
        · simp [inclusion, hSame, hb] at hNil
        · cases hu : u.isFile b with
          | false => rfl
          | true =>
            rw [hNothing b (.inr (same_self b)) hu] at hb
            cases hb
    cases hSame : p.same a with
    | false => constructor <;> simp [inclusion, hSame, Agree, SamePaths]
    | true =>
      have hEq := hThere hSame
      constructor
      · simp only [inclusion, hEq]
        exact .refl _
      · simp only [inclusion, hEq]
        exact List.forall₂_same.2 fun x _ => same_self x

end Analyzer

namespace Inclusion

def first : Path := .ofText "a"

def second : Path := .ofText "b"

def analyzer : Analyzer := .inclusion first second

/-- Both files, and no cache file. -/
def files : FileTree := (FileTree.empty.set [[0x61]] (.file [1])).set [[0x62]] (.file [2])

/-- A run over some of the files that is to be saved. -/
def turn (ps : List Path) : Turn :=
  ⟨.ofCacheFile (.ofText "c"), ps, false, 0, ⟨[], none, false⟩, true⟩

end Inclusion

end AnalysisCache
