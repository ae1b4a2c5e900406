import AnalysisCache.Digest.Memo
import AnalysisCache.Proofs.Files.Spelling
import AnalysisCache.Proofs.Path.Map

/-!
# What a run knows of its files

A memo only ever grows: what it knows stays, and what is new to it is so in the files at hand. It is
*current* if all that it knows is so.

* `Memo.digest_congr`: of two files with the same digest, a memo sees the same.
* `Memo.digestFrom_digestFrom`: what is said of a file stays the same.
* `Memo.exists_digestFrom`: a digest can be had of what can be read.
* `Memo.grows_digest`: taking a digest makes a memo grow.
* `Memo.digest_eq_ok_iff_of_plain`: a current memo answers what the files say.
-/

namespace AnalysisCache

namespace FileTree

/-- The digest of the file that a path names, if it names one. -/
def digest? (t : FileTree) (p : Path) : Option Digest :=
  match t.read p with
  | .ok content => some (Digest.ofSource content)
  | .error _ => none

theorem digest?_eq_some_iff {t : FileTree} {p : Path} {d : Digest} :
    t.digest? p = some d ↔ ∃ content, t.read p = .ok content ∧ Digest.ofSource content = d := by
  rw [digest?]
  cases t.read p <;> simp

theorem digest?_isSome_iff {t : FileTree} {p : Path} :
    (∃ d, t.digest? p = some d) ↔ t.isFile p = true := by
  rw [isFile_iff]
  constructor
  · rintro ⟨d, hd⟩
    obtain ⟨content, hRead, _⟩ := digest?_eq_some_iff.1 hd
    exact ⟨content, hRead⟩
  · rintro ⟨content, hRead⟩
    exact ⟨_, digest?_eq_some_iff.2 ⟨content, hRead, rfl⟩⟩

theorem isFile_of_digest? {t : FileTree} {p : Path} {d : Digest} (h : t.digest? p = some d) :
    t.isFile p = true := digest?_isSome_iff.1 ⟨d, h⟩

theorem digest?_of_same {t : FileTree} {p q : Path} {d : Digest} (hp : Addressable p)
    (h : p.same q = true) (hq : t.digest? q = some d) : t.digest? p = some d := by
  obtain ⟨content, hRead, hd⟩ := digest?_eq_some_iff.1 hq
  exact digest?_eq_some_iff.2 ⟨content, read_eq_of_same hp h hRead, hd⟩

/-- The digest of a file, or why there is none. -/
def digestOf (t : FileTree) (p : Path) : Except FileError Digest := (t.read p).map Digest.ofSource

theorem digestOf_congr {t u : FileTree} {p : Path} (h : t.read p = u.read p) :
    t.digestOf p = u.digestOf p := by rw [digestOf, h, digestOf]

theorem isFile_eq_digestOf (t : FileTree) (p : Path) : t.isFile p = (t.digestOf p).isOk := by
  rw [Bool.eq_iff_iff, isFile_iff, digestOf]
  cases t.read p with
  | error e => simp [Except.map, Except.isOk, Except.toBool]
  | ok content => simp [Except.map, Except.isOk, Except.toBool]

theorem isFile_congr {t u : FileTree} {p : Path} (h : t.digestOf p = u.digestOf p) :
    t.isFile p = u.isFile p := by rw [isFile_eq_digestOf, h, ← isFile_eq_digestOf]

theorem filter_isFile_congr {t u : FileTree} {ps : List Path}
    (h : ∀ p ∈ ps, t.digestOf p = u.digestOf p) : ps.filter t.isFile = ps.filter u.isFile :=
  List.filter_congr fun p hp => isFile_congr (h p hp)

end FileTree

open FileTree (Addressable addressable_of_isFile)

namespace Memo

/-! ## Single answers -/

section digestFrom

variable {read : Path → Except FileError Bytes} {m : Memo}

theorem digestFrom_of_known {p : Path} {d : Digest} (h : m.known.get? p = some d) :
    m.digestFrom read p = (m, .ok d) := by
  simp [digestFrom, h]

variable (read) in
theorem digestFrom_of_unknown {p : Path} (h : m.known.get? p = none) :
    (∃ content, read p = .ok content ∧ m.digestFrom read p =
        (⟨m.known.insert p (.ofSource content)⟩, .ok (.ofSource content))) ∨
      ∃ e, read p = .error e ∧ m.digestFrom read p = (m, .error (.files p e)) := by
  rw [digestFrom, h]
  cases read p with
  | error e => exact .inr ⟨e, rfl, rfl⟩
  | ok content => exact .inl ⟨content, rfl, rfl⟩

theorem known_digestFrom {p q : Path} {d : Digest} (h : m.known.get? q = some d) :
    (m.digestFrom read p).1.known.get? q = some d := by
  cases hp : m.known.get? p with
  | some e => rwa [digestFrom_of_known hp]
  | none =>
    rcases digestFrom_of_unknown read hp with ⟨content, _, hEq⟩ | ⟨e, _, hEq⟩
    · rw [hEq, PathMap.get?_insert, if_neg, h]
      intro hSame
      rw [PathMap.get?_congr m.known hSame, h] at hp
      cases hp
    · rwa [hEq]

/-- What is said of a file stays the same after a digest is taken, unless that was of the same file
in another spelling, and only that spelling can be read. -/
theorem digestFrom_digestFrom {p q : Path}
    (h : p.same q = true → ∀ content, read p = .ok content → read q = .ok content) :
    ((m.digestFrom read p).1.digestFrom read q).2 = (m.digestFrom read q).2 := by
  cases hp : m.known.get? p with
  | some d => rw [digestFrom_of_known hp]
  | none =>
    rcases digestFrom_of_unknown read hp with ⟨content, hRead, hEq⟩ | ⟨e, _, hEq⟩
    · rw [hEq]
      cases hSame : p.same q with
      | true =>
        have hq : m.known.get? q = none := by rw [← PathMap.get?_congr m.known hSame, hp]
        rw [digestFrom_of_known (d := .ofSource content)
          (by rw [PathMap.get?_insert, hSame, if_pos rfl])]
        rw [digestFrom, hq, h hSame content hRead]
      | false =>
        rw [digestFrom, digestFrom, PathMap.get?_insert, hSame, if_neg (by decide)]
        cases m.known.get? q with
        | some d => rfl
        | none => cases read q <;> rfl
    · rw [hEq]

/-- Taking the digest of one file does not bear on the answer for another one. -/
theorem digestFrom_of_not_same {p q : Path} (h : p.same q = false) :
    ((m.digestFrom read p).1.digestFrom read q).2 = (m.digestFrom read q).2 :=
  digestFrom_digestFrom fun hSame => by rw [h] at hSame; cases hSame

theorem known_of_digestFrom {m' : Memo} {p : Path} {d : Digest}
    (h : m.digestFrom read p = (m', .ok d)) : m'.known.get? p = some d := by
  cases hKnown : m.known.get? p with
  | some e =>
    rw [digestFrom_of_known hKnown] at h
    cases h
    exact hKnown
  | none =>
    rcases digestFrom_of_unknown read hKnown with ⟨content, _, hEq⟩ | ⟨e, _, hEq⟩
    · rw [hEq] at h
      cases h
      exact PathMap.get?_insert_self m.known p _
    · rw [hEq] at h
      cases h

/-- A digest of a file can be had in every spelling that it can be read in. -/
theorem digestFrom_of_same {p q : Path} {d : Digest} (hSame : p.same q = true)
    (h : ∀ content, read p = .ok content → read q = .ok content)
    (hp : (m.digestFrom read p).2 = .ok d) : (m.digestFrom read q).2 = .ok d := by
  have hKnown : (m.digestFrom read p).1.known.get? q = some d := by
    rw [← PathMap.get?_congr _ hSame]
    exact known_of_digestFrom (Prod.ext rfl hp)
  rw [← digestFrom_digestFrom fun _ => h, digestFrom_of_known hKnown]

theorem digestFrom_eq_error_iff {p : Path} {x : CacheError} :
    (m.digestFrom read p).2 = .error x ↔
      m.known.get? p = none ∧ ∃ e, read p = .error e ∧ x = .files p e := by
  cases hKnown : m.known.get? p with
  | some d => simp [digestFrom_of_known hKnown]
  | none =>
    rcases digestFrom_of_unknown read hKnown with ⟨content, hRead, hEq⟩ | ⟨e, hRead, hEq⟩
    · simp [hEq, hRead]
    · simp [hEq, hRead, eq_comm]

theorem exists_digestFrom {p : Path} (h : ∃ content, read p = .ok content) :
    ∃ d, (m.digestFrom read p).2 = .ok d := by
  obtain ⟨content, hRead⟩ := h
  cases hAnswer : (m.digestFrom read p).2 with
  | ok d => exact ⟨d, rfl⟩
  | error x =>
    obtain ⟨_, e, hError, _⟩ := digestFrom_eq_error_iff.1 hAnswer
    rw [hRead] at hError
    cases hError

end digestFrom

theorem digest_eq_digestOf (t : FileTree) (m : Memo) (p : Path) :
    m.digest t p = match m.known.get? p with
      | some d => (m, .ok d)
      | none =>
        match t.digestOf p with
        | .error e => (m, .error (.files p e))
        | .ok d => (⟨m.known.insert p d⟩, .ok d) := by
  rw [digest, digestFrom, FileTree.digestOf]
  cases m.known.get? p with
  | some d => rfl
  | none => cases t.read p <;> rfl

theorem digest_congr {t u : FileTree} {p : Path} (h : t.digestOf p = u.digestOf p) (m : Memo) :
    m.digest t p = m.digest u p := by rw [digest_eq_digestOf, h, ← digest_eq_digestOf]

theorem digestFrom_congr {t u : FileTree} {p : Path} (h : t.digestOf p = u.digestOf p) (m : Memo) :
    m.digestFrom t.read p = m.digestFrom u.read p := digest_congr h m

/-! ## Growth -/

/-- Whether a memo knows what another one does, and otherwise only what the files say. -/
structure Grows (t : FileTree) (m m' : Memo) : Prop where
  kept : ∀ {p d}, m.known.get? p = some d → m'.known.get? p = some d
  taken : ∀ {p d}, m'.known.get? p = some d →
    m.known.get? p = some d ∨ ∃ q, q.same p = true ∧ t.digest? q = some d

theorem Grows.refl (t : FileTree) (m : Memo) : Grows t m m := ⟨id, .inl⟩

theorem Grows.trans {t : FileTree} {m₁ m₂ m₃ : Memo} (h : Grows t m₁ m₂) (k : Grows t m₂ m₃) :
    Grows t m₁ m₃ := by
  refine ⟨fun hp => k.kept (h.kept hp), fun hp => ?_⟩
  rcases k.taken hp with hp | hp
  · exact h.taken hp
  · exact .inr hp

theorem digest_of_unknown {t : FileTree} {m : Memo} {p : Path} (h : m.known.get? p = none) :
    (∃ d, t.digest? p = some d ∧ m.digest t p = (⟨m.known.insert p d⟩, .ok d)) ∨
      ∃ e, t.digest? p = none ∧ m.digest t p = (m, .error e) := by
  rw [digest, FileTree.digest?]
  rcases digestFrom_of_unknown t.read h with ⟨content, hRead, hEq⟩ | ⟨e, hRead, hEq⟩
  · rw [hRead, hEq]
    exact .inl ⟨_, rfl, rfl⟩
  · rw [hRead, hEq]
    exact .inr ⟨_, rfl, rfl⟩

theorem grows_digest (t : FileTree) (m : Memo) (p : Path) : Grows t m (m.digest t p).1 := by
  cases hKnown : m.known.get? p with
  | some d =>
    rw [digest_of_known hKnown]
    exact .refl t m
  | none =>
    refine ⟨known_digestFrom, fun {q d'} hq => ?_⟩
    rcases digest_of_unknown (t := t) hKnown with ⟨d, hd, hEq⟩ | ⟨e, _, hEq⟩
    · rw [hEq, PathMap.get?_insert] at hq
      cases hSame : p.same q with
      | false =>
        rw [hSame] at hq
        exact .inl hq
      | true =>
        rw [hSame, if_pos rfl, Option.some.injEq] at hq
        rw [← hq]
        exact .inr ⟨p, hSame, hd⟩
    · rw [hEq] at hq
      exact .inl hq

theorem known_of_digest {t : FileTree} {m m' : Memo} {p : Path} {d : Digest}
    (h : m.digest t p = (m', .ok d)) : m'.known.get? p = some d := known_of_digestFrom h

theorem exists_digest {t : FileTree} {p : Path} (h : t.isFile p = true) (m : Memo) :
    ∃ d, (m.digest t p).2 = .ok d := exists_digestFrom (FileTree.isFile_iff.1 h)

theorem contains_digest {t : FileTree} {m : Memo} {p q : Path} :
    (m.digest t p).1.known.contains q = true ↔
      m.known.contains q = true ∨ p.same q = true ∧ t.isFile p = true := by
  cases hKnown : m.known.get? p with
  | some d =>
    rw [digest_of_known hKnown]
    constructor
    · exact .inl
    · rintro (hq | ⟨hSame, _⟩)
      · exact hq
      · rw [← PathMap.contains_congr m.known hSame]
        exact PathMap.contains_iff_get?.2 ⟨d, hKnown⟩
  | none =>
    rcases digest_of_unknown (t := t) hKnown with ⟨d, hd, hEq⟩ | ⟨e, hNone, hEq⟩
    · rw [hEq, PathMap.contains_insert, FileTree.isFile_of_digest? hd, or_comm]
      simp
    · have hNot : ¬ t.isFile p = true := by
        rw [← FileTree.digest?_isSome_iff, hNone]
        rintro ⟨d, hd⟩
        cases hd
      rw [hEq]
      simp [hNot]

/-! ## Memos that come from each other -/

/-- Whether a memo comes from another one by taking the digests of some files. -/
inductive Reaches (read : Path → Except FileError Bytes) (ps : List Path) (m : Memo) : Memo → Prop
  | refl : Reaches read ps m m
  | digest {m' : Memo} {p : Path} (h : Reaches read ps m m') (hp : p ∈ ps) :
      Reaches read ps m (m'.digestFrom read p).1

namespace Reaches

variable {read : Path → Except FileError Bytes} {ps : List Path} {m m' : Memo}

theorem trans {m'' : Memo} (h : Reaches read ps m m') (k : Reaches read ps m' m'') :
    Reaches read ps m m'' := by
  induction k with
  | refl => exact h
  | digest _ hp ih => exact ih.digest hp

theorem mono {qs : List Path} (h : Reaches read ps m m') (hSub : ∀ p ∈ ps, p ∈ qs) :
    Reaches read qs m m' := by
  induction h with
  | refl => exact .refl
  | digest _ hp ih => exact ih.digest (hSub _ hp)

theorem known (h : Reaches read ps m m') {p : Path} {d : Digest} (hp : m.known.get? p = some d) :
    m'.known.get? p = some d := by
  induction h with
  | refl => exact hp
  | digest _ _ ih => exact known_digestFrom ih

theorem grows {t : FileTree} (h : Reaches t.read ps m m') : Grows t m m' := by
  induction h with
  | refl => exact .refl t m
  | digest _ _ ih => exact ih.trans (grows_digest t _ _)

theorem digestFrom_eq (h : Reaches read ps m m') {q : Path}
    (hSame : ∀ p ∈ ps, p.same q = true → ∀ content, read p = .ok content → read q = .ok content) :
    (m'.digestFrom read q).2 = (m.digestFrom read q).2 := by
  induction h with
  | refl => rfl
  | digest _ hp ih => rw [digestFrom_digestFrom (hSame _ hp), ih]

/-- What fails later on fails at first. -/
theorem error (h : Reaches read ps m m') {p : Path} {x : CacheError}
    (hError : (m'.digestFrom read p).2 = .error x) : (m.digestFrom read p).2 = .error x := by
  rw [digestFrom_eq_error_iff] at hError ⊢
  refine ⟨?_, hError.2⟩
  cases hKnown : m.known.get? p with
  | none => rfl
  | some d =>
    rw [h.known hKnown] at hError
    cases hError.1

end Reaches

/-! ## Memos that are current -/

/-- Whether all that a memo knows is so. -/
def Current (t : FileTree) (m : Memo) : Prop :=
  ∀ p d, m.known.get? p = some d → ∃ q, q.same p = true ∧ t.digest? q = some d

theorem current_empty (t : FileTree) : Current t .empty := fun _ _ h => by cases h

theorem Grows.current {t : FileTree} {m m' : Memo} (h : Grows t m m') (hm : m.Current t) :
    m'.Current t := by
  intro p d hp
  rcases h.taken hp with hp | hp
  · exact hm p d hp
  · exact hp

theorem Current.digest? {t : FileTree} {m : Memo} (hm : m.Current t) {p : Path} {d : Digest}
    (hp : Addressable p) (h : m.known.get? p = some d) : t.digest? p = some d := by
  obtain ⟨q, hq, hd⟩ := hm p d h
  exact FileTree.digest?_of_same hp (Path.same_symm hq) hd

theorem Current.digest?_of_plain {t : FileTree} {m : Memo} (hm : m.Current t) {p : Path}
    {d : Digest} (hp : t.Plain p) (h : m.known.get? p = some d) : t.digest? p = some d := by
  obtain ⟨q, hSame, hd⟩ := hm p d h
  have hFile : t.isFile p = true := hp q hSame (FileTree.isFile_of_digest? hd)
  exact hm.digest? (addressable_of_isFile hFile) h

/-- Whatever it knows already, a current memo answers what the files say. -/
theorem digest_eq_ok_iff_of_plain {t : FileTree} {m : Memo} (hm : m.Current t) {p : Path}
    (hp : t.Plain p) {d : Digest} : (m.digest t p).2 = .ok d ↔ t.digest? p = some d := by
  cases hKnown : m.known.get? p with
  | some d' =>
    rw [digest_of_known hKnown, hm.digest?_of_plain hp hKnown]
    simp
  | none =>
    rcases digest_of_unknown (t := t) hKnown with ⟨d', hd, hEq⟩ | ⟨e, hd, hEq⟩
    · rw [hEq, hd]
      simp
    · rw [hEq, hd]
      simp

theorem digest_eq_ok_iff {t : FileTree} {m : Memo} (hm : m.Current t) {p : Path}
    (hp : Addressable p) {d : Digest} : (m.digest t p).2 = .ok d ↔ t.digest? p = some d :=
  digest_eq_ok_iff_of_plain hm (FileTree.plain_of_addressable hp)

end Memo

end AnalysisCache
