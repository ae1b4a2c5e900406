import AnalysisCache.Proofs.Digest.Memo
import Mathlib.Data.Finset.Card

/-!
# What a memo has answered

A memo that was empty at first is told by the calls that it has answered: it knows of each path
what the first call on it that succeeded has read, in whatever spelling that call was made. Between
two calls the files may change in any way, so each call has its own files.

* `Memo.Answers`: calls one after another.
* `Memo.Remembers.snoc`, `Memo.Answers.remembers`: what a memo knows, after one call and after all.
* `Memo.Remembers.digest_of_first`, `Memo.Remembers.digest_of_none`: what it answers then.
* `Memo.Remembers.size_eq`: how much it knows.
-/

namespace AnalysisCache

theorem PathMap.size_eq_card {α : Type} (m : PathMap α) :
    m.size = (m.keys.map Path.components).toFinset.card := by
  have hNodup : (m.keys.map Path.components).Nodup := by
    rw [PathMap.keys, List.map_map, List.Nodup, List.pairwise_map]
    refine m.sorted.imp fun hLt hEq => ?_
    rw [Path.compare_eq_iff_same.2 (Path.same_iff.2 hEq)] at hLt
    cases hLt
  rw [List.toFinset_card_of_nodup hNodup, List.length_map, PathMap.keys, List.length_map]
  rfl

/-- A call for the digest of a file. -/
structure Call where
  /-- The files at the time of the call. -/
  files : FileTree
  path : Path
  answer : Except CacheError Digest

namespace Call

/-- Whether a call has given a digest of a file, in whatever spelling. -/
def gives (c : Call) (p : Path) : Bool := c.answer.isOk && c.path.same p

theorem find?_snoc {calls : List Call} {p : Path} (h : calls.find? (·.gives p) = none) (c : Call) :
    (calls ++ [c]).find? (·.gives p) = if c.gives p then some c else none := by
  rw [List.find?_append, h, Option.none_or, List.find?_singleton]

end Call

namespace Memo

/-- Whether a memo answers calls one after another, and what becomes of it. -/
inductive Answers : Memo → List Call → Memo → Prop
  | nil (m : Memo) : Answers m [] m
  | cons {m m' m'' : Memo} {c : Call} {calls : List Call}
      (h : m.digest c.files c.path = (m', c.answer)) (rest : Answers m' calls m'') :
      Answers m (c :: calls) m''

/-- Whether a memo knows just what the first successful call on each path has read. -/
structure Remembers (m : Memo) (calls : List Call) : Prop where
  known : ∀ p c, calls.find? (·.gives p) = some c →
    ∃ d, c.files.digest? c.path = some d ∧ m.known.get? p = some d
  unknown : ∀ p, calls.find? (·.gives p) = none → m.known.get? p = none

theorem remembers_empty : empty.Remembers [] := ⟨fun _ _ h => (nomatch h), fun _ _ => rfl⟩

namespace Remembers

variable {m m' : Memo} {calls : List Call}

/-- A call that gives nothing new is not remembered. -/
theorem snoc_of_imp (h : m.Remembers calls) {c : Call}
    (hOld : ∀ p, c.gives p = true → m.known.get? p ≠ none) : m.Remembers (calls ++ [c]) := by
  have hSame : ∀ p, (calls ++ [c]).find? (·.gives p) = calls.find? (·.gives p) := by
    intro p
    cases hFind : calls.find? (·.gives p) with
    | some b => rw [List.find?_append, hFind, Option.some_or]
    | none =>
      have hNot : ¬ c.gives p = true := fun hGives => hOld p hGives (h.unknown p hFind)
      rw [Call.find?_snoc hFind, if_neg hNot]
  exact ⟨fun p b hFirst => h.known p b (by rwa [← hSame]),
    fun p hNone => h.unknown p (by rwa [← hSame])⟩

/-- A call that reads a file which is not known yet is remembered. -/
theorem snoc_of_read (h : m.Remembers calls) {c : Call} {d : Digest}
    (hNew : m.known.get? c.path = none) (hRead : c.files.digest? c.path = some d)
    (hOk : c.answer.isOk = true) : Remembers ⟨m.known.insert c.path d⟩ (calls ++ [c]) := by
  have hGives : ∀ p, c.gives p = c.path.same p := fun p => by rw [Call.gives, hOk, Bool.true_and]
  constructor
  · intro p b hFirst
    rw [PathMap.get?_insert]
    cases hFind : calls.find? (·.gives p) with
    | some b' =>
      rw [List.find?_append, hFind] at hFirst
      cases hFirst
      obtain ⟨d', hd', hKnown⟩ := h.known p b hFind
      -- The first call on a path that is known was before this one, which is on a new path.
      have hNot : ¬ c.path.same p = true := by
        intro hSame
        rw [← PathMap.get?_congr m.known hSame, hNew] at hKnown
        cases hKnown
      exact ⟨d', hd', by rw [if_neg hNot, hKnown]⟩
    | none =>
      rw [Call.find?_snoc hFind, hGives] at hFirst
      split at hFirst
      · rename_i hSame
        cases hFirst
        exact ⟨d, hRead, if_pos hSame⟩
      · cases hFirst
  · intro p hNone
    rw [List.find?_append, Option.or_eq_none_iff, List.find?_singleton, hGives] at hNone
    obtain ⟨hBefore, hLast⟩ := hNone
    rw [PathMap.get?_insert]
    split at hLast
    · cases hLast
    · rename_i hNot
      rw [if_neg hNot, h.unknown p hBefore]

theorem snoc (h : m.Remembers calls) {c : Call}
    (hCall : m.digest c.files c.path = (m', c.answer)) : m'.Remembers (calls ++ [c]) := by
  cases hKnown : m.known.get? c.path with
  | some d =>
    rw [digest_of_known hKnown] at hCall
    obtain ⟨rfl, _⟩ := Prod.mk.inj hCall
    refine h.snoc_of_imp fun p hGives => ?_
    obtain ⟨_, hSame⟩ := Bool.and_eq_true_iff.1 hGives
    rw [← PathMap.get?_congr m.known hSame, hKnown]
    exact Option.some_ne_none d
  | none =>
    rcases digest_of_unknown (t := c.files) hKnown with ⟨d, hRead, hEq⟩ | ⟨e, _, hEq⟩
    · rw [hEq] at hCall
      obtain ⟨rfl, hAnswer⟩ := Prod.mk.inj hCall
      exact h.snoc_of_read hKnown hRead (by rw [← hAnswer]; rfl)
    · rw [hEq] at hCall
      obtain ⟨rfl, hAnswer⟩ := Prod.mk.inj hCall
      refine h.snoc_of_imp fun p hGives => ?_
      rw [Call.gives, ← hAnswer] at hGives
      cases hGives

/-- What was read at first is the answer, whatever the files are now. -/
theorem digest_of_first (h : m.Remembers calls) {p : Path} {c : Call}
    (hFirst : calls.find? (·.gives p) = some c) :
    ∃ content, c.files.read c.path = .ok content ∧
      ∀ t, m.digest t p = (m, .ok (.ofSource content)) := by
  obtain ⟨d, hd, hKnown⟩ := h.known p c hFirst
  obtain ⟨content, hRead, rfl⟩ := FileTree.digest?_eq_some_iff.1 hd
  exact ⟨content, hRead, fun t => digest_of_known hKnown⟩

/-- A file that no call has given a digest of is read. -/
theorem digest_of_none (h : m.Remembers calls) {p : Path}
    (hNone : calls.find? (·.gives p) = none) (t : FileTree) :
    (m.digest t p).2 = (t.digestOf p).mapError (.files p) := by
  rw [digest_eq_digestOf, h.unknown p hNone]
  cases t.digestOf p <;> rfl

theorem contains_iff (h : m.Remembers calls) {p : Path} :
    m.known.contains p = true ↔ ∃ c ∈ calls, c.gives p = true := by
  rw [PathMap.contains_iff_get?, ← List.find?_isSome]
  cases hFind : calls.find? (·.gives p) with
  | none =>
    rw [h.unknown p hFind]
    simp
  | some c =>
    obtain ⟨d, _, hKnown⟩ := h.known p c hFind
    rw [hKnown]
    simp

/-- As many digests are known as there are paths that a call has given a digest of. -/
theorem size_eq (h : m.Remembers calls) :
    m.size = ((calls.filter (·.answer.isOk)).map (·.path.components)).toFinset.card := by
  rw [size, PathMap.size_eq_card]
  congr 1
  ext x
  simp only [List.mem_toFinset, List.mem_map, List.mem_filter]
  constructor
  · rintro ⟨k, hk, rfl⟩
    obtain ⟨c, hc, hGives⟩ := h.contains_iff.1 (PathMap.contains_iff.2 (Path.among_of_mem hk))
    obtain ⟨hOk, hSame⟩ := Bool.and_eq_true_iff.1 hGives
    exact ⟨c, ⟨hc, hOk⟩, Path.same_iff.1 hSame⟩
  · rintro ⟨c, ⟨hc, hOk⟩, rfl⟩
    have hGives : c.gives c.path = true := by rw [Call.gives, hOk, Path.same_self]; rfl
    obtain ⟨k, hk, hSame⟩ := PathMap.contains_iff.1 (h.contains_iff.2 ⟨c, hc, hGives⟩)
    exact ⟨k, hk, Path.same_iff.1 hSame⟩

end Remembers

namespace Answers

variable {m m' m'' : Memo} {calls more before : List Call}

theorem append (h : m.Answers calls m') (k : m'.Answers more m'') :
    m.Answers (calls ++ more) m'' := by
  induction h with
  | nil => exact k
  | cons hCall _ ih => exact .cons hCall (ih k)

theorem remembers (h : m.Answers calls m') (hBefore : m.Remembers before) :
    m'.Remembers (before ++ calls) := by
  induction h generalizing before with
  | nil => rwa [List.append_nil]
  | cons hCall _ ih =>
    rw [List.append_cons]
    exact ih (hBefore.snoc hCall)

theorem remembers_of_empty (h : empty.Answers calls m) : m.Remembers calls :=
  h.remembers remembers_empty

end Answers

end Memo

end AnalysisCache
