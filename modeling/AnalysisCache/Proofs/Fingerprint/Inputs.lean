import AnalysisCache.Fingerprint.Basic
import AnalysisCache.Proofs.Digest.Memo

/-!
# What a fingerprint knows of files

Some files bear on a fingerprint by their content. While the fingerprint is the same, none of them
that can be read has got another one.

* `Fingerprint.contains_ofSettings`: the digests that are taken.
* `Fingerprint.digest?_of_same`: the content of those files under the same fingerprint.
-/

namespace AnalysisCache

namespace Fingerprint

theorem samePaths_self (ps : List Path) : samePaths ps ps = true := by
  induction ps with
  | nil => rfl
  | cons p rest ih => rw [samePaths, Path.same_self, ih, Bool.and_self]

theorem same_self (f : Fingerprint) : f.same f = true := by
  have hDigests : ∀ m : PathMap Digest, sameDigests m m = true :=
    PathMap.sameBy_self fun d => by simp
  simp [same, hDigests, samePaths_self]

theorem same_symm {f g : Fingerprint} (h : f.same g = true) : g.same f = true := by
  have hDigests : ∀ {m n : PathMap Digest}, sameDigests m n = true → sameDigests n m = true :=
    PathMap.sameBy_symm fun d e hEq => by simpa [eq_comm] using hEq
  have hPaths : ∀ {ps qs : List Path}, samePaths ps qs = true → samePaths qs ps = true := by
    intro ps
    induction ps with
    | nil =>
      intro qs hEq
      cases qs with
      | nil => rfl
      | cons q qs => cases hEq
    | cons p ps ih =>
      intro qs hEq
      cases qs with
      | nil => cases hEq
      | cons q qs =>
        rw [samePaths, Bool.and_eq_true] at hEq ⊢
        exact ⟨Path.same_symm hEq.1, ih hEq.2⟩
  simp only [same, Bool.and_eq_true, decide_eq_true_eq] at h ⊢
  obtain ⟨⟨⟨⟨⟨⟨⟨⟨hCache, hTool⟩, hRuntime⟩, hConfigs⟩, hAnalysed⟩, hLocks⟩, hExtensions⟩, hStubs⟩,
    hLevel⟩ := h
  exact ⟨⟨⟨⟨⟨⟨⟨⟨hCache.symm, hTool.symm⟩, hRuntime.symm⟩, hDigests hConfigs⟩, hPaths hAnalysed⟩,
    hDigests hLocks⟩, hExtensions.symm⟩, hDigests hStubs⟩, hLevel.symm⟩

/-! ## The digests that are taken -/

theorem grows_digests (t : FileTree) (ps : List Path) (m : Memo) (found : PathMap Digest) :
    Memo.Grows t m (digests t.read ps m found).1 := by
  induction ps generalizing m found with
  | nil => exact .refl t m
  | cons p rest ih =>
    have hFirst : Memo.Grows t m (m.digestFrom t.read p).1 := Memo.grows_digest t m p
    rw [digests]
    cases hDigest : m.digestFrom t.read p with
    | mk m' outcome =>
      rw [hDigest] at hFirst
      cases outcome with
      | error e => exact hFirst.trans (ih m' found)
      | ok d => exact hFirst.trans (ih m' _)

theorem contains_digests {t : FileTree} {ps : List Path} {m : Memo} {found : PathMap Digest}
    {p : Path} : (digests t.read ps m found).1.known.contains p = true ↔
      m.known.contains p = true ∨ p.Among (ps.filter t.isFile) := by
  induction ps generalizing m found with
  | nil => simp [digests]
  | cons q rest ih =>
    have hStep : ∀ found',
        (digests t.read rest (m.digestFrom t.read q).1 found').1.known.contains p = true ↔
        m.known.contains p = true ∨ p.Among ((q :: rest).filter t.isFile) := by
      intro found'
      have hFirst : (m.digestFrom t.read q).1.known.contains p = true ↔ _ := Memo.contains_digest
      rw [ih, hFirst, List.filter_cons]
      split
      · rename_i hFile
        rw [Path.among_cons_iff, hFile]
        simp only [and_true, or_assoc]
      · rename_i hFile
        simp only [hFile, and_false, or_false, Bool.false_eq_true]
    rw [digests]
    cases hDigest : m.digestFrom t.read q with
    | mk m' outcome =>
      rw [hDigest] at hStep
      cases outcome with
      | error e => exact hStep found
      | ok d => exact hStep _

/-- The files that the content of which bears on the fingerprint. -/
def inputs (s : Settings) : List Path := s.configFiles ++ s.lockFiles ++ s.stubFiles

theorem grows_ofSettings (t : FileTree) (m : Memo) (s : Settings) :
    Memo.Grows t m (ofSettings t m s).1 := by
  rw [ofSettings, ofSettingsFrom]
  exact ((grows_digests t _ m _).trans (grows_digests t _ _ _)).trans (grows_digests t _ _ _)

theorem contains_ofSettings {t : FileTree} {m : Memo} {s : Settings} {p : Path} :
    (ofSettings t m s).1.known.contains p = true ↔
      m.known.contains p = true ∨ p.Among ((inputs s).filter t.isFile) := by
  rw [ofSettings, ofSettingsFrom, inputs]
  dsimp only
  rw [contains_digests, contains_digests, contains_digests, List.filter_filter, List.filter_append,
    List.filter_append, Path.among_append_iff, Path.among_append_iff]
  simp only [Bool.and_self, or_assoc]

/-! ## The digests that are kept -/

/-- Whether all digests of a fingerprint are so. -/
def Accurate (t : FileTree) (found : PathMap Digest) : Prop :=
  ∀ p d, found.get? p = some d → ∃ q, q.same p = true ∧ t.digest? q = some d

theorem accurate_digests {t : FileTree} {ps : List Path} {m : Memo} {found : PathMap Digest}
    (hm : m.Current t) (h : Accurate t found) : Accurate t (digests t.read ps m found).2 := by
  induction ps generalizing m found with
  | nil => exact h
  | cons p rest ih =>
    have hGrows : Memo.Grows t m (m.digestFrom t.read p).1 := Memo.grows_digest t m p
    rw [digests]
    cases hDigest : m.digestFrom t.read p with
    | mk m' outcome =>
      rw [hDigest] at hGrows
      have hm' : m'.Current t := hGrows.current hm
      cases outcome with
      | error e => exact ih hm' h
      | ok d =>
        refine ih hm' fun q e hq => ?_
        rw [PathMap.get?_insert] at hq
        split at hq
        · rename_i hSame
          cases hq
          obtain ⟨r, hr, hd⟩ := hm' p d (Memo.known_of_digest hDigest)
          exact ⟨r, Path.same_trans hr hSame, hd⟩
        · exact h q e hq

theorem contains_found_of_mem {t : FileTree} {ps : List Path} {m : Memo} {found : PathMap Digest}
    {p : Path} (h : found.contains p = true ∨ p.Among (ps.filter t.isFile)) :
    (digests t.read ps m found).2.contains p = true := by
  induction ps generalizing m found with
  | nil => exact h.resolve_right (Path.not_among_nil p)
  | cons q rest ih =>
    rw [digests]
    cases hDigest : m.digestFrom t.read q with
    | mk m' outcome =>
      rw [List.filter_cons] at h
      cases outcome with
      | ok d =>
        refine ih ?_
        rw [PathMap.contains_insert]
        split at h
        · rw [Path.among_cons_iff] at h
          tauto
        · tauto
      | error e =>
        -- What cannot be read is no file.
        have hNot : ¬ t.isFile q = true := by
          intro hFile
          obtain ⟨d, hOk⟩ : ∃ d, (m.digestFrom t.read q).2 = .ok d := Memo.exists_digest hFile m
          rw [hDigest] at hOk
          cases hOk
        rw [if_neg hNot] at h
        exact ih h

/-- A file with a digest in one of two maps that hold the same digests has it in the other one. -/
theorem digest?_of_sameDigests {t u : FileTree} {ps qs : List Path} {m n : Memo}
    (hm : m.Current t) (hn : n.Current u)
    (h : sameDigests (digests t.read ps m .empty).2 (digests u.read qs n .empty).2 = true) {p : Path}
    (hp : p.Among (ps.filter t.isFile)) {d : Digest} (hd : t.digest? p = some d) :
    ∃ q, q.same p = true ∧ u.digest? q = some d := by
  have hNone : ∀ t, Accurate t .empty := fun _ _ _ hGet => by cases hGet
  obtain ⟨e, hGet⟩ := PathMap.contains_iff_get?.1 (contains_found_of_mem (m := m) (.inr hp))
  obtain ⟨r, hr, he⟩ := accurate_digests hm (hNone t) p e hGet
  have hAddressable := FileTree.addressable_of_isFile (FileTree.isFile_of_digest? hd)
  have hEq : e = d := by
    rw [FileTree.digest?_of_same hAddressable (Path.same_symm hr) he] at hd
    exact Option.some.inj hd
  obtain ⟨e', hGet', hAgree⟩ := PathMap.exists_get?_of_sameBy h hGet
  rw [decide_eq_true_eq, hEq] at hAgree
  rw [hAgree]
  exact accurate_digests hn (hNone u) p e' hGet'

/-- Under the same fingerprint the files that bear on it have the same content. -/
theorem digest?_of_same {t u : FileTree} {s s' : Settings}
    (h : (ofSettings t .empty s).2.same (ofSettings u .empty s').2 = true) {p : Path}
    (hp : p.Among ((inputs s).filter t.isFile)) {d : Digest} (hd : t.digest? p = some d) :
    ∃ q, q.same p = true ∧ u.digest? q = some d := by
  have hConfigs : ∀ t (s : Settings), (digests t.read s.configFiles .empty .empty).1.Current t :=
    fun t s => (grows_digests t _ _ _).current (Memo.current_empty t)
  have hLocks : ∀ t (s : Settings), (digests t.read (s.lockFiles.filter t.isFile)
      (digests t.read s.configFiles .empty .empty).1 .empty).1.Current t :=
    fun t s => (grows_digests t _ _ _).current (hConfigs t s)
  simp only [same, Bool.and_eq_true, decide_eq_true_eq] at h
  obtain ⟨⟨⟨⟨⟨⟨_, hConfig⟩, _⟩, hLock⟩, _⟩, hStub⟩, _⟩ := h
  rw [inputs, List.filter_append, List.filter_append, Path.among_append_iff,
    Path.among_append_iff] at hp
  rcases hp with (hp | hp) | hp
  · exact digest?_of_sameDigests (Memo.current_empty t) (Memo.current_empty u) hConfig hp hd
  · refine digest?_of_sameDigests (hConfigs t s) (hConfigs u s') hLock ?_ hd
    simpa only [List.filter_filter, Bool.and_self] using hp
  · exact digest?_of_sameDigests (hLocks t s) (hLocks u s') hStub hp hd

end Fingerprint

end AnalysisCache
