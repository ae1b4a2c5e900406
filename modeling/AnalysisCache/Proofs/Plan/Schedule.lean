import AnalysisCache.Plan.Basic
import AnalysisCache.Proofs.Dependencies.Invert

/-!
# What is scheduled

A snapshot that is used again schedules the files that are new, the keys whose digest is another
one, what depended on such a key or on one that is no longer analysed, and, if there is a new file,
all files with errors. Files are told apart up to spelling. A key that
cannot be read counts as changed, whether there is a file or not.

* `Plan.among_schedule_iff`: exactly when a file is scheduled.
* `Plan.IsAffected`: whether that is because of what has become of a key.
* `Plan.contains_changes`: which digests are taken on the way.
* `Plan.ofSnapshotFrom_cases`: when a snapshot is used again.
-/

namespace AnalysisCache

open AnalysisCache.Path (same_symm same_trans same_self same_comm same_congr_left same_congr_right)
open DependentGraph (filesAt filesAt_of_get?)

namespace Plan

/-! ## The parts of a schedule -/

theorem mem_of_mem_firsts {ps : List Path} {p : Path} (h : p ∈ firsts ps) : p ∈ ps := by
  induction ps with
  | nil => exact h
  | cons q rest ih =>
    rcases List.mem_cons.1 h with rfl | h
    · exact List.mem_cons_self
    · exact List.mem_cons_of_mem q (ih (List.mem_filter.1 h).1)

theorem pairwise_firsts (ps : List Path) :
    (firsts ps).Pairwise fun p q => p.same q = false := by
  induction ps with
  | nil => exact .nil
  | cons q rest ih =>
    refine List.pairwise_cons.2 ⟨fun r hr => ?_, ih.filter _⟩
    have hNot := (List.mem_filter.1 hr).2
    rw [Bool.not_eq_true'] at hNot
    rw [same_comm]
    exact hNot

theorem among_firsts_iff {ps : List Path} {p : Path} : p.Among (firsts ps) ↔ p.Among ps := by
  induction ps with
  | nil => exact Iff.rfl
  | cons q rest ih =>
    rw [firsts, Path.among_cons_iff, Path.among_cons_iff, ← ih]
    constructor
    · rintro (h | ⟨r, hr, hSame⟩)
      · exact .inl h
      · exact .inr ⟨r, (List.mem_filter.1 hr).1, hSame⟩
    · rintro (h | ⟨r, hr, hSame⟩)
      · exact .inl h
      · cases hq : r.same q with
        | true => exact .inl (same_trans (same_symm hq) hSame)
        | false => exact .inr ⟨r, List.mem_filter.2 ⟨hr, by rw [hq]; rfl⟩, hSame⟩

/-- Keeps the errors of a file, if there are any. -/
def keepErrors (errors kept : ErrorsByFile) (f : Path) : ErrorsByFile :=
  match errors.get? f with
  | some ds => kept.insert f ds
  | none => kept

theorem get?_keepErrors (errors kept : ErrorsByFile) (f p : Path) :
    (keepErrors errors kept f).get? p =
      if f.same p then (errors.get? p).or (kept.get? p) else kept.get? p := by
  rw [keepErrors]
  cases hSame : f.same p with
  | true =>
    rw [if_pos rfl, ← PathMap.get?_congr errors hSame]
    cases errors.get? f with
    | none => rfl
    | some ds => simp only [PathMap.get?_insert, hSame, if_true, Option.some_or]
  | false =>
    rw [if_neg (by decide)]
    cases errors.get? f with
    | none => rfl
    | some ds => simp only [PathMap.get?_insert, hSame, if_neg (by decide : ¬ false = true)]

theorem get?_foldl_keepErrors (errors : ErrorsByFile) (files : List Path) (kept : ErrorsByFile)
    (p : Path) : (files.foldl (keepErrors errors) kept).get? p =
      if p.Among files then (errors.get? p).or (kept.get? p) else kept.get? p := by
  induction files generalizing kept with
  | nil => rw [if_neg (Path.not_among_nil p)]; rfl
  | cons f rest ih =>
    rw [List.foldl_cons, ih, get?_keepErrors]
    cases hSame : f.same p with
    | true =>
      rw [if_pos rfl, if_pos (Path.among_cons_iff.2 (.inl hSame)), ← Option.or_assoc,
        Option.or_self]
      split <;> rfl
    | false =>
      have hCons : p.Among (f :: rest) ↔ p.Among rest := by
        rw [Path.among_cons_iff, hSame]
        exact or_iff_right (by decide)
      simp only [if_neg (by decide : ¬ false = true), hCons]

theorem get?_errorsOf (errors : ErrorsByFile) (files : List Path) (p : Path) :
    (errorsOf errors files).get? p = if p.Among files then errors.get? p else none := by
  show (files.foldl (keepErrors errors) .empty).get? p = _
  rw [get?_foldl_keepErrors, PathMap.get?_empty, Option.or_none]

theorem mem_keys_errorsOf {errors : ErrorsByFile} {files : List Path} {k : Path}
    (h : k ∈ (errorsOf errors files).keys) : k ∈ files := by
  have aux : ∀ (rows : List Path) (kept : ErrorsByFile),
      k ∈ (rows.foldl (keepErrors errors) kept).keys → k ∈ rows ∨ k ∈ kept.keys := by
    intro rows
    induction rows with
    | nil => exact fun _ hk => .inr hk
    | cons f rest ih =>
      intro kept hk
      rcases ih _ hk with hk | hk
      · exact .inl (List.mem_cons_of_mem f hk)
      · rw [keepErrors] at hk
        cases hf : errors.get? f with
        | none =>
          rw [hf] at hk
          exact .inr hk
        | some ds =>
          rw [hf] at hk
          rcases PathMap.mem_keys_insert hk with rfl | hk
          · exact .inl List.mem_cons_self
          · exact .inr hk
  rcases aux files .empty h with h | h
  · exact h
  · cases h

theorem get?_restrict (g : DependentGraph) (files : List Path) (p : Path) :
    (g.restrict files).get? p = if p.Among files then g.get? p else none :=
  PathMap.get?_filterKeys_among g files p

theorem hasNew_iff {g : DependentGraph} {files : List Path} :
    hasNew g files = true ↔ ∃ f ∈ files, g.contains f = false := by
  simp only [hasNew, List.any_eq_true, Bool.not_eq_true']

variable {isFile : Path → Bool} {read : Path → Except FileError Bytes}

/-- Whether a key of a graph is no longer one of some files. -/
def IsLost (g : DependentGraph) (files : List Path) (f : Path) : Prop :=
  g.contains f = true ∧ ¬ f.Among files

theorem mem_orphans_iff {g : DependentGraph} {files : List Path} {p : Path} :
    p ∈ orphans isFile g files ↔
      ∃ e ∈ g.entries, ¬ e.1.Among files ∧ p ∈ e.2.files.filter isFile := by
  rw [orphans, List.mem_flatMap]
  constructor
  · rintro ⟨e, he, hp⟩
    by_cases hAmong : e.1.Among files
    · rw [if_pos (Path.any_same_iff.2 hAmong)] at hp
      cases hp
    · rw [if_neg fun hAny => hAmong (Path.any_same_iff.1 hAny)] at hp
      exact ⟨e, he, hAmong, hp⟩
  · rintro ⟨e, he, hAmong, hp⟩
    exact ⟨e, he, by rwa [if_neg fun hAny => hAmong (Path.any_same_iff.1 hAny)]⟩

theorem among_orphans_iff {g : DependentGraph} {files : List Path} {p : Path} :
    p.Among (orphans isFile g files) ↔
      ∃ f, IsLost g files f ∧ p.Among ((g.filesAt f).filter isFile) := by
  constructor
  · rintro ⟨q, hq, hSame⟩
    obtain ⟨⟨k, d⟩, he, hAmong, hq⟩ := mem_orphans_iff.1 hq
    have hGet : g.get? k = some d := PathMap.get?_of_mem he (same_self k)
    refine ⟨k, ⟨PathMap.contains_iff_get?.2 ⟨d, hGet⟩, hAmong⟩, q, ?_, hSame⟩
    rw [filesAt_of_get? hGet]
    exact hq
  · rintro ⟨f, ⟨hContains, hAmong⟩, q, hq, hSame⟩
    obtain ⟨d, hGet⟩ := PathMap.contains_iff_get?.1 hContains
    obtain ⟨k, he, hk⟩ := PathMap.mem_of_get? hGet
    rw [filesAt_of_get? hGet] at hq
    exact ⟨q, mem_orphans_iff.2 ⟨(k, d), he, fun h => hAmong ((Path.among_congr hk).1 h), hq⟩,
      hSame⟩

/-! ## Changed files -/

/-- Whether the digest that is taken of a key of a graph is not the recorded one. If some files name
the key in several spellings, the first one tells. -/
def IsChanged (read : Path → Except FileError Bytes) (m : Memo) (g : DependentGraph)
    (files : List Path) (f : Path) : Prop :=
  ∃ d q, g.get? f = some d ∧ (files.find? fun q => q.same f) = some q ∧
    (m.digestFrom read q).2 ≠ .ok d.digest

theorem same_of_find? {files : List Path} {f q : Path}
    (h : (files.find? fun q => q.same f) = some q) : q.same f = true :=
  List.find?_some (p := fun r : Path => r.same f) h

theorem memo_hasChanged (m : Memo) (f : Path) (d : Digest) :
    (hasChanged read m f d).1 = (m.digestFrom read f).1 := by
  rw [hasChanged]
  cases hDigest : m.digestFrom read f with
  | mk m' outcome => cases outcome <;> rfl

theorem hasChanged_iff {m : Memo} {f : Path} {d : Digest} :
    (hasChanged read m f d).2 = true ↔ (m.digestFrom read f).2 ≠ .ok d := by
  rw [hasChanged]
  cases hDigest : m.digestFrom read f with
  | mk m' outcome => cases outcome <;> simp

theorem not_isChanged_nil {m : Memo} {g : DependentGraph} {f : Path} :
    ¬ IsChanged read m g [] f := by
  rintro ⟨d, q, _, hFind, _⟩
  cases hFind

theorem isChanged_cons_of_new {m : Memo} {g : DependentGraph} {first f : Path}
    {rest : List Path} (h : g.get? first = none) :
    IsChanged read m g (first :: rest) f ↔ IsChanged read m g rest f := by
  cases hSame : first.same f with
  | false => simp only [IsChanged, List.find?_cons, hSame]
  | true =>
    rw [PathMap.get?_congr g hSame] at h
    simp [IsChanged, h]

theorem isChanged_cons {m : Memo} {g : DependentGraph} {first f : Path}
    {rest : List Path} {d : Dependents} (h : g.get? first = some d) :
    IsChanged read m g (first :: rest) f ↔
      first.same f = true ∧ (m.digestFrom read first).2 ≠ .ok d.digest ∨
        IsChanged read (m.digestFrom read first).1 g rest f := by
  cases hSame : first.same f with
  | false =>
    have hFind : ((first :: rest).find? fun q => q.same f) = rest.find? fun q => q.same f := by
      rw [List.find?_cons, hSame]
    rw [IsChanged, hFind, IsChanged]
    constructor
    · rintro ⟨d, q, hGet, hq, hNe⟩
      refine .inr ⟨d, q, hGet, hq, ?_⟩
      have hNot : first.same q = false := by
        rw [same_congr_right (same_of_find? hq)]
        exact hSame
      rw [Memo.digestFrom_of_not_same hNot]
      exact hNe
    · rintro (⟨hTrue, _⟩ | ⟨d, q, hGet, hq, hNe⟩)
      · cases hTrue
      · refine ⟨d, q, hGet, hq, ?_⟩
        have hNot : first.same q = false := by
          rw [same_congr_right (same_of_find? hq)]
          exact hSame
        rw [Memo.digestFrom_of_not_same hNot] at hNe
        exact hNe
  | true =>
    rw [PathMap.get?_congr g hSame] at h
    constructor
    · rintro ⟨d', q, hGet, hq, hNe⟩
      rw [List.find?_cons, hSame] at hq
      cases hq
      rw [h] at hGet
      cases hGet
      exact .inl ⟨rfl, hNe⟩
    · rintro (⟨_, hNe⟩ | ⟨d', q, hGet, hq, hNe⟩)
      · exact ⟨d, first, h, by rw [List.find?_cons, hSame], hNe⟩
      · refine ⟨d, first, h, by rw [List.find?_cons, hSame], fun hOk => hNe ?_⟩
        -- Once the digest is known, it is the answer for every spelling.
        rw [h] at hGet
        cases hGet
        have hKnown := Memo.known_of_digestFrom
          (Prod.ext rfl hOk : m.digestFrom read first = (_, .ok d.digest))
        have hqf : q.same f = true := same_of_find? hq
        rw [PathMap.get?_congr _ (same_trans hSame (same_symm hqf))] at hKnown
        rw [Memo.digestFrom_of_known hKnown]

theorem changes_cons_of_new {g : DependentGraph} {first : Path} {rest : List Path}
    (h : g.get? first = none) (m : Memo) :
    changes isFile read g (first :: rest) m =
      ((changes isFile read g rest m).1, first :: (changes isFile read g rest m).2) := by
  rw [changes, h]

theorem changes_cons {g : DependentGraph} {first : Path} {rest : List Path}
    {d : Dependents} (h : g.get? first = some d) (m : Memo) :
    changes isFile read g (first :: rest) m =
      ((changes isFile read g rest (m.digestFrom read first).1).1,
        if (hasChanged read m first d.digest).2 then
          first ::
            (d.files.filter isFile ++ (changes isFile read g rest (m.digestFrom read first).1).2)
        else (changes isFile read g rest (m.digestFrom read first).1).2) := by
  rw [changes, h, ← memo_hasChanged m first d.digest]

theorem among_changes_iff {g : DependentGraph} {files : List Path} {m : Memo}
    {p : Path} : p.Among (changes isFile read g files m).2 ↔
      p.Among files ∧ g.contains p = false ∨ IsChanged read m g files p ∨
        ∃ f, IsChanged read m g files f ∧ p.Among ((g.filesAt f).filter isFile) := by
  induction files generalizing m with
  | nil =>
    constructor
    · intro h
      exact absurd h (Path.not_among_nil p)
    · rintro (⟨h, _⟩ | h | ⟨f, h, _⟩)
      · exact absurd h (Path.not_among_nil p)
      · exact absurd h not_isChanged_nil
      · exact absurd h not_isChanged_nil
  | cons first rest ih =>
    cases hGet : g.get? first with
    | none =>
      rw [changes_cons_of_new hGet, Path.among_cons_iff, ih]
      simp only [isChanged_cons_of_new hGet, Path.among_cons_iff]
      constructor
      · rintro (hSame | ⟨h, hNew⟩ | h)
        · refine .inl ⟨.inl hSame, ?_⟩
          rw [← PathMap.contains_congr g hSame]
          exact PathMap.get?_eq_none_iff.1 hGet
        · exact .inl ⟨.inr h, hNew⟩
        · exact .inr h
      · rintro (⟨hSame | h, hNew⟩ | h)
        · exact .inl hSame
        · exact .inr (.inl ⟨h, hNew⟩)
        · exact .inr (.inr h)
    | some d =>
      have hOld : ∀ q, first.same q = true → g.contains q = true := by
        intro q hSame
        rw [← PathMap.contains_congr g hSame]
        exact PathMap.contains_iff_get?.2 ⟨d, hGet⟩
      have hFiles : ∀ q, first.same q = true → g.filesAt q = d.files := by
        intro q hSame
        rw [PathMap.get?_congr g hSame] at hGet
        exact filesAt_of_get? hGet
      have hAmong : p.Among (first :: rest) ∧ g.contains p = false ↔
          p.Among rest ∧ g.contains p = false := by
        rw [Path.among_cons_iff]
        constructor
        · rintro ⟨hSame | h, hNew⟩
          · rw [hOld p hSame] at hNew
            cases hNew
          · exact ⟨h, hNew⟩
        · rintro ⟨h, hNew⟩
          exact ⟨.inr h, hNew⟩
      rw [changes_cons hGet, hAmong]
      simp only [isChanged_cons hGet]
      by_cases hNe : (m.digestFrom read first).2 ≠ .ok d.digest
      · rw [if_pos (hasChanged_iff.2 hNe), Path.among_cons_iff, Path.among_append_iff, ih]
        constructor
        · rintro (hSame | h | h | h | ⟨f, h, hp⟩)
          · exact .inr (.inl (.inl ⟨hSame, hNe⟩))
          · refine .inr (.inr ⟨first, .inl ⟨same_self first, hNe⟩, ?_⟩)
            rw [hFiles first (same_self first)]
            exact h
          · exact .inl h
          · exact .inr (.inl (.inr h))
          · exact .inr (.inr ⟨f, .inr h, hp⟩)
        · rintro (h | (⟨hSame, _⟩ | h) | ⟨f, ⟨hSame, _⟩ | h, hp⟩)
          · exact .inr (.inr (.inl h))
          · exact .inl hSame
          · exact .inr (.inr (.inr (.inl h)))
          · rw [hFiles f hSame] at hp
            exact .inr (.inl hp)
          · exact .inr (.inr (.inr (.inr ⟨f, h, hp⟩)))
      · rw [if_neg fun h => hNe (hasChanged_iff.1 h), ih]
        simp only [hNe, and_false, false_or]

/-- What comes up is one of the given files, or a file that depended on one and is there. -/
theorem mem_changes {g : DependentGraph} {files : List Path} {m : Memo} {p : Path}
    (h : p ∈ (changes isFile read g files m).2) :
    p ∈ files ∨ p ∈ g.edges.map (·.1) ∧ isFile p = true := by
  induction files generalizing m with
  | nil => cases h
  | cons first rest ih =>
    have hRest : ∀ m', p ∈ (changes isFile read g rest m').2 →
        p ∈ first :: rest ∨ p ∈ g.edges.map (·.1) ∧ isFile p = true := by
      intro m' hp
      rcases ih hp with hp | hp
      · exact .inl (List.mem_cons_of_mem first hp)
      · exact .inr hp
    cases hGet : g.get? first with
    | none =>
      rw [changes_cons_of_new hGet] at h
      rcases List.mem_cons.1 h with rfl | h
      · exact .inl List.mem_cons_self
      · exact hRest m h
    | some d =>
      rw [changes_cons hGet] at h
      dsimp only at h
      split at h
      · rcases List.mem_cons.1 h with rfl | h
        · exact .inl List.mem_cons_self
        · rcases List.mem_append.1 h with h | h
          · obtain ⟨hp, hFile⟩ := List.mem_filter.1 h
            obtain ⟨k, he, _⟩ := PathMap.mem_of_get? hGet
            have hEdge : (p, k) ∈ g.edges := DependentGraph.mem_edges.2 ⟨d, he, hp⟩
            exact .inr ⟨List.mem_map_of_mem hEdge, hFile⟩
          · exact hRest _ h
      · exact hRest _ h

/-- In files that can be read, a current memo finds a key changed if its digest is another one. -/
theorem isChanged_iff {t : FileTree} {m : Memo} (hm : m.Current t) {g : DependentGraph}
    {files : List Path} (hFiles : ∀ f ∈ files, t.isFile f = true) {f : Path} (hf : f ∈ files)
    {d : Dependents} (hGet : g.get? f = some d) :
    IsChanged t.read m g files f ↔ t.digest? f ≠ some d.digest := by
  have hAddressable := FileTree.addressable_of_isFile (hFiles f hf)
  have hSpelled : ∀ q, (files.find? fun q => q.same f) = some q → t.digest? q = t.digest? f := by
    intro q hq
    have hSame : q.same f = true := same_of_find? hq
    have hq' := FileTree.addressable_of_isFile (hFiles q (List.mem_of_find?_eq_some hq))
    obtain ⟨e, he⟩ := FileTree.digest?_isSome_iff.2 (hFiles f hf)
    rw [he]
    exact FileTree.digest?_of_same hq' hSame he
  constructor
  · rintro ⟨d', q, hGet', hq, hNe⟩ hEq
    rw [hGet] at hGet'
    cases hGet'
    have hq' := FileTree.addressable_of_isFile (hFiles q (List.mem_of_find?_eq_some hq))
    exact hNe ((Memo.digest_eq_ok_iff hm hq').2 ((hSpelled q hq).trans hEq))
  · intro hNe
    cases hFind : files.find? fun q => q.same f with
    | none => exact absurd (same_self f) (List.find?_eq_none.1 hFind f hf)
    | some q =>
      have hq' := FileTree.addressable_of_isFile (hFiles q (List.mem_of_find?_eq_some hFind))
      refine ⟨d, q, hGet, hFind, fun hOk => hNe ?_⟩
      rw [← hSpelled q hFind]
      exact (Memo.digest_eq_ok_iff hm hq').1 hOk

/-- If the digest of a key is not known yet, the key is found changed if its digest is another one,
or if the first path that names it cannot be read. -/
theorem isChanged_iff_of_unknown {t : FileTree} {m : Memo} (hm : m.Current t) {g : DependentGraph}
    {files : List Path} {f : Path} (hf : f ∈ files) (hUnknown : m.known.contains f = false)
    {d : Dependents} (hGet : g.get? f = some d) {e : Digest} (he : t.digest? f = some e) :
    IsChanged t.read m g files f ↔
      e ≠ d.digest ∨ ∃ q, (files.find? fun q => q.same f) = some q ∧ t.isFile q = false := by
  obtain ⟨q, hFind⟩ : ∃ q, (files.find? fun q => q.same f) = some q := by
    cases hFind : files.find? fun q => q.same f with
    | none => exact absurd (same_self f) (List.find?_eq_none.1 hFind f hf)
    | some q => exact ⟨q, rfl⟩
  have hSame : q.same f = true := same_of_find? hFind
  have hChanged : IsChanged t.read m g files f ↔ (m.digest t q).2 ≠ .ok d.digest := by
    constructor
    · rintro ⟨d', q', hGet', hFind', hNe⟩
      rw [hGet] at hGet'
      rw [hFind] at hFind'
      cases hGet'
      cases hFind'
      exact hNe
    · exact fun hNe => ⟨d, q, hGet, hFind, hNe⟩
  have hUnread : (∃ q, (files.find? fun q => q.same f) = some q ∧ t.isFile q = false) ↔
      t.isFile q = false := by
    rw [hFind]
    constructor
    · rintro ⟨q', hq', hFile⟩
      cases hq'
      exact hFile
    · exact fun hFile => ⟨q, rfl, hFile⟩
  rw [hChanged, hUnread]
  cases hFile : t.isFile q with
  | true =>
    have hq := FileTree.addressable_of_isFile hFile
    rw [Ne, Memo.digest_eq_ok_iff hm hq, FileTree.digest?_of_same hq hSame he, Option.some.injEq]
    simp
  | false =>
    have hNone : m.known.get? q = none := by
      rw [PathMap.get?_congr m.known hSame]
      exact PathMap.get?_eq_none_iff.2 hUnknown
    rcases Memo.digest_of_unknown (t := t) hNone with ⟨d', hd, _⟩ | ⟨error, _, hEq⟩
    · rw [FileTree.isFile_of_digest? hd] at hFile
      cases hFile
    · rw [hEq]
      simp

/-! ## The digests that are taken -/

theorem grows_changes (t : FileTree) (g : DependentGraph) (files : List Path) (m : Memo) :
    Memo.Grows t m (changes t.isFile t.read g files m).1 := by
  induction files generalizing m with
  | nil => exact .refl t m
  | cons first rest ih =>
    cases hGet : g.get? first with
    | none =>
      rw [changes_cons_of_new hGet]
      exact ih m
    | some d =>
      rw [changes_cons hGet]
      exact (Memo.grows_digest t m first).trans (ih _)

theorem contains_changes {t : FileTree} {g : DependentGraph} {files : List Path} {m : Memo}
    {p : Path} : (changes t.isFile t.read g files m).1.known.contains p = true ↔
      m.known.contains p = true ∨ g.contains p = true ∧ p.Among (files.filter t.isFile) := by
  induction files generalizing m with
  | nil => simp [changes]
  | cons first rest ih =>
    cases hGet : g.get? first with
    | none =>
      have hNew : first.same p = true → g.contains p = false := by
        intro hSame
        rw [← PathMap.contains_congr g hSame]
        exact PathMap.get?_eq_none_iff.1 hGet
      rw [changes_cons_of_new hGet, ih, List.filter_cons]
      split
      · rw [Path.among_cons_iff]
        constructor
        · rintro (h | ⟨hp, h⟩)
          · exact .inl h
          · exact .inr ⟨hp, .inr h⟩
        · rintro (h | ⟨hp, hSame | h⟩)
          · exact .inl h
          · rw [hNew hSame] at hp
            cases hp
          · exact .inr ⟨hp, h⟩
      · exact Iff.rfl
    | some d =>
      have hOld : first.same p = true → g.contains p = true := by
        intro hSame
        rw [← PathMap.contains_congr g hSame]
        exact PathMap.contains_iff_get?.2 ⟨d, hGet⟩
      have hFirst : (m.digestFrom t.read first).1.known.contains p = true ↔ _ := Memo.contains_digest
      rw [changes_cons hGet, ih, hFirst, List.filter_cons]
      split
      · rename_i hFile
        rw [Path.among_cons_iff]
        constructor
        · rintro ((h | ⟨hSame, _⟩) | ⟨hp, h⟩)
          · exact .inl h
          · exact .inr ⟨hOld hSame, .inl hSame⟩
          · exact .inr ⟨hp, .inr h⟩
        · rintro (h | ⟨hp, hSame | h⟩)
          · exact .inl (.inl h)
          · exact .inl (.inr ⟨hSame, hFile⟩)
          · exact .inr ⟨hp, h⟩
      · rename_i hFile
        simp only [hFile, and_false, or_false, Bool.false_eq_true]

/-! ## Schedules -/

/-- Whether a file is there and depended on a key that has changed or is lost. -/
def DependsOnChange (isFile : Path → Bool) (read : Path → Except FileError Bytes) (m : Memo)
    (s : Snapshot) (files : List Path) (p : Path) : Prop :=
  ∃ f, (IsChanged read m s.dependents files f ∨ IsLost s.dependents files f) ∧
    p.Among ((s.dependents.filesAt f).filter isFile)

/-- Whether a file is to be analysed again because of what has become of a key. -/
def IsAffected (isFile : Path → Bool) (read : Path → Except FileError Bytes) (m : Memo)
    (s : Snapshot) (files : List Path) (p : Path) : Prop :=
  IsChanged read m s.dependents files p ∨ DependsOnChange isFile read m s files p

theorem among_schedule_iff {m : Memo} {s : Snapshot} {files : List Path}
    {p : Path} : p.Among (reuse isFile read m s files).2.schedule ↔
      p.Among files ∧ s.dependents.contains p = false ∨
        IsAffected isFile read m s files p ∨
        hasNew s.dependents files = true ∧ p.Among files ∧ s.errors.contains p = true := by
  have hSuspect : p.Among (if hasNew s.dependents files then (errorsOf s.errors files).keys else []) ↔
      hasNew s.dependents files = true ∧ p.Among files ∧ s.errors.contains p = true := by
    cases hasNew s.dependents files with
    | false => simp
    | true =>
      rw [if_pos rfl, ← PathMap.contains_iff, PathMap.contains_eq_isSome, get?_errorsOf,
        PathMap.contains_eq_isSome]
      by_cases h : p.Among files
      · simp [h]
      · simp [h]
  show p.Among (firsts ((changes isFile read s.dependents files m).2 ++
    orphans isFile s.dependents files ++ _)) ↔ _
  rw [among_firsts_iff, Path.among_append_iff, Path.among_append_iff, among_changes_iff,
    among_orphans_iff, hSuspect]
  constructor
  · rintro (((h | h | ⟨f, hf, hp⟩) | ⟨f, hf, hp⟩) | h)
    · exact .inl h
    · exact .inr (.inl (.inl h))
    · exact .inr (.inl (.inr ⟨f, .inl hf, hp⟩))
    · exact .inr (.inl (.inr ⟨f, .inr hf, hp⟩))
    · exact .inr (.inr h)
  · rintro (h | (h | ⟨f, hf | hf, hp⟩) | h)
    · exact .inl (.inl (.inl h))
    · exact .inl (.inl (.inr (.inl h)))
    · exact .inl (.inl (.inr (.inr ⟨f, hf, hp⟩)))
    · exact .inl (.inr ⟨f, hf, hp⟩)
    · exact .inr h

/-- When one of the analysed files is scheduled. -/
theorem among_schedule_iff_of_mem {m : Memo} {s : Snapshot} {files : List Path}
    {p : Path} (hp : p ∈ files) : p.Among (reuse isFile read m s files).2.schedule ↔
      s.dependents.contains p = false ∨ IsAffected isFile read m s files p ∨
        (∃ f ∈ files, s.dependents.contains f = false) ∧ s.errors.contains p = true := by
  have hAmong : p.Among files := Path.among_of_mem hp
  rw [among_schedule_iff, hasNew_iff]
  simp only [hAmong, true_and]

theorem mem_schedule {m : Memo} {s : Snapshot} {files : List Path} {p : Path}
    (h : p ∈ (reuse isFile read m s files).2.schedule) :
    p ∈ files ∨ p ∈ s.dependents.edges.map (·.1) ∧ isFile p = true := by
  have h := mem_of_mem_firsts (show p ∈ firsts ((changes isFile read s.dependents files m).2 ++
    orphans isFile s.dependents files ++ _) from h)
  rcases List.mem_append.1 h with h | h
  · rcases List.mem_append.1 h with h | h
    · exact mem_changes h
    · obtain ⟨⟨k, d⟩, he, _, hp⟩ := mem_orphans_iff.1 h
      obtain ⟨hp, hFile⟩ := List.mem_filter.1 hp
      have hEdge : (p, k) ∈ s.dependents.edges := DependentGraph.mem_edges.2 ⟨d, he, hp⟩
      exact .inr ⟨List.mem_map_of_mem hEdge, hFile⟩
  · split at h
    · exact .inl (mem_keys_errorsOf h)
    · cases h

/-! ## Plans -/

/-- A plan is for all files, or it is made from a snapshot that is still good. -/
theorem ofSnapshotFrom_cases (isFile : Path → Bool) (read : Path → Except FileError Bytes)
    (m : Memo) (previous : Option Snapshot) (f : Fingerprint) (files : List Path) (debug : Bool)
    (now : UInt64) :
    (∃ reason,
        ofSnapshotFrom isFile read m previous f files debug now = (m, full files reason now)) ∨
      ∃ s, debug = false ∧ previous = some s ∧ s.fingerprint.same f = true ∧
        isStale s.lastFull now = false ∧
        ofSnapshotFrom isFile read m previous f files debug now = reuse isFile read m s files := by
  cases debug with
  | true => exact .inl ⟨.debugMode, rfl⟩
  | false =>
    cases previous with
    | none => exact .inl ⟨.noCache, rfl⟩
    | some s =>
      cases hSame : s.fingerprint.same f with
      | false => exact .inl ⟨.fingerprintChanged, by simp [ofSnapshotFrom, hSame]⟩
      | true =>
        cases hStale : isStale s.lastFull now with
        | true => exact .inl ⟨.stale, by simp [ofSnapshotFrom, hSame, hStale]⟩
        | false => exact .inr ⟨s, rfl, rfl, hSame, hStale, by simp [ofSnapshotFrom, hSame, hStale]⟩

theorem eq_reuse_of_partial {m : Memo} {s : Snapshot} {f : Fingerprint}
    {files : List Path} {debug : Bool} {now : UInt64}
    (h : (ofSnapshotFrom isFile read m (some s) f files debug now).2.isFull = false) :
    ofSnapshotFrom isFile read m (some s) f files debug now = reuse isFile read m s files := by
  rcases ofSnapshotFrom_cases isFile read m (some s) f files debug now with
    ⟨reason, hEq⟩ | ⟨s', _, hPrevious, _, _, hEq⟩
  · rw [hEq] at h
    cases h
  · cases hPrevious
    exact hEq

theorem grows_ofSnapshot (t : FileTree) (m : Memo) (previous : Option Snapshot) (f : Fingerprint)
    (files : List Path) (debug : Bool) (now : UInt64) :
    Memo.Grows t m (ofSnapshot t m previous f files debug now).1 := by
  rw [ofSnapshot]
  rcases ofSnapshotFrom_cases t.isFile t.read m previous f files debug now with
    ⟨_, hEq⟩ | ⟨s, _, _, _, _, hEq⟩
  · rw [hEq]
    exact .refl t m
  · rw [hEq]
    exact grows_changes t s.dependents files m

end Plan

end AnalysisCache
