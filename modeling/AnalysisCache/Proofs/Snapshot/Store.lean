import AnalysisCache.Proofs.Files.Directories
import AnalysisCache.Proofs.Snapshot.Document
import AnalysisCache.Snapshot.Store

/-!
# The cache file, saved and loaded

Loading sees nothing but the content of the cache file. What is saved is loaded again for as long as
that content stays, and a save that fails leaves no more behind than directories.

* `Snapshot.load_eq_some_iff`: when a snapshot is loaded, and which.
* `Snapshot.load_of_save`: what is loaded after a save.
* `Snapshot.files_of_save_error`: what a save leaves behind that fails.
* `Snapshot.read_of_read_makeRoom`: what is left behind brings nothing to light.
-/

namespace AnalysisCache

namespace Snapshot

/-- The snapshot that a content is read as, if it is read as one. -/
def ofContent? (content : Bytes) : Option Snapshot := do
  ofJson? (← Json.parse? (← content.text?))

theorem ofJson?_null : ofJson? .null = none := rfl

/-! ## Loading -/

theorem document?_eq (t : FileTree) (p : Path) :
    document? t p = match t.read p with
      | .ok content => content.text?.bind Json.parse?
      | .error _ => none := by
  rw [document?, FileTree.readText]
  cases hRead : t.read p with
  | error e =>
    have hNot : ¬ t.isFile p = true := by
      rw [FileTree.isFile_iff, hRead]
      rintro ⟨content, hContent⟩
      cases hContent
    rw [if_neg hNot]
  | ok content =>
    rw [if_pos (FileTree.isFile_of_read hRead)]
    cases hText : content.text? <;> simp [bind, Except.bind, hText]

theorem load_eq_some_iff {t : FileTree} {p : Path} {s : Snapshot} :
    (load t p).2 = some s ↔ ∃ content, t.read p = .ok content ∧ ofContent? content = some s := by
  rw [load, document?_eq]
  cases hRead : t.read p with
  | error e => simp
  | ok content =>
    simp only [Except.ok.injEq, exists_eq_left', ofContent?, Option.bind_eq_bind]
    cases hText : content.text? with
    | none => simp
    | some text =>
      simp only [Option.bind_some]
      cases hParse : Json.parse? text with
      | none => simp
      | some v =>
        simp only [Option.bind_some]
        cases v with
        | null => simp [ofJson?_null]
        | _ => simp only []; split <;> simp_all

theorem files_of_load {t : FileTree} {p : Path} {s : Snapshot} (h : (load t p).2 = some s) :
    (load t p).1 = t := by
  rw [load] at h ⊢
  cases hDocument : document? t p with
  | none => rfl
  | some v =>
    rw [hDocument] at h
    cases v with
    | null => rfl
    | _ => simp only [] at h ⊢; split <;> simp_all

/-- Loading changes nothing, or it removes what is no snapshot. -/
theorem files_of_load_cases (t : FileTree) (p : Path) :
    (load t p).1 = t ∨ (load t p).1 = (t.removeFile p).1 := by
  rw [load]
  cases document? t p with
  | none => exact .inl rfl
  | some v =>
    cases v with
    | null => exact .inl rfl
    | _ =>
      simp only []
      split
      · exact .inl rfl
      · exact .inr rfl

theorem read_of_read_load {t : FileTree} {p q : Path} {content : Bytes}
    (h : (load t p).1.read q = .ok content) : t.read q = .ok content := by
  rcases files_of_load_cases t p with hEq | hEq
  · rwa [hEq] at h
  · rw [hEq] at h
    exact FileTree.read_of_read_removeFile h

/-! ## Saving -/

/-- Room is made by making the directory of the cache file, unless that is the working directory. -/
theorem makeRoom_cases (p : Path) :
    (∀ t, makeRoom t p = (t, .ok ())) ∨
      ∃ d, p.parent? = some d ∧ ∀ t, (makeRoom t p).1 = (t.makeDirectories d).1 := by
  cases hParent : p.parent? with
  | none => exact .inl fun t => by rw [makeRoom, hParent]
  | some d =>
    by_cases hEmpty : d.bytes.isEmpty = true
    · refine .inl fun t => ?_
      rw [makeRoom, hParent]
      exact if_pos hEmpty
    · refine .inr ⟨d, rfl, fun t => ?_⟩
      rw [makeRoom, hParent]
      dsimp only
      rw [if_neg hEmpty]
      split <;> rename_i hMade <;> rw [hMade]

/-- Making the directory of the cache file brings no cache file to light. -/
theorem read_of_read_makeRoom {t : FileTree} (hTree : t.Rooted) {p : Path}
    (hUp : Component.up ∉ p.components) {content : Bytes}
    (h : (makeRoom t p).1.read p = .ok content) : t.read p = .ok content := by
  rcases makeRoom_cases p with hRoom | ⟨d, hParent, hRoom⟩ <;> rw [hRoom] at h
  · exact h
  · exact FileTree.read_of_read_makeDirectories hTree hParent hUp h

theorem text_eq_ok_iff {s : Snapshot} {text : String} :
    s.text = .ok text ↔ ∃ v, s.toJson = .ok v ∧ text = Json.text .indented v ++ "\n" := by
  rw [Snapshot.text, Json.bind_eq_ok_iff]
  simp only [pure, Except.pure, Except.ok.injEq, eq_comm]

theorem ofContent?_text {s : Snapshot} {text : String} (h : s.text = .ok text) :
    ofContent? (Bytes.ofText text) = some s := by
  obtain ⟨v, hWrite, rfl⟩ := text_eq_ok_iff.1 h
  have hText : Json.text .indented v ++ "\n" = String.ofList (Json.render .indented 0 v ++ ['\n']) := by
    rw [Json.text, String.ofList_append]
  have hFits : Json.Fits Json.maxDepth v := fits_toJson hWrite (Json.maxDepth - 4)
  have hParse : Json.parse? (Json.text .indented v ++ "\n") = some v := by
    rw [hText]
    refine Json.parse?_render hFits fun c hc => ?_
    rw [List.mem_singleton.1 hc]
    rfl
  rw [ofContent?, Bytes.text?_ofText, Option.bind_eq_bind, Option.bind_some, hParse,
    Option.bind_eq_bind, Option.bind_some]
  exact reads_toJson s v hWrite

theorem read_of_save {t t' : FileTree} {p : Path} {s : Snapshot}
    (h : save t p s = (t', .ok ())) :
    ∃ text, s.text = .ok text ∧ t'.read p = .ok (Bytes.ofText text) := by
  rw [save] at h
  split at h
  · cases h
  · split at h
    · cases h
    · rename_i text hText
      split at h
      · rename_i hWrite
        cases h
        exact ⟨text, hText, FileTree.read_of_write hWrite⟩
      · cases h

/-- What a snapshot is saved as does not depend on the files. -/
theorem read_eq_of_save {t t' u u' : FileTree} {p : Path} {s : Snapshot}
    (ht : save t p s = (t', .ok ())) (hu : save u p s = (u', .ok ())) :
    t'.read p = u'.read p := by
  obtain ⟨text, hText, hRead⟩ := read_of_save ht
  obtain ⟨text', hText', hRead'⟩ := read_of_save hu
  rw [hText] at hText'
  cases hText'
  exact hRead.trans hRead'.symm

/-- A saved snapshot is the one that is loaded, for as long as the content of the file stays. -/
theorem load_of_save {t t' u : FileTree} {p : Path} {s : Snapshot}
    (h : save t p s = (t', .ok ())) (hRead : u.read p = t'.read p) : load u p = (u, some s) := by
  obtain ⟨text, hText, hContent⟩ := read_of_save h
  have hLoad : (load u p).2 = some s :=
    load_eq_some_iff.2 ⟨_, hRead.trans hContent, ofContent?_text hText⟩
  exact Prod.ext (files_of_load hLoad) hLoad

theorem files_of_save_error {t t' : FileTree} {p : Path} {s : Snapshot} {e : CacheError}
    (h : save t p s = (t', .error e)) : t' = (makeRoom t p).1 := by
  rw [save] at h
  split at h
  · rename_i hRoom
    cases h
    rw [hRoom]
  · rename_i hRoom
    rw [hRoom]
    split at h
    · cases h
      rfl
    · split at h
      · cases h
      · rename_i hWrite
        cases h
        rw [FileTree.write] at hWrite
        split at hWrite
        · cases hWrite
        · cases hWrite
          rfl

end Snapshot

end AnalysisCache
