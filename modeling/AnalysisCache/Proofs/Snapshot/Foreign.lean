import AnalysisCache.Proofs.Files.Removal
import AnalysisCache.Proofs.Snapshot.Store

/-!
# What is loaded and what is removed

A document in the place of the cache file is loaded if it is a snapshot, and removed if it is
neither a snapshot nor `null`. Once it is gone the cache reads as it did before.

* `Snapshot.load_eq_some_iff_holds`: when a snapshot is loaded.
* `Snapshot.isForeign_iff`: when loading removes the file.
* `Snapshot.load_load`: loading again gives the same.
-/

namespace AnalysisCache

open FileTree (Without)

namespace Snapshot

/-! ## Documents in the place of the cache file -/

/-- Whether a path names a file that holds a JSON document. -/
def Holds (t : FileTree) (p : Path) (v : Json) : Prop :=
  ∃ content text, t.read p = .ok content ∧ content.text? = some text ∧ Json.parse? text = some v

/-- Whether a path names a file that holds a document which is no snapshot. Nor is `null`, but it
says that there is none. -/
def IsForeign (t : FileTree) (p : Path) : Prop :=
  ∃ v, Holds t p v ∧ v ≠ .null ∧ ofJson? v = none

section

variable {t : FileTree} {p : Path}

theorem document?_eq_some_iff {v : Json} : document? t p = some v ↔ Holds t p v := by
  rw [document?_eq, Holds]
  cases t.read p with
  | error e => simp
  | ok content => simp [Option.bind_eq_some_iff]

theorem document?_eq_none_of_not_isFile (h : t.isFile p = false) : document? t p = none := by
  rw [document?, if_neg (by rw [h]; decide)]

theorem load_eq_some_iff_holds {s : Snapshot} :
    (load t p).2 = some s ↔ ∃ v, Holds t p v ∧ ofJson? v = some s := by
  rw [load_eq_some_iff]
  constructor
  · rintro ⟨content, hRead, hContent⟩
    obtain ⟨text, hText, hRest⟩ := Option.bind_eq_some_iff.1 hContent
    obtain ⟨v, hParse, hShape⟩ := Option.bind_eq_some_iff.1 hRest
    exact ⟨v, ⟨content, text, hRead, hText, hParse⟩, hShape⟩
  · rintro ⟨v, ⟨content, text, hRead, hText, hParse⟩, hShape⟩
    refine ⟨content, hRead, ?_⟩
    rw [ofContent?, hText, Option.bind_eq_bind, Option.bind_some, hParse, Option.bind_eq_bind,
      Option.bind_some, hShape]

theorem isFile_of_isForeign (h : IsForeign t p) : t.isFile p = true := by
  obtain ⟨_, ⟨_, _, hRead, _⟩, _⟩ := h
  exact FileTree.isFile_of_read hRead

theorem load_of_isForeign (h : IsForeign t p) : load t p = ((t.removeFile p).1, none) := by
  obtain ⟨v, hHolds, hNull, hShape⟩ := h
  rw [load, document?_eq_some_iff.2 hHolds]
  cases v with
  | null => exact absurd rfl hNull
  | _ => simp only [hShape]

theorem files_of_load_of_not_isForeign (h : ¬ IsForeign t p) : (load t p).1 = t := by
  rw [load]
  cases hDocument : document? t p with
  | none => rfl
  | some v =>
    have hShape : v ≠ .null → ∃ s, ofJson? v = some s := by
      intro hNull
      rw [← Option.ne_none_iff_exists']
      exact fun hNone => h ⟨v, document?_eq_some_iff.1 hDocument, hNull, hNone⟩
    cases v with
    | null => rfl
    | _ =>
      obtain ⟨s, hs⟩ := hShape (by simp)
      simp only [hs]

/-- Loading removes exactly what is foreign. -/
theorem isForeign_iff : IsForeign t p ↔ Without t (load t p).1 p := by
  constructor
  · intro h
    rw [load_of_isForeign h]
    exact (FileTree.exists_removeFile (isFile_of_isForeign h)).1
  · intro h
    by_contra hNot
    rw [files_of_load_of_not_isForeign hNot] at h
    exact FileTree.Without.irrefl h

/-- Loading again gives the same: what is foreign is gone by then, and was read as no snapshot. -/
theorem load_load (t : FileTree) (p : Path) : load (load t p).1 p = load t p := by
  by_cases h : IsForeign t p
  · have hGone := document?_eq_none_of_not_isFile (isForeign_iff.1 h).not_isFile
    rw [load_of_isForeign h] at hGone ⊢
    rw [load, hGone]
  · rw [files_of_load_of_not_isForeign h]

end

end Snapshot

end AnalysisCache
