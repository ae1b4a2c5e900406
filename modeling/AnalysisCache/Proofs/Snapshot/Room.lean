import AnalysisCache.Proofs.Files.Making
import AnalysisCache.Proofs.Snapshot.Foreign

/-!
# Room for the cache file

Where the cache file is, or has just been removed, its directory is there and is not made again. If
it is still to be made, a cache file may come to light, but only if its path goes up from there. So
what counts as the content of the cache file is what it holds once its directory is there: making
the directory does not change that.

* `Snapshot.makeRoom_of_read`: there is room where the cache file is.
* `Snapshot.makeRoom_of_without`: there is room where the cache file was.
* `Snapshot.cached_makeRoom`: making room leaves what counts as the content.
* `Snapshot.cached_eq_ok_iff`: this is the content of the file if its path does not go up.
* `Snapshot.clear_cases`: clearing removes the cache file, or there is none.
-/

namespace AnalysisCache

open FileTree (Without)

namespace Snapshot

theorem makeRoom_of_isDirectory {t : FileTree} {p : Path}
    (h : ∀ d, p.parent? = some d → d.bytes ≠ [] → t.isDirectory d = true) :
    makeRoom t p = (t, .ok ()) := by
  rw [makeRoom]
  cases hParent : p.parent? with
  | none => rfl
  | some d =>
    dsimp only
    split
    · rfl
    · rename_i hEmpty
      have hd : d.bytes ≠ [] := by simpa using hEmpty
      rw [FileTree.makeDirectories_of_isDirectory (h d hParent hd)]

/-- There is always room for a cache file that is there. -/
theorem makeRoom_of_read {t : FileTree} {p : Path} {content : Bytes}
    (h : t.read p = .ok content) : makeRoom t p = (t, .ok ()) :=
  makeRoom_of_isDirectory fun _ => FileTree.isDirectory_of_parent? h

/-- There is still room for a cache file when it is gone. -/
theorem makeRoom_of_without {t u : FileTree} {p : Path} (h : Without t u p)
    (hp : t.isFile p = true) : makeRoom u p = (u, .ok ()) := by
  obtain ⟨content, hRead⟩ := FileTree.isFile_iff.1 hp
  exact makeRoom_of_isDirectory fun d hParent hd =>
    h.isDirectory hp (FileTree.isDirectory_of_parent? hRead hParent hd)

/-- What the cache file holds once its directory is there. -/
def cached (t : FileTree) (p : Path) : Except FileError Bytes := (makeRoom t p).1.read p

theorem cached_of_makeRoom {t : FileTree} {p : Path} (h : makeRoom t p = (t, .ok ())) :
    cached t p = t.read p := by rw [cached, h]

theorem cached_of_read {t : FileTree} {p : Path} {content : Bytes} (h : t.read p = .ok content) :
    cached t p = .ok content := by rw [cached_of_makeRoom (makeRoom_of_read h), h]

theorem makeRoom_again (t : FileTree) (p : Path) :
    (makeRoom (makeRoom t p).1 p).1 = (makeRoom t p).1 := by
  rcases makeRoom_cases p with hRoom | ⟨d, _, hRoom⟩
  · rw [hRoom, hRoom]
  · rw [hRoom, hRoom]
    exact FileTree.makeDirectories_again t d

theorem cached_makeRoom (t : FileTree) (p : Path) : cached (makeRoom t p).1 p = cached t p := by
  rw [cached, makeRoom_again, cached]

/-- A cache file whose path does not go up holds what can be read of it. -/
theorem cached_eq_ok_iff {t : FileTree} (hTree : t.Rooted) {p : Path}
    (hUp : Component.up ∉ p.components) {content : Bytes} :
    cached t p = .ok content ↔ t.read p = .ok content :=
  ⟨read_of_read_makeRoom hTree hUp, cached_of_read⟩

/-- A file that has just been removed holds nothing. -/
theorem cached_of_without {t u : FileTree} {p : Path} (h : Without t u p)
    (hp : t.isFile p = true) {content : Bytes} : cached u p ≠ .ok content := by
  rw [cached_of_makeRoom (makeRoom_of_without h hp)]
  intro hRead
  have hGone := h.not_isFile
  rw [FileTree.isFile_of_read hRead] at hGone
  cases hGone

/-! ## Loading and clearing -/

theorem cached_load_of_isForeign {t : FileTree} {p : Path} (h : IsForeign t p) :
    cached (load t p).1 p = (load t p).1.read p :=
  cached_of_makeRoom (makeRoom_of_without (isForeign_iff.1 h) (isFile_of_isForeign h))

/-- Loading leaves the content of the cache file, or takes it away. -/
theorem cached_of_cached_load {t : FileTree} {p : Path} {content : Bytes}
    (h : cached (load t p).1 p = .ok content) : cached t p = .ok content := by
  by_cases hForeign : IsForeign t p
  · exact absurd h (cached_of_without (isForeign_iff.1 hForeign) (isFile_of_isForeign hForeign))
  · rwa [files_of_load_of_not_isForeign hForeign] at h

theorem clear_cases (t : FileTree) (p : Path) :
    t.isFile p = true ∧ Without t (clear t p).1 p ∨ t.isFile p = false ∧ (clear t p).1 = t := by
  rw [clear]
  cases hFile : t.isFile p with
  | false => exact .inr ⟨rfl, rfl⟩
  | true =>
    obtain ⟨hWithout, hOk⟩ := FileTree.exists_removeFile hFile
    rw [if_pos rfl]
    generalize t.removeFile p = x at hWithout hOk ⊢
    obtain ⟨u, outcome⟩ := x
    dsimp only at hOk
    subst hOk
    exact .inl ⟨rfl, hWithout⟩

/-- Clearing leaves the content of the cache file, or takes it away. -/
theorem cached_of_cached_clear {t : FileTree} {p : Path} {content : Bytes}
    (h : cached (clear t p).1 p = .ok content) : cached t p = .ok content := by
  rcases clear_cases t p with ⟨hFile, hWithout⟩ | ⟨_, hSame⟩
  · exact absurd h (cached_of_without hWithout hFile)
  · rwa [hSame] at h

/-- What a save leaves that fails holds what was held before. -/
theorem cached_of_save_error {t u : FileTree} {p : Path} {s : Snapshot} {e : CacheError}
    (h : save t p s = (u, .error e)) : cached u p = cached t p := by
  rw [files_of_save_error h, cached_makeRoom]

end Snapshot

end AnalysisCache
