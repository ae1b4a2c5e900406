import AnalysisCache.Proofs.Files.Entry
import AnalysisCache.Proofs.Path.Text
import AnalysisCache.Proofs.Run.Replacement
import AnalysisCache.Settings

/-!
# Where the cache is kept

A configuration is accepted if it names paths and a level, and if its cache file can be the name of
an entry of a directory. The cache is then kept as that entry of the configured directory, however
this is spelled: what is loaded, saved or cleared is that entry, or the file that it is a link to.

* `Config.check_eq_ok_iff`: which configurations are accepted.
* `Snapshot.KeptAs`: what it means that the cache is kept as an entry.
* `Snapshot.keptAs_join`: a cache file whose path ends in a name is kept as an entry.
* `Config.check_places_cache`: an accepted configuration says where the cache is kept.
-/

namespace AnalysisCache

open FileTree (EndsAt Grown)

/-! ## Names -/

theorem Path.isName_ofText_iff {s : String} : IsName (Bytes.ofText s) ↔
    s ≠ "" ∧ '/' ∉ s.toList ∧ s ≠ "." ∧ s ≠ ".." := by
  have hStep : isStep (Bytes.ofText s) = true ↔ s ≠ "" ∧ s ≠ "." := by
    have hEmpty : Bytes.ofText s = [] ↔ s = "" := Bytes.ofText_inj (t := "")
    have hDot : Bytes.ofText s = [0x2E] ↔ s = "." := Bytes.ofText_inj (t := ".")
    rw [← Bool.not_eq_false, FileTree.isStep_eq_false_iff, hEmpty, hDot, not_or]
  have hUp : Bytes.ofText s ≠ [0x2E, 0x2E] ↔ s ≠ ".." := not_congr (Bytes.ofText_inj (t := ".."))
  constructor
  · intro h
    obtain ⟨hEmpty, hDot⟩ := hStep.1 h.isStep
    exact ⟨hEmpty, fun hSlash => h.slash_notMem (Bytes.slash_mem_ofText_iff.2 hSlash), hDot,
      hUp.1 h.not_up⟩
  · rintro ⟨hEmpty, hSlash, hDot, hDots⟩
    exact ⟨fun hMem => hSlash (Bytes.slash_mem_ofText_iff.1 hMem), hStep.2 ⟨hEmpty, hDot⟩,
      hUp.2 hDots⟩

theorem Config.check_eq_ok_iff {c : Config} : c.check = .ok () ↔
    c.analysis.paths ≠ [] ∧ c.analysis.level ≠ "" ∧ Path.IsName (Bytes.ofText c.cache.file) := by
  have hPlain : (Path.ofText c.cache.file).isPlainName = true ↔
      Path.IsName (Bytes.ofText c.cache.file) := Path.isPlainName_iff
  rw [← hPlain, check]
  cases hPaths : c.analysis.paths with
  | nil => simp
  | cons _ _ =>
    by_cases hLevel : c.analysis.level = ""
    · simp [hLevel]
    · cases hName : (Path.ofText c.cache.file).isPlainName with
      | false => simp [hLevel]
      | true =>
        have hFile : c.cache.file ≠ "" := (Path.isName_ofText_iff.1 (hPlain.1 hName)).1
        simp [hLevel, hFile]

/-! ## The cache file as an entry of a directory -/

namespace Snapshot

/-- Whether the cache at a path is kept as the entry with a name of a directory: the path is that of
the entry, and all that is done with the cache is done there. -/
structure KeptAs (p d : Path) (name : Bytes) : Prop where
  fileName?_eq : p.fileName? = some name
  exists_parent : ∃ q, p.parent? = some q ∧ q.same d = true
  /-- What is loaded is in the entry, or in the file that this is a link to. -/
  load : ∀ t s, (load t p).2 = some s → ∃ l x content, t.IsEntry d name l ∧ EndsAt t l x ∧
    t.node? x = some (.file content) ∧ ofContent? content = some s
  files_of_load : ∀ t, (Snapshot.load t p).1 = t ∨
    ∃ l, t.IsEntry d name l ∧ (Snapshot.load t p).1 = t.remove l
  /-- What is saved is in the entry, or in the file that this is a link to. -/
  save : ∀ t u s, save t p s = (u, .ok ()) → ∃ w l x text, Grown t w p.parents ∧
    s.text = .ok text ∧ u = w.set x (.file (Bytes.ofText text)) ∧ u.IsEntry d name l ∧ EndsAt u l x
  files_of_error : ∀ t u s e, Snapshot.save t p s = (u, .error e) → Grown t u p.parents
  /-- Clearing never fails. It takes away the entry if that leads to a file. -/
  clear : ∀ t, ∃ u q, clear t p = (u, .ok q) ∧ q.same d = true ∧ u.isFile p = false ∧
    (t.isFile p = false ∧ u = t ∨ t.isFile p = true ∧ ∃ l, t.IsEntry d name l ∧ u = t.remove l)

section

variable (d : Path) {name : Bytes} (h : Path.IsName name)

include h

theorem exists_clear_join (t : FileTree) : ∃ u q, Snapshot.clear t (d.join ⟨name⟩) = (u, .ok q) ∧
    q.same d = true ∧ u.isFile (d.join ⟨name⟩) = false ∧
    (t.isFile (d.join ⟨name⟩) = false ∧ u = t ∨
      t.isFile (d.join ⟨name⟩) = true ∧ ∃ l, t.IsEntry d name l ∧ u = t.remove l) := by
  obtain ⟨q, hParent, hq⟩ := Path.exists_parent?_join d h
  rw [Snapshot.clear, hParent]
  cases hFile : t.isFile (d.join ⟨name⟩) with
  | false => exact ⟨t, q, rfl, hq, hFile, .inl ⟨rfl, rfl⟩⟩
  | true =>
    obtain ⟨hWithout, hOk⟩ := FileTree.exists_removeFile hFile
    have hGone := hWithout.not_isFile
    obtain ⟨l, _, hLocate, _, _, hRemove⟩ := hWithout
    refine ⟨(t.removeFile (d.join ⟨name⟩)).1, q, ?_, hq, hGone, .inr ⟨rfl, l, ?_, hRemove⟩⟩
    · rw [if_pos rfl, show t.removeFile (d.join ⟨name⟩) = (_, .ok ()) from Prod.ext rfl hOk]
      rfl
    · exact FileTree.isEntry_of_locate_join h hLocate

/-- A cache file whose path ends in a name is kept as the entry with that name. -/
theorem keptAs_join : KeptAs (d.join ⟨name⟩) d name where
  fileName?_eq := Path.fileName?_join d h
  exists_parent := Path.exists_parent?_join d h
  load t s hLoad := by
    obtain ⟨content, hRead, hContent⟩ := load_eq_some_iff.1 hLoad
    obtain ⟨x, hLocate, hx⟩ := FileTree.read_eq_ok_iff.1 hRead
    obtain ⟨l, hEntry, hEnd⟩ := FileTree.endsAt_of_locate_join h hLocate
    exact ⟨l, x, content, hEntry, hEnd, hx, hContent⟩
  files_of_load t := by
    rcases files_of_load_cases t (d.join ⟨name⟩) with hSame | hRemove
    · exact .inl hSame
    · rw [hRemove]
      rcases t.removeFile_cases (d.join ⟨name⟩) with hSame | ⟨l, hLocate, hGone⟩
      · exact .inl hSame
      · exact .inr ⟨l, FileTree.isEntry_of_locate_join h hLocate, hGone⟩
  save t u s hSave := by
    obtain ⟨text, hText, w, x, hGrown, hSet, hLocate, _⟩ := replaced_of_save hSave
    obtain ⟨l, hEntry, hEnd⟩ := FileTree.endsAt_of_locate_join h hLocate
    exact ⟨w, l, x, text, hGrown, hText, hSet, hEntry, hEnd⟩
  files_of_error _ _ _ _ hSave := grown_of_save_error hSave
  clear := exists_clear_join d h

end

end Snapshot

/-! ## The configured place -/

/-- A configuration is accepted exactly if it has paths and a level, and if its cache file has a
name that is no way to another directory. Then the cache is kept as the entry with that name of the
configured directory, seen from the directory of the project. -/
theorem Config.check_places_cache (c : Config) :
    (c.check = .ok () ↔ c.analysis.paths ≠ [] ∧ c.analysis.level ≠ "" ∧ c.cache.file ≠ "" ∧
      '/' ∉ c.cache.file.toList ∧ c.cache.file ≠ "." ∧ c.cache.file ≠ "..") ∧
    (c.check = .ok () → ∀ directory configFile : Path,
      (Settings.ofConfig c directory configFile).cacheDirectory.same
        (directory.join (.ofText c.cache.directory)) = true ∧
      Snapshot.KeptAs (Settings.ofConfig c directory configFile).cacheFile
        (directory.join (.ofText c.cache.directory)) (Bytes.ofText c.cache.file)) := by
  rw [← Path.isName_ofText_iff, check_eq_ok_iff]
  refine ⟨Iff.rfl, fun h directory configFile => ?_⟩
  obtain ⟨-, -, hName⟩ := h
  have hKept := Snapshot.keptAs_join (directory.join (.ofText c.cache.directory)) hName
  obtain ⟨q, hParent, hq⟩ := hKept.exists_parent
  refine ⟨?_, hKept⟩
  rw [Settings.cacheDirectory, Settings.ofConfig]
  dsimp only
  rw [show (Path.ofText c.cache.file) = ⟨Bytes.ofText c.cache.file⟩ from rfl, hParent]
  exact hq

/-- A configuration with detours in the path of the cache directory. -/
def Config.detour : Config where
  analysis := { AnalysisConfig.default with paths := ["src"] }
  cache := ⟨"../cache//.", "c.json"⟩

theorem Config.check_places_cache_detour :
    detour.check = .ok () ∧
    (Settings.ofConfig detour (.ofText "a/b/") (.ofText "a/b/sift.toml")).cacheDirectory.same
      (.ofText "a/b/../cache") = true ∧
    Snapshot.KeptAs (.ofText "a/b/../cache//./c.json") (.ofText "a/b/../cache//.")
      (Bytes.ofText "c.json") := by
  have hCheck : detour.check = .ok () := by decide +kernel
  obtain ⟨hDirectory, hKept⟩ := (check_places_cache detour).2 hCheck (.ofText "a/b/")
    (.ofText "a/b/sift.toml")
  have hJoin : (Path.ofText "a/b/").join (.ofText detour.cache.directory) =
      .ofText "a/b/../cache//." := by decide +kernel
  have hFile : (Settings.ofConfig detour (.ofText "a/b/") (.ofText "a/b/sift.toml")).cacheFile =
      .ofText "a/b/../cache//./c.json" := by decide +kernel
  rw [hJoin] at hDirectory hKept
  rw [hFile] at hKept
  exact ⟨hCheck, Path.same_trans hDirectory (by decide +kernel), hKept⟩

end AnalysisCache
