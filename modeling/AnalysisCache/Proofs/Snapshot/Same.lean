import AnalysisCache.Proofs.Snapshot.Encoding

/-!
# Snapshots that say the same

Snapshots may differ in how they spell the paths of their fingerprint and those that errors are kept
under. Such snapshots say the same, and both can be written or neither.

* `Snapshot.Same`: whether two snapshots say the same.
* `Snapshot.Same.isText`: what can be written can be written in another spelling.
-/

namespace AnalysisCache

open AnalysisCache.Path (same_self)

namespace Fingerprint

theorem among_of_samePaths {ps qs : List Path} (h : samePaths ps qs = true) :
    ∀ q ∈ qs, q.Among ps := by
  induction ps generalizing qs with
  | nil =>
    cases qs with
    | nil => exact fun q hq => by cases hq
    | cons q rest => cases h
  | cons p more ih =>
    cases qs with
    | nil => exact fun q hq => by cases hq
    | cons q rest =>
      rw [samePaths, Bool.and_eq_true] at h
      intro r hr
      rw [Path.among_cons_iff]
      rcases List.mem_cons.1 hr with rfl | hr
      · exact .inl h.1
      · exact .inr (ih h.2 r hr)

theorem among_of_sameDigests {m n : PathMap Digest} (h : sameDigests m n = true) :
    ∀ q ∈ n.keys, q.Among m.keys := by
  intro q hq
  obtain ⟨d, he⟩ := PathMap.mem_keys_iff.1 hq
  obtain ⟨e, he', hSame, _⟩ := exists_of_mem_of_forall₂ (PathMap.sameBy_iff.1 h) he
  exact ⟨e.1, PathMap.mem_keys_iff.2 ⟨e.2, he'⟩, hSame⟩

/-- Fingerprints that agree have the same paths, up to their spelling. -/
theorem among_paths_of_same {f g : Fingerprint} (h : f.same g = true) {q : Path}
    (hq : q ∈ g.paths) : q.Among f.paths := by
  simp only [same, Bool.and_eq_true] at h
  obtain ⟨⟨⟨⟨⟨⟨_, hConfigs⟩, hPaths⟩, hLocks⟩, _⟩, hStubs⟩, _⟩ := h
  simp only [paths, List.mem_append] at hq
  simp only [paths, Path.among_append_iff]
  rcases hq with ((hq | hq) | hq) | hq
  · exact .inl (.inl (.inl (among_of_sameDigests hConfigs q hq)))
  · exact .inl (.inl (.inr (among_of_samePaths hPaths q hq)))
  · exact .inl (.inr (among_of_sameDigests hLocks q hq))
  · exact .inr (among_of_sameDigests hStubs q hq)

end Fingerprint

/-- Maps that answer alike have the same paths, up to the spelling of keys. -/
theorem PathMap.among_paths_of_get? {α : Type} {inner : α → List Path} {m n : PathMap α}
    (h : ∀ p, m.get? p = n.get? p) {q : Path} (hq : q ∈ n.paths inner) : q.Among (m.paths inner) := by
  rw [PathMap.paths, List.mem_flatMap] at hq
  obtain ⟨⟨k, v⟩, he, hq⟩ := hq
  obtain ⟨k', he', hSame⟩ := PathMap.mem_of_get? ((h k).trans (PathMap.get?_of_mem he (same_self k)))
  rcases List.mem_cons.1 hq with rfl | hq
  · exact ⟨k', List.mem_flatMap.2 ⟨(k', v), he', List.mem_cons_self⟩, hSame⟩
  · exact Path.among_of_mem (List.mem_flatMap.2 ⟨(k', v), he', List.mem_cons_of_mem k' hq⟩)

namespace Snapshot

/-- Whether two snapshots say the same of the same paths. -/
structure Same (s s' : Snapshot) : Prop where
  lastFull : s'.lastFull = s.lastFull
  fingerprint : s.fingerprint.same s'.fingerprint = true
  errors : ∀ p, s'.errors.get? p = s.errors.get? p
  dependents : s'.dependents = s.dependents

theorem Same.among_paths {s s' : Snapshot} (h : s.Same s') {q : Path} (hq : q ∈ s'.paths) :
    q.Among s.paths := by
  rw [paths, List.mem_append, List.mem_append] at hq
  rw [paths, Path.among_append_iff, Path.among_append_iff]
  rcases hq with (hq | hq) | hq
  · exact .inl (.inl (Fingerprint.among_paths_of_same h.fingerprint hq))
  · exact .inl (.inr (PathMap.among_paths_of_get? (fun p => (h.errors p).symm) hq))
  · rw [h.dependents] at hq
    exact .inr (Path.among_of_mem hq)

/-- Of two snapshots that say the same, both can be written or neither. -/
theorem Same.isText {s s' : Snapshot} (h : s.Same s') (hText : ∀ p ∈ s.paths, p.IsText) :
    ∀ q ∈ s'.paths, q.IsText := by
  intro q hq
  obtain ⟨p, hp, hSame⟩ := h.among_paths hq
  exact (Path.isText_congr hSame).1 (hText p hp)

end Snapshot

end AnalysisCache
