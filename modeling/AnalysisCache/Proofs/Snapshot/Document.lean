import AnalysisCache.Proofs.Json.Shape
import AnalysisCache.Snapshot.Basic

/-!
# Snapshots read back

What a snapshot is written as is read as that snapshot. Nothing in it is nested too deep, nor is any
number in it too large.

* `Snapshot.reads_toJson`: reading undoes writing.
* `Snapshot.fits_toJson`: the document has a text that can be read.
-/

namespace AnalysisCache

open Json (Reads Fits fits_object fits_array fits_of_mapM fits_ofPath fits_ofPaths fits_ofPathMap
  reads_ofPath reads_ofPaths reads_ofPathMap bind_eq_ok_iff field?_canonical mem_of_mem_canonical)

theorem Json.fits_string (s : String) (depth : Nat) : Fits depth (.string s) := by
  rw [Fits]
  trivial

theorem Json.fits_nat {n : Nat} (h : n < UInt64.size) (depth : Nat) : Fits depth (Json.nat n) := by
  rw [Json.nat, Fits]
  exact h

namespace Dependents

theorem toJson_eq_ok_iff {d : Dependents} {v : Json} :
    d.toJson = .ok v ↔ ∃ files, Json.ofPaths d.files = .ok files ∧
      v = .object [("file_hash", Json.ofDigest d.digest), ("dependent_files", files)] := by
  rw [toJson, bind_eq_ok_iff]
  simp only [pure, Except.pure, Except.ok.injEq, eq_comm]

theorem reads_toJson : Reads toJson ofJson? := by
  intro d v h
  obtain ⟨files, hFiles, rfl⟩ := toJson_eq_ok_iff.1 h
  have hRead := reads_ofPaths d.files files hFiles
  simp [ofJson?, Json.asRecord?, field?_canonical, Json.asDigest?_ofDigest, hRead]

theorem fits_toJson {d : Dependents} {v : Json} (h : d.toJson = .ok v) (depth : Nat) :
    Fits (depth + 2) v := by
  obtain ⟨files, hFiles, rfl⟩ := toJson_eq_ok_iff.1 h
  refine fits_object fun m hm => ?_
  simp only [List.mem_cons, List.not_mem_nil, or_false] at hm
  rcases hm with rfl | rfl
  · exact Json.fits_string _ _
  · exact fits_ofPaths hFiles depth

end Dependents

namespace Diagnostic

theorem mapM_ofPath_eq_ok_iff {file : Option Path} {v : Option Json} :
    file.mapM Json.ofPath = .ok v ↔
      file = none ∧ v = none ∨ ∃ p w, file = some p ∧ Json.ofPath p = .ok w ∧ v = some w := by
  cases file with
  | none => simp [pure, Except.pure, eq_comm]
  | some p =>
    cases h : Json.ofPath p with
    | error e => simp [Option.mapM_some, h, Functor.map, Except.map]
    | ok w => simp [Option.mapM_some, h, Functor.map, Except.map, eq_comm]

theorem toJson_eq_ok_iff {d : Diagnostic} {v : Json} :
    d.toJson = .ok v ↔ ∃ file, d.file.mapM Json.ofPath = .ok file ∧
      v = .object (("severity", d.severity.toJson) :: ("message", .string d.message) ::
        (member "file" file ++ member "line" (d.line.map fun n => Json.nat n.toNat) ++
          member "identifier" (d.identifier.map .string) ++ member "tip" (d.tip.map .string))) := by
  rw [toJson, bind_eq_ok_iff]
  simp only [pure, Except.pure, Except.ok.injEq, eq_comm]

theorem find?_reverse_member (name other : String) (v : Option Json) :
    ((member name v).reverse.find? fun m => m.1 == other) =
      if name = other then v.map fun v => (name, v) else none := by
  cases v with
  | none => simp [member]
  | some v => by_cases h : name = other <;> simp [member, h]

theorem asOption?_map {α : Type} (f : α → Json) {read? : Json → Option α} {o : Option α}
    (h : ∀ a, o = some a → read? (f a) = some a ∧ (f a).isNull = false) :
    Json.asOption? read? (o.map f) = some o := by
  cases o with
  | none => rfl
  | some a =>
    obtain ⟨hRead, hNull⟩ := h a rfl
    rw [Option.map_some, Json.asOption?, hNull, if_neg (by decide), hRead]
    rfl

theorem asOption?_file {file : Option Path} {v : Option Json}
    (h : file.mapM Json.ofPath = .ok v) : Json.asOption? Json.asPath? v = some file := by
  rcases mapM_ofPath_eq_ok_iff.1 h with ⟨rfl, rfl⟩ | ⟨p, w, rfl, hWrite, rfl⟩
  · rfl
  · have hRead := reads_ofPath p w hWrite
    have hNull : w.isNull = false := by
      cases w with
      | null => cases hRead
      | _ => rfl
    rw [Json.asOption?, hNull, if_neg (by decide), hRead]
    rfl

theorem reads_toJson : Reads toJson ofJson? := by
  intro d v h
  obtain ⟨file, hFile, rfl⟩ := toJson_eq_ok_iff.1 h
  have hPath := asOption?_file hFile
  have hLine : Json.asOption? (Json.asNatBelow? UInt32.size)
      (d.line.map fun n => Json.nat n.toNat) = some (d.line.map UInt32.toNat) := by
    have hMap : (d.line.map fun n => Json.nat n.toNat) = (d.line.map UInt32.toNat).map Json.nat := by
      rw [Option.map_map]
      rfl
    rw [hMap]
    refine asOption?_map Json.nat fun n hn => ⟨?_, rfl⟩
    obtain ⟨line, _, rfl⟩ := Option.map_eq_some_iff.1 hn
    rw [Json.nat, Json.asNatBelow?, if_pos line.toNat_lt]
  have hIdentifier : Json.asOption? Json.asText? (d.identifier.map .string) = some d.identifier :=
    asOption?_map _ fun _ _ => ⟨rfl, rfl⟩
  have hTip : Json.asOption? Json.asText? (d.tip.map .string) = some d.tip :=
    asOption?_map _ fun _ _ => ⟨rfl, rfl⟩
  simp [ofJson?, Json.asRecord?, Json.asText?, field?_canonical, List.find?_append,
    find?_reverse_member,
    Option.map_map, Function.comp_def, hPath, hLine, hIdentifier, hTip]

theorem mem_member {name : String} {v : Option Json} {m : String × Json} (h : m ∈ member name v) :
    v = some m.2 := by
  cases v with
  | none => cases h
  | some w =>
    rw [List.mem_singleton.1 h]

theorem fits_toJson {d : Diagnostic} {v : Json} (h : d.toJson = .ok v) (depth : Nat) :
    Fits (depth + 1) v := by
  obtain ⟨file, hFile, rfl⟩ := toJson_eq_ok_iff.1 h
  refine fits_object fun m hm => ?_
  simp only [List.mem_cons, List.mem_append] at hm
  rcases hm with rfl | rfl | ((hm | hm) | hm) | hm
  · exact Json.fits_string _ _
  · exact Json.fits_string _ _
  · have hSome := mem_member hm
    subst hSome
    rcases mapM_ofPath_eq_ok_iff.1 hFile with ⟨_, hNone⟩ | ⟨p, w, _, hWrite, hw⟩
    · cases hNone
    · cases hw
      exact fits_ofPath hWrite depth
  · obtain ⟨n, _, hn⟩ := Option.map_eq_some_iff.1 (mem_member hm)
    rw [← hn]
    exact Json.fits_nat (Nat.lt_trans n.toNat_lt (by decide)) _
  · obtain ⟨s, _, hs⟩ := Option.map_eq_some_iff.1 (mem_member hm)
    rw [← hs]
    exact Json.fits_string _ _
  · obtain ⟨s, _, hs⟩ := Option.map_eq_some_iff.1 (mem_member hm)
    rw [← hs]
    exact Json.fits_string _ _

end Diagnostic

namespace ErrorsByFile

/-- How the errors of one file are written. -/
def listToJson (ds : List Diagnostic) : Except Json.EncodeError Json := do
  return .array (← ds.mapM Diagnostic.toJson)

theorem listToJson_eq_ok_iff {ds : List Diagnostic} {v : Json} :
    listToJson ds = .ok v ↔ ∃ vs, ds.mapM Diagnostic.toJson = .ok vs ∧ v = .array vs := by
  rw [listToJson, bind_eq_ok_iff]
  simp only [pure, Except.pure, Except.ok.injEq, eq_comm]

theorem reads_toJson : Reads toJson ofJson? := by
  have hList : Reads listToJson (Json.asList? Diagnostic.ofJson?) := by
    intro ds v h
    obtain ⟨vs, hWrite, rfl⟩ := listToJson_eq_ok_iff.1 h
    exact Json.asList?_of_mapM Diagnostic.reads_toJson hWrite
  exact reads_ofPathMap hList

theorem fits_toJson {errors : ErrorsByFile} {v : Json} (h : errors.toJson = .ok v) (depth : Nat) :
    Fits (depth + 3) v := by
  have hList : ∀ ds w, listToJson ds = .ok w → Fits (depth + 2) w := by
    intro ds w hw
    obtain ⟨vs, hWrite, rfl⟩ := listToJson_eq_ok_iff.1 hw
    exact fits_of_mapM (fun _ _ hd => Diagnostic.fits_toJson hd depth) hWrite
  exact fits_ofPathMap hList h

end ErrorsByFile

namespace Fingerprint

open Option (bind_eq_some_iff)

theorem reads_digestsToJson : Reads digestsToJson (Json.asPathMap? Json.asDigest?) := by
  refine reads_ofPathMap fun d v h => ?_
  cases h
  exact Json.asDigest?_ofDigest d

theorem fits_digestsToJson {m : PathMap Digest} {v : Json} (h : digestsToJson m = .ok v)
    (depth : Nat) : Fits (depth + 1) v := by
  refine fits_ofPathMap (fun d w hw => ?_) h
  cases hw
  exact Json.fits_string _ _

/-- The members of a fingerprint's document, with what is written of its maps and paths. -/
def members (f : Fingerprint) (configs paths locks stubs : Json) : List (String × Json) := [
  ("cache_version", .string f.cacheVersion),
  ("tool_version", .string f.toolVersion),
  ("runtime_version", .string f.runtimeVersion),
  ("config_file_hashes", configs),
  ("analysed_paths", paths),
  ("lock_file_hashes", locks),
  ("loaded_extensions", .array (f.extensions.map .string)),
  ("stub_file_hashes", stubs),
  ("level", .string f.level)]

theorem nodup_names (f : Fingerprint) (configs paths locks stubs : Json) :
    ((members f configs paths locks stubs).map (·.1)).Nodup := by
  have hNames : (members f configs paths locks stubs).map (·.1) = ["cache_version",
    "tool_version", "runtime_version", "config_file_hashes", "analysed_paths", "lock_file_hashes",
    "loaded_extensions", "stub_file_hashes", "level"] := rfl
  rw [hNames]
  decide

theorem toJson_eq_ok_iff {f : Fingerprint} {v : Json} (h : f.toJson = .ok v) :
    ∃ configs paths locks stubs, digestsToJson f.configDigests = .ok configs ∧
      Json.ofPaths f.analysedPaths = .ok paths ∧ digestsToJson f.lockDigests = .ok locks ∧
      digestsToJson f.stubDigests = .ok stubs ∧
      v = .object (members f configs paths locks stubs) := by
  rw [toJson] at h
  obtain ⟨configs, hConfigs, h⟩ := bind_eq_ok_iff.1 h
  obtain ⟨paths, hPaths, h⟩ := bind_eq_ok_iff.1 h
  obtain ⟨locks, hLocks, h⟩ := bind_eq_ok_iff.1 h
  obtain ⟨stubs, hStubs, h⟩ := bind_eq_ok_iff.1 h
  cases h
  exact ⟨configs, paths, locks, stubs, hConfigs, hPaths, hLocks, hStubs, rfl⟩

theorem reads_toJson : Reads toJson ofJson? := by
  intro f v h
  obtain ⟨configs, paths, locks, stubs, hConfigs, hPaths, hLocks, hStubs, rfl⟩ :=
    toJson_eq_ok_iff h
  have hConfigs := reads_digestsToJson _ _ hConfigs
  have hPaths := reads_ofPaths _ _ hPaths
  have hLocks := reads_digestsToJson _ _ hLocks
  have hStubs := reads_digestsToJson _ _ hStubs
  have hExtensions : Json.asList? Json.asText? (.array (f.extensions.map .string)) =
      some f.extensions := Json.asList?_map Json.string (fun _ => rfl) f.extensions
  have hField : ∀ name v, (name, v) ∈ members f configs paths locks stubs → ∀ place,
      (Record.named (Json.canonical (members f configs paths locks stubs))).field? name place =
        some v := fun _ _ => Json.field?_canonical_of_mem (nodup_names f configs paths locks stubs)
  rw [ofJson?]
  refine bind_eq_some_iff.2 ⟨_, rfl, ?_⟩
  refine bind_eq_some_iff.2 ⟨_, hField "cache_version" (.string f.cacheVersion)
    (by simp [members]) 0, ?_⟩
  refine bind_eq_some_iff.2 ⟨f.cacheVersion, rfl, ?_⟩
  refine bind_eq_some_iff.2 ⟨_, hField "tool_version" (.string f.toolVersion)
    (by simp [members]) 1, ?_⟩
  refine bind_eq_some_iff.2 ⟨f.toolVersion, rfl, ?_⟩
  refine bind_eq_some_iff.2 ⟨_, hField "runtime_version" (.string f.runtimeVersion)
    (by simp [members]) 2, ?_⟩
  refine bind_eq_some_iff.2 ⟨f.runtimeVersion, rfl, ?_⟩
  refine bind_eq_some_iff.2 ⟨_, hField "config_file_hashes" configs (by simp [members]) 3, ?_⟩
  refine bind_eq_some_iff.2 ⟨_, hConfigs, ?_⟩
  refine bind_eq_some_iff.2 ⟨_, hField "analysed_paths" paths (by simp [members]) 4, ?_⟩
  refine bind_eq_some_iff.2 ⟨_, hPaths, ?_⟩
  refine bind_eq_some_iff.2 ⟨_, hField "lock_file_hashes" locks (by simp [members]) 5, ?_⟩
  refine bind_eq_some_iff.2 ⟨_, hLocks, ?_⟩
  refine bind_eq_some_iff.2 ⟨_, hField "loaded_extensions" (.array (f.extensions.map .string))
    (by simp [members]) 6, ?_⟩
  refine bind_eq_some_iff.2 ⟨_, hExtensions, ?_⟩
  refine bind_eq_some_iff.2 ⟨_, hField "stub_file_hashes" stubs (by simp [members]) 7, ?_⟩
  refine bind_eq_some_iff.2 ⟨_, hStubs, ?_⟩
  refine bind_eq_some_iff.2 ⟨_, hField "level" (.string f.level) (by simp [members]) 8, ?_⟩
  refine bind_eq_some_iff.2 ⟨f.level, rfl, ?_⟩
  rfl

theorem fits_toJson {f : Fingerprint} {v : Json} (h : f.toJson = .ok v) (depth : Nat) :
    Fits (depth + 2) v := by
  obtain ⟨configs, paths, locks, stubs, hConfigs, hPaths, hLocks, hStubs, rfl⟩ :=
    toJson_eq_ok_iff h
  refine fits_object fun m hm => ?_
  simp only [members, List.mem_cons, List.not_mem_nil, or_false] at hm
  rcases hm with rfl | rfl | rfl | rfl | rfl | rfl | rfl | rfl | rfl
  · exact Json.fits_string _ _
  · exact Json.fits_string _ _
  · exact Json.fits_string _ _
  · exact fits_digestsToJson hConfigs depth
  · exact fits_ofPaths hPaths depth
  · exact fits_digestsToJson hLocks depth
  · refine fits_array fun v hv => ?_
    obtain ⟨s, _, rfl⟩ := List.mem_map.1 hv
    exact Json.fits_string _ _
  · exact fits_digestsToJson hStubs depth
  · exact Json.fits_string _ _

end Fingerprint

namespace Snapshot

theorem toJson_eq_ok_iff {s : Snapshot} {v : Json} (h : s.toJson = .ok v) :
    ∃ fingerprint errors dependents, s.fingerprint.toJson = .ok fingerprint ∧
      s.errors.toJson = .ok errors ∧ s.dependents.toJson = .ok dependents ∧
      v = .object [
        ("last_full_analysis_time", Json.nat s.lastFull.toNat),
        ("meta", fingerprint),
        ("errors", errors),
        ("dependencies", dependents)] := by
  rw [toJson] at h
  obtain ⟨fingerprint, hFingerprint, h⟩ := bind_eq_ok_iff.1 h
  obtain ⟨errors, hErrors, h⟩ := bind_eq_ok_iff.1 h
  obtain ⟨dependents, hDependents, h⟩ := bind_eq_ok_iff.1 h
  cases h
  exact ⟨fingerprint, errors, dependents, hFingerprint, hErrors, hDependents, rfl⟩

/-- Among the members of the document there is none that does not belong there. -/
theorem asClosedRecord?_object {names : List String} {members : List (String × Json)}
    (h : ∀ m ∈ members, m.1 ∈ names) :
    Json.asClosedRecord? names (.object members) = some (.named (Json.canonical members)) := by
  have hAll : ((Json.canonical members).all fun m => names.contains m.1) = true := by
    rw [List.all_eq_true]
    intro m hm
    rw [List.contains_iff_mem]
    exact h m (mem_of_mem_canonical hm)
  show (if _ then _ else _) = _
  rw [if_pos hAll]

theorem reads_toJson : Reads toJson ofJson? := by
  intro s v h
  obtain ⟨fingerprint, errors, dependents, hFingerprint, hErrors, hDependents, rfl⟩ :=
    toJson_eq_ok_iff h
  have hFingerprint := Fingerprint.reads_toJson _ _ hFingerprint
  have hErrors := ErrorsByFile.reads_toJson _ _ hErrors
  have hDependents : DependentGraph.ofJson? dependents = some s.dependents :=
    reads_ofPathMap Dependents.reads_toJson _ _ hDependents
  have hLastFull : Json.asNatBelow? UInt64.size (Json.nat s.lastFull.toNat) =
      some s.lastFull.toNat := by
    rw [Json.nat, Json.asNatBelow?, if_pos s.lastFull.toNat_lt]
  rw [ofJson?, asClosedRecord?_object (by simp)]
  simp [field?_canonical, hFingerprint, hErrors, hDependents, hLastFull]

theorem fits_toJson {s : Snapshot} {v : Json} (h : s.toJson = .ok v) (depth : Nat) :
    Fits (depth + 4) v := by
  obtain ⟨fingerprint, errors, dependents, hFingerprint, hErrors, hDependents, rfl⟩ :=
    toJson_eq_ok_iff h
  refine fits_object fun m hm => ?_
  simp only [List.mem_cons, List.not_mem_nil, or_false] at hm
  rcases hm with rfl | rfl | rfl | rfl
  · exact Json.fits_nat s.lastFull.toNat_lt _
  · exact Fingerprint.fits_toJson hFingerprint (depth + 1)
  · exact ErrorsByFile.fits_toJson hErrors depth
  · exact fits_ofPathMap (fun _ _ hd => Dependents.fits_toJson hd depth) hDependents

end Snapshot

end AnalysisCache
