import AnalysisCache.Proofs.Path.Text
import AnalysisCache.Proofs.Snapshot.Store

/-!
# Which snapshots can be written

A snapshot can be written exactly if all its paths are text: those of its fingerprint, those that
its errors and dependents are listed under, and those that an error or a list of dependents names.
Nothing else in it keeps it from being written, whatever characters its texts are made of.

* `Snapshot.encodes_toJson`: a snapshot has a document exactly if its paths are text.
* `Snapshot.load_save`: what is saved is loaded, and a path that is no text is never saved.
-/

namespace AnalysisCache

open Json (bind_eq_ok_iff)

/-! ## The paths of what is written -/

/-- The paths of a map: its keys, and those of its values. -/
def PathMap.paths {α : Type} (inner : α → List Path) (m : PathMap α) : List Path :=
  m.entries.flatMap fun e => e.1 :: inner e.2

/-- The file that a diagnostic is about, if it is about one. -/
def Diagnostic.paths (d : Diagnostic) : List Path := d.file.toList

def ErrorsByFile.paths (errors : ErrorsByFile) : List Path :=
  PathMap.paths (fun ds => ds.flatMap Diagnostic.paths) errors

def DependentGraph.paths (g : DependentGraph) : List Path := PathMap.paths Dependents.files g

def Fingerprint.paths (f : Fingerprint) : List Path :=
  f.configDigests.keys ++ f.analysedPaths ++ f.lockDigests.keys ++ f.stubDigests.keys

def Snapshot.paths (s : Snapshot) : List Path :=
  s.fingerprint.paths ++ s.errors.paths ++ s.dependents.paths

/-! ## What can be written in each shape -/

namespace Json

variable {α β ε : Type}

/-- Whether a value can be written exactly if its paths are text. -/
def Encodes (write : α → Except EncodeError Json) (paths : α → List Path) : Prop :=
  ∀ a, (∃ v, write a = .ok v) ↔ ∀ p ∈ paths a, p.IsText

theorem exists_bind_eq_ok_iff {x : Except ε α} {f : α → Except ε β} :
    (∃ b, (x >>= f) = .ok b) ↔ ∃ a, x = .ok a ∧ ∃ b, f a = .ok b := by
  constructor
  · rintro ⟨b, h⟩
    obtain ⟨a, ha, hb⟩ := bind_eq_ok_iff.1 h
    exact ⟨a, ha, b, hb⟩
  · rintro ⟨a, ha, b, hb⟩
    exact ⟨b, bind_eq_ok_iff.2 ⟨a, ha, hb⟩⟩

theorem exists_pure_eq_ok (a : α) : ∃ b, (pure a : Except ε α) = .ok b := ⟨a, rfl⟩

theorem exists_mapM_eq_ok_iff {f : α → Except ε β} {l : List α} :
    (∃ r, l.mapM f = .ok r) ↔ ∀ a ∈ l, ∃ b, f a = .ok b := by
  induction l with
  | nil => simp [pure, Except.pure]
  | cons a rest ih =>
    rw [List.mapM_cons, exists_bind_eq_ok_iff, List.forall_mem_cons, ← ih]
    constructor
    · rintro ⟨b, hFirst, hRest⟩
      obtain ⟨bs, hRest, _⟩ := exists_bind_eq_ok_iff.1 hRest
      exact ⟨⟨b, hFirst⟩, bs, hRest⟩
    · rintro ⟨⟨b, hFirst⟩, bs, hRest⟩
      exact ⟨b, hFirst, exists_bind_eq_ok_iff.2 ⟨bs, hRest, b :: bs, rfl⟩⟩

theorem forall_mem_flatMap_iff {l : List α} {f : α → List Path} :
    (∀ p ∈ l.flatMap f, p.IsText) ↔ ∀ a ∈ l, ∀ p ∈ f a, p.IsText := by
  simp only [List.mem_flatMap]
  exact ⟨fun h a ha p hp => h p ⟨a, ha, hp⟩, fun h p ⟨a, ha, hp⟩ => h a ha p hp⟩

theorem encodes_ofPath : Encodes ofPath fun p => [p] := by
  intro p
  rw [List.forall_mem_singleton, ofPath, Path.IsText]
  cases p.text? <;> simp

theorem encodes_array {write : α → Except EncodeError Json} {paths : α → List Path}
    (h : Encodes write paths) :
    Encodes (fun l : List α => do return .array (← l.mapM write)) fun l => l.flatMap paths := by
  intro l
  have hItems : (∃ vs, l.mapM write = .ok vs) ↔ ∀ a ∈ l, ∀ p ∈ paths a, p.IsText := by
    rw [exists_mapM_eq_ok_iff]
    exact forall_congr' fun a => forall_congr' fun _ => h a
  rw [exists_bind_eq_ok_iff, forall_mem_flatMap_iff, ← hItems]
  exact exists_congr fun vs => and_iff_left (exists_pure_eq_ok _)

theorem encodes_ofPaths : Encodes ofPaths fun ps => ps := by
  intro ps
  have h := encodes_array encodes_ofPath ps
  beta_reduce at h
  rwa [List.flatMap_singleton'] at h

/-- An entry of a map can be written exactly if its key and the paths of its value are text. -/
theorem encodes_ofPathMap {write : α → Except EncodeError Json} {paths : α → List Path}
    (h : Encodes write paths) : Encodes (ofPathMap write) (PathMap.paths paths) := by
  intro m
  rw [ofPathMap, exists_bind_eq_ok_iff]
  refine (exists_congr fun members => and_iff_left (exists_pure_eq_ok _)).trans ?_
  rw [exists_mapM_eq_ok_iff, PathMap.paths, forall_mem_flatMap_iff]
  -- What is left is one entry: its key and its value.
  refine forall_congr' fun e => forall_congr' fun _ => ?_
  rw [List.forall_mem_cons, ← h e.2, Path.IsText]
  cases e.1.text? with
  | none => simp
  | some s => cases write e.2 <;> simp [Except.map]

end Json

/-! ## What can be written of a snapshot -/

open Json (Encodes exists_bind_eq_ok_iff exists_pure_eq_ok encodes_ofPath encodes_ofPaths
  encodes_array encodes_ofPathMap)

theorem Dependents.encodes_toJson : Encodes toJson files := by
  intro d
  rw [toJson, exists_bind_eq_ok_iff, ← encodes_ofPaths d.files]
  exact exists_congr fun files => and_iff_left (exists_pure_eq_ok _)

theorem DependentGraph.encodes_toJson : Encodes toJson paths :=
  encodes_ofPathMap Dependents.encodes_toJson

theorem Diagnostic.encodes_toJson : Encodes toJson paths := by
  intro d
  have hFile : (∃ v, d.file.mapM Json.ofPath = .ok v) ↔ ∀ p ∈ d.paths, p.IsText := by
    rw [paths]
    cases d.file with
    | none => simp [pure, Except.pure]
    | some p =>
      rw [Option.toList_some, ← encodes_ofPath p, Option.mapM_some]
      cases Json.ofPath p <;> simp [Functor.map, Except.map]
  rw [toJson, exists_bind_eq_ok_iff, ← hFile]
  exact exists_congr fun file => and_iff_left (exists_pure_eq_ok _)

theorem ErrorsByFile.encodes_toJson : Encodes toJson paths :=
  encodes_ofPathMap (encodes_array Diagnostic.encodes_toJson)

theorem Fingerprint.encodes_digestsToJson : Encodes digestsToJson PathMap.keys := by
  have h : Encodes digestsToJson (PathMap.paths fun _ => []) :=
    encodes_ofPathMap fun d => by simp
  intro m
  rw [h m, PathMap.paths, PathMap.keys, List.map_eq_flatMap]

theorem Fingerprint.encodes_toJson : Encodes toJson paths := by
  intro f
  have hConfigs := encodes_digestsToJson f.configDigests
  have hPaths := encodes_ofPaths f.analysedPaths
  have hLocks := encodes_digestsToJson f.lockDigests
  have hStubs := encodes_digestsToJson f.stubDigests
  simp only [toJson, exists_bind_eq_ok_iff, exists_pure_eq_ok, and_true, exists_and_right, hConfigs,
    hPaths, hLocks, hStubs, paths, List.forall_mem_append, and_assoc]

namespace Snapshot

theorem encodes_toJson : Encodes toJson paths := by
  intro s
  have hFingerprint := s.fingerprint.encodes_toJson
  have hErrors := s.errors.encodes_toJson
  have hDependents := s.dependents.encodes_toJson
  simp only [toJson, exists_bind_eq_ok_iff, exists_pure_eq_ok, and_true, exists_and_right,
    hFingerprint, hErrors, hDependents, paths, List.forall_mem_append, and_assoc]

theorem exists_text_iff {s : Snapshot} :
    (∃ text, s.text = .ok text) ↔ ∀ p ∈ s.paths, p.IsText := by
  rw [← encodes_toJson s, text, exists_bind_eq_ok_iff]
  exact exists_congr fun v => and_iff_left (exists_pure_eq_ok _)

theorem text_eq_error_iff {s : Snapshot} :
    s.text = .error .pathNotText ↔ ∃ p ∈ s.paths, p.text? = none := by
  have hNone : (∃ p ∈ s.paths, p.text? = none) ↔ ¬ ∃ text, s.text = .ok text := by
    rw [exists_text_iff]
    simp only [← Path.not_isText_iff, not_forall, exists_prop]
  rw [hNone]
  cases s.text with
  | ok text => simp
  | error e => cases e; simp

/-- Once there is a directory for it, whether a snapshot is refused for a path that is no text. -/
theorem save_eq_encoding_iff {t : FileTree} {p : Path} {s : Snapshot}
    (hRoom : (makeRoom t p).2 = .ok ()) :
    (save t p s).2 = .error (.encoding .pathNotText) ↔ ∃ q ∈ s.paths, q.text? = none := by
  rw [← text_eq_error_iff, save]
  rcases hMade : makeRoom t p with ⟨u, outcome⟩
  rw [hMade] at hRoom
  subst hRoom
  dsimp only
  cases s.text with
  | error e => simp
  | ok text =>
    dsimp only
    split <;> simp

/-- Loading undoes saving, and leaves the files as they are. What cannot be saved is a snapshot with
a path that is no text, which is refused if there is a directory for it. -/
theorem load_save (t : FileTree) (p : Path) (s : Snapshot) :
    ((save t p s).2 = .ok () → load (save t p s).1 p = ((save t p s).1, some s)) ∧
      ((makeRoom t p).2 = .ok () →
        ((save t p s).2 = .error (.encoding .pathNotText) ↔ ∃ q ∈ s.paths, q.text? = none)) :=
  ⟨fun h => load_of_save (Prod.ext rfl h) rfl, save_eq_encoding_iff⟩

/-! ### A snapshot with odd texts -/

/-- An error about a file of which every text needs care: it has quotes, backslashes, control
characters, and characters of more than one byte. -/
def oddError (file : Path) : Diagnostic :=
  ⟨.error, "\"\\\n\x01é𝄞", some file, some 4294967295, none, some "\t/\x7f"⟩

/-- A snapshot with that error, with the latest time, and with dependents in no order. -/
def odd (file : Path) : Snapshot where
  lastFull := 18446744073709551615
  fingerprint := ⟨"", "\\", "\"", .empty, [file, .ofText "./a//"], .empty, ["", "\x00"], .empty, "é"⟩
  errors := .ofList [(.ofText "b", []), (.ofText "a.b", [oddError file]), (.ofText "a/b", [])]
  dependents := .ofList [(.ofText "\"", ⟨.ofSource [], [.ofText "b", .ofText "a", .ofText "b"]⟩)]

theorem load_save_odd :
    (save .empty (.ofText "c/d.json") (odd (.ofText "\"/é"))).2 = .ok () ∧
      load (save .empty (.ofText "c/d.json") (odd (.ofText "\"/é"))).1 (.ofText "c/d.json") =
        ((save .empty (.ofText "c/d.json") (odd (.ofText "\"/é"))).1,
          some (odd (.ofText "\"/é"))) ∧
      (makeRoom .empty (.ofText "c/d.json")).2 = .ok () ∧
      (save .empty (.ofText "c/d.json") (odd ⟨[0xFF]⟩)).2 = .error (.encoding .pathNotText) := by
  have hSave : (save .empty (.ofText "c/d.json") (odd (.ofText "\"/é"))).2 = .ok () := by
    decide +kernel
  have hRoom : (makeRoom .empty (.ofText "c/d.json")).2 = .ok () := by decide +kernel
  have hPath : ∃ q ∈ (odd ⟨[0xFF]⟩).paths, q.text? = none := ⟨⟨[0xFF]⟩, by decide, by decide⟩
  exact ⟨hSave, (load_save _ _ _).1 hSave, hRoom, ((load_save _ _ _).2 hRoom).2 hPath⟩

end Snapshot

end AnalysisCache
