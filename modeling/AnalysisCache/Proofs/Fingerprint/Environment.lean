import AnalysisCache.Plan.Basic
import AnalysisCache.Proofs.Fingerprint.Inputs

/-!
# Fingerprints and environments

Two runs have the same fingerprint exactly if all that bears on them apart from the analysed files
is the same: the version of the tool, the runtime, the level, the analysed paths in their order, the
extensions in any order, and the digests of the configuration, lock and stub files that can be read.
How often and in which order such a file is listed does not matter.

* `Fingerprint.collects_digests`: what a list of files leaves in a fingerprint, whatever the memo
  knows already.
* `Fingerprint.mem_differences_iff`: the fields that are named are those that differ.
* `Fingerprint.same_iff_sameEnvironment`: the fingerprints of two runs, and what follows for a
  snapshot that is used again.
-/

namespace AnalysisCache

namespace Fingerprint

/-! ## Fingerprints that agree -/

theorem sameDigests_iff {m n : PathMap Digest} :
    sameDigests m n = true ↔ ∀ p, m.get? p = n.get? p := by
  constructor
  · intro h p
    have hGet : ∀ {m n : PathMap Digest}, sameDigests m n = true → ∀ {d}, m.get? p = some d →
        n.get? p = some d := by
      intro m n h d hd
      obtain ⟨e, he, hEq⟩ := PathMap.exists_get?_of_sameBy h hd
      rw [of_decide_eq_true hEq]
      exact he
    have hSymm : sameDigests n m = true :=
      PathMap.sameBy_symm (fun d e hEq => by simpa [eq_comm] using hEq) h
    exact Option.ext fun d => ⟨hGet h, hGet hSymm⟩
  · intro h
    have hEntries : List.Forall₂ (fun x y => x.1.same y.1 = true ∧ x.2 = y.2) m.entries
        n.entries := by
      refine PathMap.forall₂_entries_of_get? fun p => ?_
      rw [h p]
      cases n.get? p with
      | none => exact .none
      | some d => exact .some rfl
    exact PathMap.sameBy_iff.2 (hEntries.imp fun _ _ hEq => ⟨hEq.1, decide_eq_true hEq.2⟩)

theorem samePaths_iff {ps qs : List Path} : samePaths ps qs = true ↔ SamePaths ps qs := by
  induction ps generalizing qs with
  | nil => cases qs <;> simp [samePaths, SamePaths]
  | cons p ps ih =>
    cases qs with
    | nil => simp [samePaths, SamePaths]
    | cons q qs =>
      rw [samePaths, Bool.and_eq_true, ih]
      exact (List.forall₂_cons (R := fun p q => Path.same p q = true)).symm

theorem sortedNames_perm (xs : List String) : (sortedNames xs).Perm xs := List.mergeSort_perm xs _

theorem sortedNames_eq_iff {xs ys : List String} :
    sortedNames xs = sortedNames ys ↔ xs.Perm ys := by
  constructor
  · intro h
    have hPerm := sortedNames_perm xs
    rw [h] at hPerm
    exact hPerm.symm.trans (sortedNames_perm ys)
  · intro h
    have hLe : ∀ a b : String, (!decide (b < a)) = true ↔ a ≤ b := by
      intro a b
      rw [Bool.not_eq_true', decide_eq_false_iff_not, String.not_lt]
    have hSorted : ∀ names, (sortedNames names).Pairwise fun a b => a ≤ b := by
      intro names
      have hTrans : ∀ a b c : String, (!decide (b < a)) = true → (!decide (c < b)) = true →
          (!decide (c < a)) = true := by
        intro a b c hab hbc
        rw [hLe] at hab hbc ⊢
        exact String.le_trans hab hbc
      have hTotal : ∀ a b : String, (!decide (b < a) || !decide (a < b)) = true := by
        intro a b
        rw [Bool.or_eq_true, hLe, hLe]
        exact String.le_total a b
      exact (List.pairwise_mergeSort hTrans hTotal names).imp fun h => (hLe _ _).1 h
    have hPerm := (sortedNames_perm xs).trans (h.trans (sortedNames_perm ys).symm)
    exact hPerm.eq_of_pairwise (fun a b _ _ => String.le_antisymm) (hSorted xs) (hSorted ys)

/-- The names of the fields in which two fingerprints differ. -/
inductive Differs (f g : Fingerprint) : String → Prop where
  | cacheVersion (h : f.cacheVersion ≠ g.cacheVersion) : Differs f g "cache_version"
  | toolVersion (h : f.toolVersion ≠ g.toolVersion) : Differs f g "tool_version"
  | runtimeVersion (h : f.runtimeVersion ≠ g.runtimeVersion) : Differs f g "runtime_version"
  | configDigests (h : ∃ p, f.configDigests.get? p ≠ g.configDigests.get? p) :
      Differs f g "config_file_hashes"
  | analysedPaths (h : ¬ SamePaths f.analysedPaths g.analysedPaths) : Differs f g "analysed_paths"
  | lockDigests (h : ∃ p, f.lockDigests.get? p ≠ g.lockDigests.get? p) :
      Differs f g "lock_file_hashes"
  | extensions (h : f.extensions ≠ g.extensions) : Differs f g "loaded_extensions"
  | stubDigests (h : ∃ p, f.stubDigests.get? p ≠ g.stubDigests.get? p) :
      Differs f g "stub_file_hashes"
  | level (h : f.level ≠ g.level) : Differs f g "level"

theorem sameDigests_eq_false_iff {m n : PathMap Digest} :
    sameDigests m n = false ↔ ∃ p, m.get? p ≠ n.get? p := by
  rw [← Bool.not_eq_true, sameDigests_iff, not_forall]

theorem samePaths_eq_false_iff {ps qs : List Path} :
    samePaths ps qs = false ↔ ¬ SamePaths ps qs := by
  rw [← Bool.not_eq_true, samePaths_iff]

theorem mem_differences_iff_agreements {f g : Fingerprint} {name : String} :
    name ∈ f.differences g ↔ (name, false) ∈ agreements f g := by
  simp [differences]

theorem mem_differences_iff {f g : Fingerprint} {name : String} :
    name ∈ f.differences g ↔ Differs f g name := by
  rw [mem_differences_iff_agreements, agreements]
  simp only [List.mem_cons, Prod.mk.injEq, List.not_mem_nil, or_false, @eq_comm Bool false,
    decide_eq_false_iff_not, sameDigests_eq_false_iff, samePaths_eq_false_iff]
  constructor
  · rintro (⟨rfl, h⟩ | ⟨rfl, h⟩ | ⟨rfl, h⟩ | ⟨rfl, h⟩ | ⟨rfl, h⟩ | ⟨rfl, h⟩ | ⟨rfl, h⟩ | ⟨rfl, h⟩ |
      ⟨rfl, h⟩)
    · exact .cacheVersion h
    · exact .toolVersion h
    · exact .runtimeVersion h
    · exact .configDigests h
    · exact .analysedPaths h
    · exact .lockDigests h
    · exact .extensions h
    · exact .stubDigests h
    · exact .level h
  · rintro (h | h | h | h | h | h | h | h | h) <;> simp [h]

theorem differences_eq_nil_iff {f g : Fingerprint} : f.differences g = [] ↔ f.same g = true := by
  simp only [differences, agreements, same, List.filterMap_eq_nil_iff, List.forall_mem_cons,
    Bool.and_eq_true, decide_eq_true_eq]
  simp only [ite_eq_left_iff, reduceCtorEq, imp_false, not_not]
  simp [and_assoc]

/-! ## The digests of listed files -/

/-- Whether a list has a spelling of a path, and the file there has the given digest. -/
def Listed (t : FileTree) (ps : List Path) (p : Path) (d : Digest) : Prop :=
  ∃ q ∈ ps, q.same p = true ∧ t.digest? q = some d

theorem listed_append_iff {t : FileTree} {ps qs : List Path} {p : Path} {d : Digest} :
    Listed t (ps ++ qs) p d ↔ Listed t ps p d ∨ Listed t qs p d := by
  simp only [Listed, List.mem_append, or_and_right, exists_or]

theorem listed_singleton_iff {t : FileTree} {p q : Path} {d : Digest} :
    Listed t [q] p d ↔ q.same p = true ∧ t.digest? q = some d := by
  simp [Listed]

theorem listed_congr {t : FileTree} {ps qs : List Path} (h : ∀ p, p ∈ ps ↔ p ∈ qs) {p : Path}
    {d : Digest} : Listed t ps p d ↔ Listed t qs p d := by
  simp only [Listed, h]

/-- Whether a map holds exactly the digests of the listed files. -/
def Collects (t : FileTree) (ps : List Path) (found : PathMap Digest) : Prop :=
  ∀ p d, found.get? p = some d ↔ Listed t ps p d

theorem collects_nil (t : FileTree) : Collects t [] .empty := by
  intro p d
  simp [Listed]

theorem Collects.insert {t : FileTree} {ps : List Path} {found : PathMap Digest} {q : Path}
    {d : Digest} (h : Collects t ps found) (hd : t.digest? q = some d) :
    Collects t (ps ++ [q]) (found.insert q d) := by
  intro p e
  rw [PathMap.get?_insert, listed_append_iff, listed_singleton_iff, hd, ← h p e]
  split
  · rename_i hSame
    constructor
    · exact fun hEq => .inr ⟨hSame, hEq⟩
    · rintro (hOld | ⟨_, hEq⟩)
      · -- The file was listed before, and it has one digest under all spellings.
        obtain ⟨r, _, hr, he⟩ := (h p e).1 hOld
        have hBoth : r.same q = true := Path.same_trans hr (Path.same_symm hSame)
        have hq := FileTree.addressable_of_isFile (FileTree.isFile_of_digest? hd)
        rw [← hd, FileTree.digest?_of_same hq (Path.same_symm hBoth) he]
      · exact hEq
  · rename_i hNot
    simp [hNot]

theorem Collects.skip {t : FileTree} {ps : List Path} {found : PathMap Digest} {q : Path}
    (h : Collects t ps found) (hNone : t.digest? q = none) : Collects t (ps ++ [q]) found := by
  intro p e
  rw [listed_append_iff, listed_singleton_iff, hNone, ← h p e]
  simp

theorem collects_digests {t : FileTree} {ps done : List Path} {m : Memo} {found : PathMap Digest}
    (hm : m.Current t) (hPlain : ∀ p ∈ ps, t.Plain p) (h : Collects t done found) :
    Collects t (done ++ ps) (digests t.read ps m found).2 := by
  induction ps generalizing m done found with
  | nil => rwa [List.append_nil]
  | cons p rest ih =>
    have hRest : ∀ q ∈ rest, t.Plain q := fun q hq => hPlain q (List.mem_cons_of_mem p hq)
    have hAnswer : ∀ d, (m.digestFrom t.read p).2 = .ok d ↔ t.digest? p = some d :=
      fun d => Memo.digest_eq_ok_iff_of_plain hm (hPlain p List.mem_cons_self)
    have hm' : (m.digestFrom t.read p).1.Current t := (Memo.grows_digest t m p).current hm
    rw [digests, List.append_cons]
    cases hDigest : m.digestFrom t.read p with
    | mk m' outcome =>
      rw [hDigest] at hAnswer hm'
      cases outcome with
      | ok d => exact ih hm' hRest (h.insert ((hAnswer d).1 rfl))
      | error e =>
        have hNone : t.digest? p = none := by
          refine Option.eq_none_iff_forall_ne_some.2 fun d hd => ?_
          cases (hAnswer d).2 hd
        exact ih hm' hRest (h.skip hNone)

theorem get?_eq_iff_of_collects {t u : FileTree} {ps qs : List Path} {found there : PathMap Digest}
    (h : Collects t ps found) (k : Collects u qs there) :
    (∀ p, found.get? p = there.get? p) ↔ ∀ p d, Listed t ps p d ↔ Listed u qs p d := by
  simp only [← h _ _, ← k _ _]
  exact ⟨fun hEq p d => by rw [hEq], fun hEq p => Option.ext fun d => hEq p d⟩

/-- What the three lists of files leave in a fingerprint. -/
theorem collects_ofSettings {t : FileTree} {m : Memo} {s : Settings} (hm : m.Current t)
    (hPlain : ∀ p ∈ inputs s, t.Plain p) :
    Collects t s.configFiles (ofSettings t m s).2.configDigests ∧
      Collects t (s.lockFiles.filter t.isFile) (ofSettings t m s).2.lockDigests ∧
      Collects t s.stubFiles (ofSettings t m s).2.stubDigests := by
  simp only [inputs, List.mem_append] at hPlain
  have hConfigs := (grows_digests t s.configFiles m .empty).current hm
  have hLocks := (grows_digests t (s.lockFiles.filter t.isFile) _ .empty).current hConfigs
  refine ⟨collects_digests hm (fun p hp => hPlain p (.inl (.inl hp))) (collects_nil t),
    collects_digests hConfigs (fun p hp => ?_) (collects_nil t),
    collects_digests hLocks (fun p hp => hPlain p (.inr hp)) (collects_nil t)⟩
  exact hPlain p (.inl (.inr (List.mem_filter.1 hp).1))

/-! ## The environments of two runs -/

/-- Whether two runs have everything in common that bears on them apart from the analysed files. -/
structure SameEnvironment (t : FileTree) (s : Settings) (u : FileTree) (s' : Settings) :
    Prop where
  toolVersion : (s.toolVersion.filter fun v => !isBlank v).getD "Version unknown" =
    (s'.toolVersion.filter fun v => !isBlank v).getD "Version unknown"
  runtimeVersion : s.runtimeVersion = s'.runtimeVersion
  level : s.level = s'.level
  analysedPaths : SamePaths s.analysedPaths s'.analysedPaths
  extensions : s.extensions.Perm s'.extensions
  configFiles : ∀ p d, Listed t s.configFiles p d ↔ Listed u s'.configFiles p d
  lockFiles : ∀ p d,
    Listed t (s.lockFiles.filter t.isFile) p d ↔ Listed u (s'.lockFiles.filter u.isFile) p d
  stubFiles : ∀ p d, Listed t s.stubFiles p d ↔ Listed u s'.stubFiles p d

theorem versionOf_eq (v : Option String) :
    versionOf v = (v.filter fun v => !isBlank v).getD "Version unknown" := by
  cases v with
  | none => rfl
  | some v =>
    rw [versionOf]
    cases hBlank : isBlank v <;> simp [Option.filter, hBlank, unknownVersion]

theorem same_ofSettings_iff {t u : FileTree} {m n : Memo} {s s' : Settings} (hm : m.Current t)
    (hn : n.Current u) (hPlain : ∀ p ∈ inputs s, t.Plain p) (hPlain' : ∀ p ∈ inputs s', u.Plain p) :
    (ofSettings t m s).2.same (ofSettings u n s').2 = true ↔ SameEnvironment t s u s' := by
  obtain ⟨hConfigs, hLocks, hStubs⟩ := collects_ofSettings hm hPlain
  obtain ⟨hConfigs', hLocks', hStubs'⟩ := collects_ofSettings hn hPlain'
  simp only [same, Bool.and_eq_true, decide_eq_true_eq, sameDigests_iff,
    get?_eq_iff_of_collects hConfigs hConfigs', get?_eq_iff_of_collects hLocks hLocks',
    get?_eq_iff_of_collects hStubs hStubs']
  simp only [ofSettings, ofSettingsFrom, samePaths_iff, sortedNames_eq_iff, versionOf_eq, true_and]
  constructor
  · rintro ⟨⟨⟨⟨⟨⟨⟨hTool, hRuntime⟩, hConfig⟩, hPaths⟩, hLock⟩, hExtensions⟩, hStub⟩, hLevel⟩
    exact ⟨hTool, hRuntime, hLevel, hPaths, hExtensions, hConfig, hLock, hStub⟩
  · rintro ⟨hTool, hRuntime, hLevel, hPaths, hExtensions, hConfig, hLock, hStub⟩
    exact ⟨⟨⟨⟨⟨⟨⟨hTool, hRuntime⟩, hConfig⟩, hPaths⟩, hLock⟩, hExtensions⟩, hStub⟩, hLevel⟩

/-- Whether settings tell the same, with files listed in another order or more than once, and the
extensions in another order. -/
structure Rearranged (s s' : Settings) : Prop where
  configFiles : ∀ p, p ∈ s.configFiles ↔ p ∈ s'.configFiles
  lockFiles : ∀ p, p ∈ s.lockFiles ↔ p ∈ s'.lockFiles
  stubFiles : ∀ p, p ∈ s.stubFiles ↔ p ∈ s'.stubFiles
  extensions : s.extensions.Perm s'.extensions
  analysedPaths : s.analysedPaths = s'.analysedPaths
  runtimeVersion : s.runtimeVersion = s'.runtimeVersion
  level : s.level = s'.level
  toolVersion : s.toolVersion = s'.toolVersion

theorem listed_iff_of_digest?_eq {t u : FileTree} {ps qs : List Path}
    (hMem : ∀ p, p ∈ ps ↔ p ∈ qs) (h : ∀ p ∈ ps, t.digest? p = u.digest? p) (p : Path)
    (d : Digest) : Listed t ps p d ↔ Listed u qs p d := by
  rw [← listed_congr hMem]
  exact exists_congr fun q => and_congr_right fun hq => by rw [h q hq]

theorem listed_iff_of_mem {t : FileTree} {ps : List Path} {p : Path} (hp : p ∈ ps)
    (hPlain : t.Plain p) {d : Digest} : Listed t ps p d ↔ t.digest? p = some d := by
  constructor
  · rintro ⟨q, _, hSame, hd⟩
    have hFile : t.isFile p = true := hPlain q hSame (FileTree.isFile_of_digest? hd)
    exact FileTree.digest?_of_same (FileTree.addressable_of_isFile hFile) (Path.same_symm hSame) hd
  · exact fun hd => ⟨p, hp, Path.same_self p, hd⟩

theorem digest?_eq_of_listed {t u : FileTree} {ps qs : List Path} (hMem : ∀ p, p ∈ ps ↔ p ∈ qs)
    (hPlain : ∀ p ∈ ps, t.Plain p) (hPlain' : ∀ p ∈ qs, u.Plain p)
    (h : ∀ p d, Listed t ps p d ↔ Listed u qs p d) : ∀ p ∈ ps, t.digest? p = u.digest? p := by
  intro p hp
  have hq : p ∈ qs := (hMem p).1 hp
  refine Option.ext fun d => ?_
  rw [← listed_iff_of_mem hp (hPlain p hp), h p d, listed_iff_of_mem hq (hPlain' p hq)]

theorem listed_filter_isFile {t : FileTree} {ps : List Path} {p : Path} {d : Digest} :
    Listed t (ps.filter t.isFile) p d ↔ Listed t ps p d := by
  refine exists_congr fun q => ?_
  rw [List.mem_filter]
  exact ⟨fun ⟨hq, hRest⟩ => ⟨hq.1, hRest⟩,
    fun ⟨hq, hSame, hd⟩ => ⟨⟨hq, FileTree.isFile_of_digest? hd⟩, hSame, hd⟩⟩

/-- Under settings that tell the same, only the contents of the files matter. -/
theorem Rearranged.sameEnvironment_iff {t u : FileTree} {s s' : Settings} (h : Rearranged s s')
    (hPlain : ∀ p ∈ inputs s, t.Plain p) (hPlain' : ∀ p ∈ inputs s', u.Plain p) :
    SameEnvironment t s u s' ↔ ∀ p ∈ inputs s, t.digest? p = u.digest? p := by
  simp only [inputs, List.mem_append, or_imp, forall_and] at hPlain hPlain' ⊢
  obtain ⟨⟨hConfigs, hLocks⟩, hStubs⟩ := hPlain
  obtain ⟨⟨hConfigs', hLocks'⟩, hStubs'⟩ := hPlain'
  constructor
  · intro hSame
    refine ⟨⟨digest?_eq_of_listed h.configFiles hConfigs hConfigs' hSame.configFiles,
      digest?_eq_of_listed h.lockFiles hLocks hLocks' fun p d => ?_⟩,
      digest?_eq_of_listed h.stubFiles hStubs hStubs' hSame.stubFiles⟩
    rw [← listed_filter_isFile, hSame.lockFiles, listed_filter_isFile]
  · rintro ⟨⟨hConfig, hLock⟩, hStub⟩
    refine ⟨by rw [h.toolVersion], h.runtimeVersion, h.level, ?_, h.extensions,
      listed_iff_of_digest?_eq h.configFiles hConfig, fun p d => ?_,
      listed_iff_of_digest?_eq h.stubFiles hStub⟩
    · rw [h.analysedPaths]
      exact samePaths_iff.1 (samePaths_self _)
    · rw [listed_filter_isFile, listed_filter_isFile]
      exact listed_iff_of_digest?_eq h.lockFiles hLock p d

theorem fullReason_eq_fingerprintChanged_iff {t : FileTree} {m : Memo} {s : Snapshot}
    {f : Fingerprint} {files : List Path} {now : UInt64} :
    (Plan.ofSnapshot t m (some s) f files false now).2.fullReason = some .fingerprintChanged ↔
      s.fingerprint.same f = false := by
  cases hSame : s.fingerprint.same f with
  | false => simp [Plan.ofSnapshot, Plan.ofSnapshotFrom, hSame, Plan.full]
  | true =>
    cases hStale : Plan.isStale s.lastFull now <;>
      simp [Plan.ofSnapshot, Plan.ofSnapshotFrom, hSame, hStale, Plan.full, Plan.reuse]

/-- Two runs have the same fingerprint exactly if they have the same environment. In particular
nothing but the contents of the files matters if one run lists them in another order or more than
once. The fields said to differ are those that do, and there is none exactly if the fingerprints are
the same. A snapshot of the one run is not used by the other one for its fingerprint exactly if the
environments are different. -/
theorem same_iff_sameEnvironment {t u : FileTree} {m n : Memo} {s s' : Settings} (hm : m.Current t)
    (hn : n.Current u) (hPlain : ∀ p ∈ inputs s, t.Plain p) (hPlain' : ∀ p ∈ inputs s', u.Plain p) :
    ((ofSettings t m s).2.same (ofSettings u n s').2 = true ↔ SameEnvironment t s u s') ∧
      (Rearranged s s' → ((ofSettings t m s).2.same (ofSettings u n s').2 = true ↔
        ∀ p ∈ inputs s, t.digest? p = u.digest? p)) ∧
      (∀ f g : Fingerprint, (∀ name, name ∈ f.differences g ↔ Differs f g name) ∧
        (f.differences g = [] ↔ f.same g = true)) ∧
      ∀ (snapshot : Snapshot) (w : FileTree) (m' : Memo) (files : List Path) (now : UInt64),
        snapshot.fingerprint = (ofSettings t m s).2 →
          ((Plan.ofSnapshot w m' (some snapshot) (ofSettings u n s').2 files false now).2.fullReason
            = some .fingerprintChanged ↔ ¬ SameEnvironment t s u s') := by
  have hIff := same_ofSettings_iff hm hn hPlain hPlain'
  refine ⟨hIff, fun h => hIff.trans (h.sameEnvironment_iff hPlain hPlain'),
    fun f g => ⟨fun name => mem_differences_iff, differences_eq_nil_iff⟩,
    fun snapshot w m' files now hEq => ?_⟩
  rw [fullReason_eq_fingerprintChanged_iff, hEq, ← hIff, Bool.not_eq_true]

/-! ## Settings told in another way -/

namespace Relisted

def config : Path := .ofText "a"

def included : Path := .ofText "b"

/-- A stub file that is not there. -/
def stub : Path := .ofText "c"

def files (content : Bytes) : FileTree :=
  (FileTree.empty.set [[0x61]] (.file [1])).set [[0x62]] (.file content)

def settings (configFiles stubFiles : List Path) (extensions : List String) : Settings :=
  { Settings.ofCacheFile (.ofText "d") with configFiles, stubFiles, extensions }

def first : Settings := settings [config, included, config] [stub] ["y", "x"]

def second : Settings := settings [included, config] [stub, stub] ["x", "y"]

theorem rearranged : Rearranged first second where
  configFiles p := by simp [first, second, settings, or_comm]
  lockFiles _ := Iff.rfl
  stubFiles p := by simp [first, second, settings]
  extensions := .swap "x" "y" []
  analysedPaths := rfl
  runtimeVersion := rfl
  level := rfl
  toolVersion := rfl

theorem plain_of_mem_inputs {s : Settings} (h : ∀ p ∈ inputs s, FileTree.Addressable p)
    (t : FileTree) : ∀ p ∈ inputs s, t.Plain p :=
  fun p hp => FileTree.plain_of_addressable (h p hp)

theorem same_iff_sameEnvironment_relisted :
    Memo.empty.Current (files [2]) ∧ Memo.empty.Current (files [3]) ∧
      (∀ p ∈ inputs first, (files [2]).Plain p) ∧ (∀ p ∈ inputs second, (files [3]).Plain p) ∧
      (ofSettings (files [2]) .empty first).2.same (ofSettings (files [2]) .empty second).2 = true ∧
      (ofSettings (files [2]) .empty first).2.same (ofSettings (files [3]) .empty second).2
        = false := by
  have hCurrent := fun content => Memo.current_empty (files content)
  have hFirst := plain_of_mem_inputs (s := first) (by decide +kernel) (files [2])
  have hSecond := fun content =>
    plain_of_mem_inputs (s := second) (by decide +kernel) (files content)
  refine ⟨hCurrent [2], hCurrent [3], hFirst, hSecond [3], ?_, ?_⟩
  · obtain ⟨-, hIff, -⟩ :=
      same_iff_sameEnvironment (hCurrent [2]) (hCurrent [2]) hFirst (hSecond [2])
    exact (hIff rearranged).2 fun _ _ => rfl
  · obtain ⟨-, hIff, -⟩ :=
      same_iff_sameEnvironment (hCurrent [2]) (hCurrent [3]) hFirst (hSecond [3])
    rw [← Bool.not_eq_true, hIff rearranged]
    intro hSame
    exact absurd (hSame included (by decide)) (by decide +kernel)

end Relisted

end Fingerprint

end AnalysisCache
