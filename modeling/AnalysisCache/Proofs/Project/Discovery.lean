import AnalysisCache.Project.Discovery
import AnalysisCache.Proofs.Files.Below
import AnalysisCache.Proofs.Path.Sorted
import AnalysisCache.Proofs.Snapshot.Encoding

/-!
# Finding the files to analyse

A root that is a file stands for itself, and one that is a directory for the files below it that
have one of the extensions, at any depth. A directory is not read if its path is too long. Nothing
below it is found then, and it counts as a file itself.

* `FileTree.exists_filesBelow`: what is found below a directory.
* `FileTree.exists_discover_error_iff`: when nothing is found at all.
* `FileTree.discover_finds`: what is found, and on what this does not depend.
-/

namespace AnalysisCache

open Json (bind_eq_ok_iff exists_mapM_eq_ok_iff)

namespace FileTree

/-! ## Extensions -/

/-- Whether a name ends in one of some extensions, behind a dot that the name does not begin with.
-/
def HasEnding (extensions : List String) (name : Bytes) : Prop :=
  ∃ stem, stem ≠ [] ∧ ∃ e ∈ extensions, 0x2E ∉ Bytes.ofText e ∧
    name = stem ++ 0x2E :: Bytes.ofText e

theorem hasExtension_iff {extensions : List String} {p : Path} :
    hasExtension extensions p = true ↔
      ∃ name, p.fileName? = some name ∧ HasEnding extensions name := by
  have hText : hasExtension extensions p = true ↔
      ∃ e ∈ extensions, p.extension? = some (Bytes.ofText e) := by
    rw [hasExtension]
    cases p.extension? with
    | none => simp
    | some b =>
      simp only [Option.bind_some, Option.some.injEq]
      cases hb : b.text? with
      | none =>
        refine iff_of_false (by simp) ?_
        rintro ⟨e, _, rfl⟩
        rw [Bytes.text?_ofText] at hb
        cases hb
      | some e =>
        obtain rfl := Bytes.text?_eq_some_iff.1 hb
        simp [Bytes.ofText_inj]
  rw [hText]
  simp only [Path.extension?_eq_some_iff]
  constructor
  · rintro ⟨e, he, stem, hStem, hDot, hName⟩
    exact ⟨_, hName, stem, hStem, e, he, hDot, rfl⟩
  · rintro ⟨name, hName, stem, hStem, e, he, hDot, rfl⟩
    exact ⟨e, he, stem, hStem, hDot, hName⟩

theorem hasExtension_congr {extensions : List String} {p q : Path} (h : p.same q = true) :
    hasExtension extensions p = hasExtension extensions q := by
  rw [hasExtension, hasExtension, Path.extension?, Path.extension?, Path.fileName?, Path.fileName?,
    Path.same_iff.1 h]

theorem hasExtension_join_iff {extensions : List String} (d : Path) {name : Bytes}
    (h : Path.IsName name) :
    hasExtension extensions (d.join ⟨name⟩) = true ↔ HasEnding extensions name := by
  rw [hasExtension_iff, Path.fileName?_join d h]
  simp

/-! ## Below a directory -/

/-- What is found below a directory that is read at a location: what has one of the extensions,
unless it is read as a directory in turn. Nothing but its length can keep a directory from that. -/
def FoundBelow (t : FileTree) (extensions : List String) (d : Path) (l : Location) (p : Path) :
    Prop :=
  ∃ dirs name n, t.node? (l ++ dirs ++ [name]) = some n ∧ p = d.below (dirs ++ [name]) ∧
    HasEnding extensions name ∧ (d.below dirs).bytes.length < pathLimit ∧
    (n = .directory → pathLimit ≤ p.bytes.length)

/-- What is found because of an entry of a directory: what is below it, or the entry itself. -/
def FoundAt (t : FileTree) (extensions : List String) (d : Path) (l : Location) (name : Bytes)
    (p : Path) : Prop :=
  t.isDirectory (d.join ⟨name⟩) = true ∧
      t.FoundBelow extensions (d.join ⟨name⟩) (l ++ [name]) p ∨
    t.isDirectory (d.join ⟨name⟩) = false ∧ p = d.join ⟨name⟩ ∧ HasEnding extensions name

theorem foundBelow_iff {t : FileTree} (hTree : t.Ordinary) {extensions : List String} {d p : Path}
    {l : Location} (hd : t.Opens d l) : t.FoundBelow extensions d l p ↔
      ∃ name ∈ t.children l, t.FoundAt extensions d l name p := by
  constructor
  · rintro ⟨dirs, name, n, hNode, hp, hEnding, hShort, hFile⟩
    cases dirs with
    | nil =>
      rw [List.append_nil] at hNode
      refine ⟨name, mem_children_iff.2 (by simp [hNode]), .inr ⟨?_, hp, hEnding⟩⟩
      rw [← Bool.not_eq_true, hd.isDirectory_join_iff hTree hNode]
      rintro ⟨hDirectory, hLength⟩
      have hLong := hFile hDirectory
      rw [hp] at hLong
      exact absurd hLength (not_lt.2 hLong)
    | cons first rest =>
      rw [List.append_cons l first rest] at hNode
      rw [List.append_assoc] at hNode
      have hSome := hNode.trans_ne (Option.some_ne_none n)
      have hNames := hTree.forall_isEntryName hSome
      have hFirst := hTree.rooted.directory hSome (by simp)
      refine ⟨first, mem_children_iff.2 (by simp [hFirst]),
        .inl ⟨?_, rest, name, n, ?_, hp, hEnding, hShort, hFile⟩⟩
      · refine (hd.isDirectory_join_iff hTree hFirst).2 ⟨rfl, lt_of_le_of_lt ?_ hShort⟩
        exact Path.length_le_below _ fun x hx =>
          (hNames x (List.mem_append_left _ hx)).toIsName
      · rwa [List.append_assoc]
  · rintro ⟨name, hName, h⟩
    obtain ⟨n, hNode⟩ := Option.isSome_iff_exists.1 (mem_children_iff.1 hName)
    rcases h with ⟨_, dirs, last, m, hLast, hp, hEnding, hShort, hFile⟩ | ⟨hNot, rfl, hEnding⟩
    · rw [← List.append_cons l name dirs] at hLast
      exact ⟨name :: dirs, last, m, hLast, hp, hEnding, hShort, hFile⟩
    · refine ⟨[], name, n, by rwa [List.append_nil], rfl, hEnding, hd.length_lt, fun hn => ?_⟩
      rw [← Bool.not_eq_true, hd.isDirectory_join_iff hTree hNode] at hNot
      exact not_lt.1 fun hLength => hNot ⟨hn, hLength⟩

/-- Lists that are made one by one, and put together. -/
theorem exists_mapM_flatten {α β ε : Type} {f : α → Except ε (List β)} {P : α → β → Prop}
    {l : List α} (h : ∀ a ∈ l, ∃ bs, f a = .ok bs ∧ ∀ b, b ∈ bs ↔ P a b) :
    ∃ r, l.mapM f = .ok r ∧ ∀ b, b ∈ r.flatten ↔ ∃ a ∈ l, P a b := by
  induction l with
  | nil => exact ⟨[], rfl, by simp⟩
  | cons a rest ih =>
    rw [List.forall_mem_cons] at h
    obtain ⟨⟨bs, hFirst, hbs⟩, hOthers⟩ := h
    obtain ⟨r, hRest, hr⟩ := ih hOthers
    refine ⟨bs :: r, ?_, fun b => ?_⟩
    · rw [List.mapM_cons]
      exact bind_eq_ok_iff.2 ⟨bs, hFirst, bind_eq_ok_iff.2 ⟨r, hRest, rfl⟩⟩
    · rw [List.flatten_cons, List.mem_append, hbs, hr, List.exists_mem_cons_iff]

/-- Below a directory that can be read something is always found, if need be nothing. Going down
makes the path longer, so that the limit on its length is never the one on levels. -/
theorem exists_filesBelow {t : FileTree} (hTree : t.Ordinary) (extensions : List String)
    {fuel : Nat} {d : Path} {l : Location} (hd : t.Opens d l)
    (hFuel : pathLimit ≤ fuel + d.bytes.length) :
    ∃ ps, t.filesBelow extensions fuel d = .ok ps ∧
      ∀ p, p ∈ ps ↔ t.FoundBelow extensions d l p := by
  induction fuel generalizing d l with
  | zero =>
    have hShort := hd.length_lt
    omega
  | succ fuel ih =>
    have hEntry : ∀ name ∈ t.children l, ∃ ps,
        (if t.isDirectory (d.join ⟨name⟩) then t.filesBelow extensions fuel (d.join ⟨name⟩)
          else .ok (if hasExtension extensions (d.join ⟨name⟩) then [d.join ⟨name⟩] else [])) =
            .ok ps ∧ ∀ p, p ∈ ps ↔ t.FoundAt extensions d l name p := by
      intro name hName
      obtain ⟨n, hNode⟩ := Option.isSome_iff_exists.1 (mem_children_iff.1 hName)
      have hIsName := (hTree.isEntryName l name (by simp [hNode])).toIsName
      simp only [FoundAt]
      cases hDirectory : t.isDirectory (d.join ⟨name⟩) with
      | true =>
        obtain ⟨rfl, hShort⟩ := (hd.isDirectory_join_iff hTree hNode).1 hDirectory
        have hLonger := Path.length_lt_join d hIsName
        obtain ⟨ps, hps, hMem⟩ := ih (hd.join hTree hNode hShort) (by omega)
        exact ⟨ps, hps, fun p => by simp [hMem]⟩
      | false =>
        refine ⟨_, rfl, fun p => ?_⟩
        rw [← hasExtension_join_iff d hIsName]
        cases hasExtension extensions (d.join ⟨name⟩) <;> simp
    obtain ⟨found, hFound, hMem⟩ := exists_mapM_flatten hEntry
    refine ⟨found.flatten, ?_, fun p => ?_⟩
    · rw [filesBelow, hd.readDirectory_eq]
      exact bind_eq_ok_iff.2 ⟨_, rfl, bind_eq_ok_iff.2 ⟨found, hFound, rfl⟩⟩
    · rw [hMem, foundBelow_iff hTree hd]

/-! ## What a root stands for -/

/-- Whether a path is found because of a root: it is the root, or it is found below it. -/
inductive StandsFor (t : FileTree) (extensions : List String) (r p : Path) : Prop where
  | file (hFile : t.isFile r = true) (hp : p = r)
  | below (l : Location) (hOpens : t.Opens r l) (hFound : t.FoundBelow extensions r l p)

theorem isFile_of_isDirectory {t : FileTree} {p : Path} (h : t.isDirectory p = true) :
    t.isFile p = false := by
  rw [isDirectory] at h
  split at h
  · rename_i hNode
    rw [isFile, hNode]
  · cases h

theorem Opens.isFile_eq {t : FileTree} {d : Path} {l : Location} (h : t.Opens d l) :
    t.isFile d = false := isFile_of_isDirectory (isDirectory_iff_opens.2 ⟨l, h⟩)

theorem exists_filesOf {t : FileTree} (hTree : t.Ordinary) (extensions : List String) {r : Path}
    (h : ¬ (t.isFile r = false ∧ t.isDirectory r = false)) :
    ∃ ps, t.filesOf extensions r = .ok ps ∧ ∀ p, p ∈ ps ↔ t.StandsFor extensions r p := by
  rw [filesOf]
  cases hFile : t.isFile r with
  | true =>
    refine ⟨[r], rfl, fun p => ?_⟩
    rw [List.mem_singleton]
    constructor
    · exact .file hFile
    · rintro (⟨_, rfl⟩ | ⟨l, hOpens, _⟩)
      · rfl
      · rw [hOpens.isFile_eq] at hFile
        cases hFile
  | false =>
    have hDirectory : t.isDirectory r = true := by simpa [hFile] using h
    obtain ⟨l, hOpens⟩ := isDirectory_iff_opens.1 hDirectory
    obtain ⟨ps, hps, hMem⟩ := exists_filesBelow hTree extensions hOpens
      (Nat.le_add_right pathLimit _)
    refine ⟨ps, ?_, fun p => ?_⟩
    · rw [if_neg (by decide), if_pos hDirectory, hps]
    · rw [hMem]
      constructor
      · exact .below l hOpens
      · rintro (⟨hIs, _⟩ | ⟨k, hk, hFound⟩)
        · rw [hFile] at hIs
          cases hIs
        · rwa [hOpens.unique hk.toLeadsTo]

theorem exists_discover {t : FileTree} (hTree : t.Ordinary) (extensions : List String)
    {roots : List Path} (h : ¬ ∃ r ∈ roots, t.isFile r = false ∧ t.isDirectory r = false) :
    ∃ found, t.discover extensions roots = .ok (sortedPaths found) ∧
      ∀ p, p ∈ found ↔ ∃ r ∈ roots, t.StandsFor extensions r p := by
  obtain ⟨found, hFound, hMem⟩ := exists_mapM_flatten fun r hr =>
    exists_filesOf hTree extensions fun hNot => h ⟨r, hr, hNot⟩
  exact ⟨found.flatten, bind_eq_ok_iff.2 ⟨found, hFound, rfl⟩, hMem⟩

/-- Nothing at all is found if a root is not there. -/
theorem exists_discover_error_iff {t : FileTree} (hTree : t.Ordinary) {extensions : List String}
    {roots : List Path} : (∃ e, t.discover extensions roots = .error e) ↔
      ∃ r ∈ roots, t.isFile r = false ∧ t.isDirectory r = false := by
  constructor
  · rintro ⟨e, he⟩
    by_contra hNone
    obtain ⟨found, hFound, _⟩ := exists_discover hTree extensions hNone
    rw [hFound] at he
    cases he
  · rintro ⟨r, hr, hFile, hDirectory⟩
    cases hDiscover : t.discover extensions roots with
    | error e => exact ⟨e, rfl⟩
    | ok fs =>
      obtain ⟨found, hFound, _⟩ := bind_eq_ok_iff.1 hDiscover
      obtain ⟨ps, hps⟩ := exists_mapM_eq_ok_iff.1 ⟨found, hFound⟩ r hr
      rw [filesOf, hFile, hDirectory] at hps
      cases hps

theorem discover_eq_ok {t : FileTree} (hTree : t.Ordinary) {extensions : List String}
    {roots fs : List Path} (h : t.discover extensions roots = .ok fs) :
    ∃ found, fs = sortedPaths found ∧
      ∀ p, p ∈ found ↔ ∃ r ∈ roots, t.StandsFor extensions r p := by
  have hRoots : ¬ ∃ r ∈ roots, t.isFile r = false ∧ t.isDirectory r = false := by
    intro hNone
    obtain ⟨e, he⟩ := (exists_discover_error_iff hTree).2 hNone
    rw [h] at he
    cases he
  obtain ⟨found, hFound, hMem⟩ := exists_discover hTree extensions hRoots
  rw [h] at hFound
  exact ⟨found, Except.ok.inj hFound, hMem⟩

/-! ## Roots in one another -/

/-- Whether no directory that a path leads to is left out because of its length. -/
def Fits (t : FileTree) (d : Path) : Prop :=
  ∀ l names, t.LeadsTo d l → t.node? (l ++ names) = some .directory →
    (d.below names).bytes.length < pathLimit

/-- Below a directory within the limits all files with one of the extensions are found, and nothing
else. -/
theorem Fits.foundBelow_iff {t : FileTree} (hTree : t.Ordinary) {extensions : List String}
    {d p : Path} {l : Location} (hFits : t.Fits d) (hd : t.LeadsTo d l) :
    t.FoundBelow extensions d l p ↔ ∃ dirs name content,
      t.node? (l ++ dirs ++ [name]) = some (.file content) ∧ p = d.below (dirs ++ [name]) ∧
        HasEnding extensions name := by
  constructor
  · rintro ⟨dirs, name, n, hNode, rfl, hEnding, _, hFile⟩
    cases n with
    | file content => exact ⟨dirs, name, content, hNode, rfl, hEnding⟩
    | directory =>
      rw [List.append_assoc] at hNode
      exact absurd (hFits l _ hd hNode) (not_lt.2 (hFile rfl))
    | link target => exact absurd hNode (hTree.not_link _ target)
  · rintro ⟨dirs, name, content, hNode, rfl, hEnding⟩
    refine ⟨dirs, name, _, hNode, rfl, hEnding, hFits l dirs hd ?_, fun h => by cases h⟩
    exact hTree.rooted.directory (hNode.trans_ne (Option.some_ne_none _)) (List.cons_ne_nil _ _)

/-- Whether all that one path stands for is found from another one as well: from itself, from
another spelling of a file, or from a directory that it is in. -/
inductive CoveredBy (t : FileTree) (extensions : List String) (r s : Path) : Prop where
  | self (h : r = s)
  | spelling (hSame : r.same s = true) (hr : t.isFile r = true) (hs : t.isFile s = true)
  | below (names : List Bytes) (hNames : ∀ name ∈ names, Path.IsName name)
      (hSame : r.same (s.below names) = true) (hs : t.isDirectory s = true) (hFits : t.Fits s)
      (hr : t.isFile r = true ∧ hasExtension extensions r = true ∨
        t.isDirectory r = true ∧ t.Fits r)

/-- Whether each of some roots is covered by one of others. -/
def Covers (t : FileTree) (extensions : List String) (others roots : List Path) : Prop :=
  ∀ r ∈ roots, ∃ s ∈ others, t.CoveredBy extensions r s

section

variable {t : FileTree} (hTree : t.Ordinary) {extensions : List String}

include hTree

/-- A path that is spelled like one below a directory leads there. -/
theorem Opens.eq_of_same_below {r s : Path} {l k : Location} {names : List Bytes}
    (hs : t.Opens s l) (hNames : ∀ name ∈ names, Path.IsName name)
    (hSame : r.same (s.below names) = true) (hr : t.Reaches r k) : k = l ++ names :=
  hs.eq_of_reaches_below hTree names hNames ((reaches_congr hSame).1 hr)

/-- A file with one of the extensions is found at its place below a directory. -/
theorem StandsFor.of_file_below {r s : Path} {l : Location} {names : List Bytes}
    (hs : t.Opens s l) (hFits : t.Fits s) (hNames : ∀ name ∈ names, Path.IsName name)
    (hSame : r.same (s.below names) = true) (hFile : t.isFile r = true)
    (hExtension : hasExtension extensions r = true) :
    t.StandsFor extensions s (s.below names) := by
  obtain ⟨content, hRead⟩ := isFile_iff.1 hFile
  obtain ⟨k, hLocate, hNode⟩ := read_eq_ok_iff.1 hRead
  obtain rfl := hs.eq_of_same_below hTree hNames hSame (reaches_of_locate hLocate)
  rcases List.eq_nil_or_concat names with rfl | ⟨dirs, name, rfl⟩
  · rw [List.append_nil, hs.directory] at hNode
    cases hNode
  · rw [List.concat_eq_append] at *
    rw [← List.append_assoc] at hNode
    rw [hasExtension_congr hSame, Path.below_concat,
      hasExtension_join_iff _ (hNames name (by simp))] at hExtension
    exact .below l hs ((hFits.foundBelow_iff hTree hs.toLeadsTo).2
      ⟨dirs, name, content, hNode, rfl, hExtension⟩)

/-- What is found below a directory is found below another one that it is in. -/
theorem exists_standsFor_of_directory_below {r s p : Path} {l k : Location} {names : List Bytes}
    (hs : t.Opens s l) (hFits : t.Fits s) (hNames : ∀ name ∈ names, Path.IsName name)
    (hSame : r.same (s.below names) = true) (hr : t.Opens r k) (hFitsRoot : t.Fits r)
    (hFound : t.FoundBelow extensions r k p) :
    ∃ q, t.StandsFor extensions s q ∧ q.same p = true := by
  obtain rfl := hs.eq_of_same_below hTree hNames hSame hr.reaches
  obtain ⟨dirs, name, content, hNode, rfl, hEnding⟩ :=
    (hFitsRoot.foundBelow_iff hTree hr.toLeadsTo).1 hFound
  have hBelow : ∀ x ∈ dirs ++ [name], Path.IsName x := by
    intro x hx
    rw [List.append_assoc] at hNode
    exact (hTree.forall_isEntryName (hNode.trans_ne (Option.some_ne_none _)) x hx).toIsName
  refine ⟨s.below (names ++ dirs ++ [name]), .below l hs
    ((hFits.foundBelow_iff hTree hs.toLeadsTo).2
      ⟨names ++ dirs, name, content, by rwa [← List.append_assoc], rfl, hEnding⟩), ?_⟩
  rw [List.append_assoc, Path.below_append]
  exact Path.same_below hBelow (Path.same_symm hSame)

theorem StandsFor.of_coveredBy {r s p : Path} (h : t.StandsFor extensions r p)
    (hCovered : t.CoveredBy extensions r s) :
    ∃ q, t.StandsFor extensions s q ∧ q.same p = true := by
  rcases hCovered with rfl | ⟨hSame, hr, hs⟩ | ⟨names, hNames, hSame, hs, hFits, hr⟩
  · exact ⟨p, h, Path.same_self p⟩
  · rcases h with ⟨_, rfl⟩ | ⟨l, hOpens, _⟩
    · exact ⟨s, .file hs rfl, Path.same_symm hSame⟩
    · rw [hOpens.isFile_eq] at hr
      cases hr
  · obtain ⟨l, hs⟩ := isDirectory_iff_opens.1 hs
    rcases h with ⟨hFile, rfl⟩ | ⟨k, hk, hFound⟩
    · rcases hr with ⟨_, hExtension⟩ | ⟨hDirectory, _⟩
      · exact ⟨_, .of_file_below hTree hs hFits hNames hSame hFile hExtension,
          Path.same_symm hSame⟩
      · rw [isFile_of_isDirectory hDirectory] at hFile
        cases hFile
    · rcases hr with ⟨hFile, _⟩ | ⟨_, hFitsRoot⟩
      · rw [hk.isFile_eq] at hFile
        cases hFile
      · exact exists_standsFor_of_directory_below hTree hs hFits hNames hSame hk hFitsRoot hFound

end

theorem Relists.standsFor {t u : FileTree} (h : Relists t u) {extensions : List String} {r p : Path}
    (hp : t.StandsFor extensions r p) : u.StandsFor extensions r p := by
  rcases hp with ⟨hFile, rfl⟩ | ⟨l, hOpens, dirs, name, n, hNode, hFound⟩
  · exact .file (by rwa [← h.isFile_eq]) rfl
  · exact .below l ⟨h.1.leadsTo hOpens.toLeadsTo, hOpens.noError⟩
      ⟨dirs, name, n, h.1.node? _ _ hNode, hFound⟩

/-! ## All roots -/

section

variable {t u v : FileTree} (hTree : t.Ordinary) (hu : Relists t u) (hv : Relists t v)
  {extensions : List String} {roots others : List Path}
  (hCovers : t.Covers extensions others roots)

include hTree hu hv hCovers

theorem exists_discover_error_of_covers (h : ∃ e, u.discover extensions roots = .error e) :
    ∃ e, v.discover extensions others = .error e := by
  rw [exists_discover_error_iff (hu.ordinary hTree)] at h
  rw [exists_discover_error_iff (hv.ordinary hTree)]
  simp only [← hu.isFile_eq, ← hu.isDirectory_eq] at h
  simp only [← hv.isFile_eq, ← hv.isDirectory_eq]
  obtain ⟨r, hr, hFile, hDirectory⟩ := h
  obtain ⟨s, hs, rfl | ⟨_, hIs, _⟩ | ⟨_, _, _, _, _, hIs⟩⟩ := hCovers r hr
  · exact ⟨r, hs, hFile, hDirectory⟩
  · rw [hFile] at hIs
    cases hIs
  · rw [hFile, hDirectory] at hIs
    simp at hIs

theorem among_discover_of_covers {fs gs : List Path}
    (hfs : u.discover extensions roots = .ok fs) (hgs : v.discover extensions others = .ok gs)
    {p : Path} (h : p.Among fs) : p.Among gs := by
  obtain ⟨found, rfl, hFound⟩ := discover_eq_ok (hu.ordinary hTree) hfs
  obtain ⟨found', rfl, hFound'⟩ := discover_eq_ok (hv.ordinary hTree) hgs
  rw [among_sortedPaths_iff] at h ⊢
  obtain ⟨q, hq, hqp⟩ := h
  obtain ⟨r, hr, hStands⟩ := (hFound q).1 hq
  obtain ⟨s, hs, hCovered⟩ := hCovers r hr
  obtain ⟨x, hx, hxq⟩ := (hu.symm.standsFor hStands).of_coveredBy hTree hCovered
  exact ⟨x, (hFound' x).2 ⟨s, hs, hv.standsFor hx⟩, Path.same_trans hxq hqp⟩

end

/-- Files are found exactly if all roots are there. They stand in strictly increasing order, and
they are what the roots stand for. It makes no difference in which order the tree is listed, or the
roots are, nor if they are repeated, or are in one another, given that no directory there has too
long a path. -/
theorem discover_finds {t : FileTree} (hTree : t.Ordinary) (extensions : List String)
    (roots : List Path) :
    ((∃ e, t.discover extensions roots = .error e) ↔
      ∃ r ∈ roots, t.isFile r = false ∧ t.isDirectory r = false) ∧
    (∀ fs, t.discover extensions roots = .ok fs →
      (fs.Pairwise fun p q => compare p q = .lt) ∧
      (∀ p ∈ fs, ∃ r ∈ roots, t.StandsFor extensions r p) ∧
      ∀ r ∈ roots, ∀ p, t.StandsFor extensions r p → p.Among fs) ∧
    ∀ u others, Relists t u → t.Covers extensions others roots → t.Covers extensions roots others →
      ((∃ e, t.discover extensions roots = .error e) ↔
        ∃ e, u.discover extensions others = .error e) ∧
      ∀ fs gs, t.discover extensions roots = .ok fs → u.discover extensions others = .ok gs →
        SamePaths fs gs := by
  refine ⟨exists_discover_error_iff hTree, fun fs hfs => ?_, fun u others hSame hCovers hBack => ?_⟩
  · obtain ⟨found, rfl, hFound⟩ := discover_eq_ok hTree hfs
    refine ⟨pairwise_sortedPaths found, fun p hp => (hFound p).1 (mem_of_mem_sortedPaths hp), ?_⟩
    intro r hr p hp
    exact among_sortedPaths_iff.2 (Path.among_of_mem ((hFound p).2 ⟨r, hr, hp⟩))
  · have hSelf := Relists.refl t
    refine ⟨⟨exists_discover_error_of_covers hTree hSelf hSame hCovers,
      exists_discover_error_of_covers hTree hSame hSelf hBack⟩, fun fs gs hfs hgs => ?_⟩
    obtain ⟨found, rfl, _⟩ := discover_eq_ok hTree hfs
    obtain ⟨found', rfl, _⟩ := discover_eq_ok (hSame.ordinary hTree) hgs
    refine PathMap.forall₂_same_of_pairwise_lt (f := id) (g := id) (pairwise_sortedPaths found)
      (pairwise_sortedPaths found') fun p => ?_
    rw [List.map_id, List.map_id]
    exact ⟨among_discover_of_covers hTree hSelf hSame hCovers hfs hgs,
      among_discover_of_covers hTree hSame hSelf hBack hgs hfs⟩

end FileTree

/-! ## A file two levels down -/

namespace Deep

open FileTree (ordinary_empty)

def outer : Bytes := Bytes.ofText "a"

def inner : Bytes := Bytes.ofText "d"

def file : Bytes := Bytes.ofText "f.rs"

/-- The directory `a` with a directory `d` with a file `f.rs`. -/
def tree : FileTree :=
  ((FileTree.empty.set ([] ++ [outer]) .directory).set ([outer] ++ [inner]) .directory).set
    ([outer, inner] ++ [file]) (.file [])

theorem ordinary_tree : tree.Ordinary := by
  have hLink : ∀ {n : Node}, n = .directory ∨ n = .file [] → ∀ target, n ≠ .link target := by
    rintro n (rfl | rfl) target h <;> cases h
  refine ((ordinary_empty.set ?_ ?_ ?_ (hLink (.inl rfl))).set ?_ ?_ ?_
    (hLink (.inl rfl))).set ?_ ?_ ?_ (hLink (.inr rfl)) <;> decide +kernel

theorem node?_tree (l : Location) : tree.node? l =
    if l = [outer, inner, file] then some (.file [])
    else if l = [outer, inner] ∨ l = [outer] ∨ l = [] then some .directory else none := by
  have hRoot : FileTree.empty.node? l = if l = [] then some .directory else none := by
    rw [FileTree.node?, FileTree.empty, Trie.get?_empty]
  rw [tree, FileTree.node?_set_concat, FileTree.node?_set_concat, FileTree.node?_set_concat, hRoot]
  simp only [List.nil_append, List.cons_append]
  split
  · rfl
  · by_cases hInner : l = [outer, inner]
    · simp [hInner]
    · by_cases hOuter : l = [outer] <;> simp [hInner, hOuter]

/-- What is in the directory `a`, and below it. -/
theorem node?_outer {dirs : List Bytes} {name : Bytes} {n : Node}
    (h : tree.node? ([outer] ++ dirs ++ [name]) = some n) :
    dirs = [] ∧ name = inner ∧ n = .directory ∨ dirs = [inner] ∧ name = file ∧ n = .file [] := by
  rw [node?_tree, List.append_assoc] at h
  split at h
  · rename_i hl
    have hNames : dirs ++ [name] = [inner] ++ [file] := List.cons.inj hl |>.2
    obtain ⟨rfl, hName⟩ := List.append_inj' hNames rfl
    exact .inr ⟨rfl, List.singleton_inj.1 hName, (Option.some.inj h).symm⟩
  · split at h
    · rename_i hl
      rcases hl with hl | hl | hl
      · have hNames : dirs ++ [name] = [] ++ [inner] := List.cons.inj hl |>.2
        obtain ⟨rfl, hName⟩ := List.append_inj' hNames rfl
        exact .inl ⟨rfl, List.singleton_inj.1 hName, (Option.some.inj h).symm⟩
      · simp at hl
      · cases hl
    · cases h

theorem leadsTo_outer : tree.LeadsTo (.ofText "a") [outer] :=
  ⟨by rw [FileTree.Reaches]; decide +kernel, by decide +kernel⟩

theorem leadsTo_inner : tree.LeadsTo (.ofText "a/d") [outer, inner] :=
  ⟨by rw [FileTree.Reaches]; decide +kernel, by decide +kernel⟩

theorem fits_outer : tree.Fits (.ofText "a") := by
  intro l names hl hNode
  obtain rfl := hl.unique leadsTo_outer
  rcases List.eq_nil_or_concat names with rfl | ⟨dirs, name, rfl⟩
  · decide
  · rw [List.concat_eq_append] at hNode ⊢
    rw [← List.append_assoc] at hNode
    rcases node?_outer hNode with ⟨rfl, rfl, _⟩ | ⟨_, _, hFile⟩
    · decide +kernel
    · cases hFile

theorem fits_inner : tree.Fits (.ofText "a/d") := by
  intro l names hl hNode
  obtain rfl := hl.unique leadsTo_inner
  rcases List.eq_nil_or_concat names with rfl | ⟨dirs, name, rfl⟩
  · decide +kernel
  · rw [List.concat_eq_append, ← List.append_assoc] at hNode
    rcases @node?_outer (inner :: dirs) _ _ hNode with ⟨hNil, _⟩ | ⟨_, _, hFile⟩
    · cases hNil
    · cases hFile

/-- The file is found below the outer directory, and the inner one adds nothing to it. -/
theorem discover_finds_deep : ∃ fs gs,
    tree.discover ["rs"] [.ofText "a"] = .ok fs ∧ (Path.ofText "a/d/f.rs").Among fs ∧
    tree.discover ["rs"] [.ofText "a/d", .ofText "a"] = .ok gs ∧ SamePaths fs gs := by
  obtain ⟨hError, hFinds, hSame⟩ :=
    FileTree.discover_finds ordinary_tree ["rs"] [.ofText "a"]
  have hOuter : tree.isDirectory (.ofText "a") = true :=
    FileTree.isDirectory_iff_leadsTo.2 ⟨by decide +kernel, _, leadsTo_outer⟩
  have hInner : tree.isDirectory (.ofText "a/d") = true :=
    FileTree.isDirectory_iff_leadsTo.2 ⟨by decide +kernel, _, leadsTo_inner⟩
  have hInnerCovered : tree.CoveredBy ["rs"] (.ofText "a/d") (.ofText "a") :=
    .below [inner] (by decide +kernel) (by decide +kernel) hOuter fits_outer
      (.inr ⟨hInner, fits_inner⟩)
  obtain ⟨hBothFail, hBoth⟩ := hSame tree [.ofText "a/d", .ofText "a"] (.refl tree)
    (fun r hr => ⟨r, List.mem_cons_of_mem _ hr, .self rfl⟩) fun r hr => by
      rcases List.mem_cons.1 hr with rfl | hr
      · exact ⟨_, List.mem_singleton_self _, hInnerCovered⟩
      · exact ⟨r, hr, .self rfl⟩
  have hNoError : ¬ ∃ e, tree.discover ["rs"] [.ofText "a"] = .error e := by
    rw [hError]
    rintro ⟨r, hr, _, hNot⟩
    rw [List.mem_singleton.1 hr, hOuter] at hNot
    cases hNot
  cases hfs : tree.discover ["rs"] [.ofText "a"] with
  | error e => exact absurd ⟨e, hfs⟩ hNoError
  | ok fs =>
    cases hgs : tree.discover ["rs"] [.ofText "a/d", .ofText "a"] with
    | error e => exact absurd (hBothFail.2 ⟨e, hgs⟩) hNoError
    | ok gs =>
      refine ⟨fs, gs, rfl, ?_, rfl, hBoth fs gs hfs hgs⟩
      refine (hFinds fs hfs).2.2 _ (List.mem_singleton_self _) _
        (.below [outer] ⟨leadsTo_outer, by decide +kernel⟩ ?_)
      refine (fits_outer.foundBelow_iff ordinary_tree leadsTo_outer).2
        ⟨[inner], file, [], by decide +kernel, by decide +kernel, ?_⟩
      exact ⟨Bytes.ofText "f", by decide, "rs", List.mem_singleton_self _, by decide, by decide⟩

/-! ## A root with a long path -/

/-- The directory `a`, spelled with as many slashes as a path may have. -/
def root : Path := ⟨outer ++ Path.slash :: List.replicate 4093 Path.slash⟩

theorem parts_replicate_slash (n : Nat) :
    Path.parts (List.replicate n Path.slash) = List.replicate (n + 1) [] := by
  induction n with
  | zero => rfl
  | succ n ih => rw [List.replicate_succ, Path.parts_cons_slash, ih, ← List.replicate_succ]

theorem root_same : root.same (.ofText "a") = true := by
  have hIdle : (List.replicate 4094 ([] : Bytes)).filterMap Component.ofPart? = [] := by
    rw [List.filterMap_eq_nil_iff]
    intro part hPart
    rw [List.eq_of_mem_replicate hPart]
    rfl
  rw [Path.same_iff, root, Path.components_append_slash (by decide), parts_replicate_slash, hIdle,
    List.append_nil]
  rfl

theorem length_root : root.bytes.length = 4095 := by
  rw [root, List.length_append, List.length_cons, List.length_replicate]
  rfl

theorem opens_root : tree.Opens root [outer] where
  reaches := (FileTree.reaches_congr root_same).2 leadsTo_outer.reaches
  directory := leadsTo_outer.directory
  noError := by
    refine FileTree.pathError?_eq_none_iff.2 ⟨?_, ?_, ?_⟩
    · rw [root, List.mem_append, List.mem_cons, not_or, not_or]
      exact ⟨by decide, by decide, fun h => by cases List.eq_of_mem_replicate h⟩
    · exact List.append_ne_nil_of_right_ne_nil _ (List.cons_ne_nil _ _)
    · rw [length_root]
      decide

/-- The file is below a directory that is found, and it has the extension. Still it is not found,
since the path of the directory that it is in would have a byte too many. -/
theorem discover_finds_nothing : tree.Ordinary ∧ tree.Opens root [outer] ∧
    tree.node? ([outer] ++ [inner] ++ [file]) = some (.file []) ∧
    FileTree.HasEnding ["rs"] file ∧
    tree.discover ["rs"] [root] = .ok [] ∧ ¬ (root.below ([inner] ++ [file])).Among [] := by
  refine ⟨ordinary_tree, opens_root, by decide +kernel,
    ⟨Bytes.ofText "f", by decide, "rs", List.mem_singleton_self _, by decide, by decide⟩, ?_,
    fun ⟨_, h, _⟩ => by cases h⟩
  have hRoots : ¬ ∃ r ∈ [root], tree.isFile r = false ∧ tree.isDirectory r = false := by
    rintro ⟨r, hr, _, hNot⟩
    rw [List.mem_singleton.1 hr, FileTree.isDirectory_iff_opens.2 ⟨_, opens_root⟩] at hNot
    cases hNot
  obtain ⟨found, hFound, hMem⟩ := FileTree.exists_discover ordinary_tree ["rs"] hRoots
  obtain rfl : found = [] := by
    rw [List.eq_nil_iff_forall_not_mem]
    intro p hp
    obtain ⟨r, hr, hStands⟩ := (hMem p).1 hp
    obtain rfl := List.mem_singleton.1 hr
    rcases hStands with ⟨hFile, _⟩ | ⟨l, hl, dirs, name, n, hNode, _, hEnding, hShort, _⟩
    · rw [opens_root.isFile_eq] at hFile
      cases hFile
    · obtain rfl := hl.unique opens_root.toLeadsTo
      rcases node?_outer hNode with ⟨rfl, rfl, _⟩ | ⟨rfl, rfl, _⟩
      · obtain ⟨stem, _, e, _, _, hName⟩ := hEnding
        have hDot : 0x2E ∈ inner := by
          rw [hName]
          exact List.mem_append_right _ List.mem_cons_self
        revert hDot
        decide
      · have hInner : Path.IsName inner := by decide +kernel
        have hLonger := Path.length_lt_join root hInner
        rw [length_root] at hLonger
        rw [Path.below_cons, Path.below_nil, FileTree.pathLimit] at hShort
        omega
  exact hFound

end Deep

end AnalysisCache
