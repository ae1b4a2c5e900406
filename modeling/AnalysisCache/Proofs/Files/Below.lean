import AnalysisCache.Proofs.Files.Entry

/-!
# What is below a directory

In a tree of nothing but files and directories, names lead from a directory to what is below it. The
paths that are made of them get longer at each step, and one that is too long leads nowhere, though
what it would lead to is there.

* `FileTree.Ordinary`: trees without links, all of whose names are names.
* `FileTree.LeadsTo.reaches_below`: names lead to what is there below a directory.
* `FileTree.Opens.isDirectory_join_iff`: a directory is taken for one unless its path is too long.
-/

namespace AnalysisCache

namespace Path

/-! ## Paths below a directory -/

/-- The path that goes from a directory along some names. -/
def below (d : Path) (names : List Bytes) : Path := names.foldl (fun p name => p.join ⟨name⟩) d

@[simp] theorem below_nil (d : Path) : d.below [] = d := rfl

@[simp] theorem below_cons (d : Path) (name : Bytes) (rest : List Bytes) :
    d.below (name :: rest) = (d.join ⟨name⟩).below rest := rfl

theorem below_append (d : Path) (xs ys : List Bytes) : d.below (xs ++ ys) = (d.below xs).below ys :=
  List.foldl_append

theorem below_concat (d : Path) (xs : List Bytes) (name : Bytes) :
    d.below (xs ++ [name]) = (d.below xs).join ⟨name⟩ := below_append d xs [name]

section

variable (d : Path) {names : List Bytes} (h : ∀ name ∈ names, IsName name)

include h

theorem components_below : (d.below names).components = d.components ++ names.map .name := by
  induction names generalizing d with
  | nil => exact (List.append_nil _).symm
  | cons name rest ih =>
    rw [List.forall_mem_cons] at h
    rw [below_cons, ih _ h.2, components_join d h.1, List.append_assoc]
    rfl

theorem spine_below : (d.below names).spine = d.spine ++ names := by
  induction names generalizing d with
  | nil => exact (List.append_nil _).symm
  | cons name rest ih =>
    rw [List.forall_mem_cons] at h
    rw [below_cons, ih _ h.2, spine_join d h.1, List.append_assoc]
    rfl

theorem isAbsolute_below : (d.below names).isAbsolute = d.isAbsolute := by
  induction names generalizing d with
  | nil => rfl
  | cons name rest ih =>
    rw [List.forall_mem_cons] at h
    rw [below_cons, ih _ h.2, isAbsolute_join d h.1]

theorem length_le_below : d.bytes.length ≤ (d.below names).bytes.length := by
  induction names generalizing d with
  | nil => exact le_rfl
  | cons name rest ih =>
    rw [List.forall_mem_cons] at h
    exact (length_lt_join d h.1).le.trans (ih _ h.2)

end

/-- Below two spellings of a directory names lead to two spellings of a path. -/
theorem same_below {d e : Path} {names : List Bytes} (h : ∀ name ∈ names, IsName name)
    (hSame : d.same e = true) : (d.below names).same (e.below names) = true := by
  rw [same_iff, components_below d h, components_below e h, same_iff.1 hSame]

end Path

namespace FileTree

/-! ## Trees of files and directories -/

theorem Rooted.directory {t : FileTree} (hTree : t.Rooted) {l rest : Location}
    (h : t.node? (l ++ rest) ≠ none) (hRest : rest ≠ []) : t.node? l = some .directory := by
  induction rest generalizing l with
  | nil => exact absurd rfl hRest
  | cons name more ih =>
    rw [List.append_cons] at h
    refine of_not_not fun hl => ?_
    have hNone := hTree l name hl
    by_cases hMore : more = []
    · exact h (by rw [hMore, List.append_nil, hNone])
    · rw [ih h hMore] at hNone
      cases hNone

theorem Rooted.ne_none_of_append {t : FileTree} (hTree : t.Rooted) {l rest : Location}
    (h : t.node? (l ++ rest) ≠ none) : t.node? l ≠ none := by
  by_cases hRest : rest = []
  · rwa [hRest, List.append_nil] at h
  · simp [hTree.directory h hRest]

/-- Whether some bytes can be the name of a file that is kept. -/
structure IsEntryName (name : Bytes) : Prop extends Path.IsName name where
  nul_notMem : 0 ∉ name
  short : name.length ≤ maxNameLength

instance (name : Bytes) : Decidable (IsEntryName name) :=
  decidable_of_iff (Path.IsName name ∧ 0 ∉ name ∧ name.length ≤ maxNameLength)
    ⟨fun h => ⟨h.1, h.2.1, h.2.2⟩, fun h => ⟨h.toIsName, h.nul_notMem, h.short⟩⟩

/-- Whether there is nothing but files and directories, with names that can be theirs. -/
structure Ordinary (t : FileTree) : Prop where
  rooted : t.Rooted
  isEntryName : ∀ l name, t.node? (l ++ [name]) ≠ none → IsEntryName name
  not_link : ∀ l target, t.node? l ≠ some (.link target)

theorem ordinary_empty : empty.Ordinary := by
  have hNone : ∀ (l : Location) name, empty.node? (l ++ [name]) = none := by
    intro l name
    rw [node?, if_neg (by simp), empty, Trie.get?_empty]
  refine ⟨fun l name _ => hNone l name, fun l name h => absurd (hNone l name) h, ?_⟩
  intro l target h
  rw [node?] at h
  split at h
  · cases h
  · rw [empty, Trie.get?_empty] at h
    cases h

/-- A file or a directory can be put where nothing is yet. -/
theorem Ordinary.set {t : FileTree} (hTree : t.Ordinary) {l : Location} {name : Bytes} {n : Node}
    (hDirectory : t.node? l = some .directory) (hFree : t.node? (l ++ [name]) = none)
    (hName : IsEntryName name) (hNode : ∀ target, n ≠ .link target) :
    (t.set (l ++ [name]) n).Ordinary where
  rooted := rooted_set hTree.rooted hDirectory (.inr (by simp [hFree]))
  isEntryName k part hk := by
    rw [node?_set_concat] at hk
    split at hk
    · rename_i hEq
      obtain ⟨_, hPart⟩ := List.append_inj' hEq rfl
      obtain rfl : part = name := by simpa using hPart
      exact hName
    · exact hTree.isEntryName k part hk
  not_link k target hk := by
    rw [node?_set_concat] at hk
    split at hk
    · exact hNode target (Option.some.inj hk)
    · exact hTree.not_link k target hk

/-- Whether a path leads to a directory and is within the limits, so that the directory can be
read. -/
structure Opens (t : FileTree) (d : Path) (l : Location) : Prop extends t.LeadsTo d l where
  noError : pathError? d = none

theorem isDirectory_iff_opens {t : FileTree} {d : Path} :
    t.isDirectory d = true ↔ ∃ l, t.Opens d l := by
  rw [isDirectory_iff_leadsTo]
  constructor
  · rintro ⟨hError, l, hLeads⟩
    exact ⟨l, hLeads, hError⟩
  · rintro ⟨l, h⟩
    exact ⟨h.noError, l, h.toLeadsTo⟩

theorem Opens.length_lt {t : FileTree} {d : Path} {l : Location} (h : t.Opens d l) :
    d.bytes.length < pathLimit := (pathError?_eq_none_iff.1 h.noError).2.2

theorem Opens.readDirectory_eq {t : FileTree} {d : Path} {l : Location} (h : t.Opens d l) :
    t.readDirectory d = .ok (t.children l) := by
  rw [readDirectory, h.toLeadsTo.locate h.noError]
  dsimp only [bind, Except.bind]
  rw [h.directory]

theorem pathError?_join {d : Path} (hd : pathError? d = none) {name : Bytes}
    (hName : IsEntryName name) :
    pathError? (d.join ⟨name⟩) = none ↔ (d.join ⟨name⟩).bytes.length < pathLimit := by
  rw [pathError?_eq_none_iff] at hd ⊢
  have hNul : 0 ∉ (d.join ⟨name⟩).bytes := by
    intro h
    rcases Path.mem_bytes_join hName.toIsName h with h | h | h
    · exact hd.1 h
    · cases h
    · exact hName.nul_notMem h
  exact ⟨fun h => h.2.2, fun h => ⟨hNul, Path.bytes_join_ne_nil d hName.toIsName, h⟩⟩

section

variable {t : FileTree} (hTree : t.Ordinary)

include hTree

/-- All names on the way to something are names of something. -/
theorem Ordinary.forall_isEntryName {l names : Location} (h : t.node? (l ++ names) ≠ none) :
    ∀ name ∈ names, IsEntryName name := by
  induction names generalizing l with
  | nil => exact List.forall_mem_nil _
  | cons name rest ih =>
    rw [List.append_cons] at h
    exact List.forall_mem_cons.2
      ⟨hTree.isEntryName l name (hTree.rooted.ne_none_of_append h), ih h⟩

/-! ## Walks along names -/

theorem Ordinary.walk_names {links : Nat} {l names : Location} (h : t.node? (l ++ names) ≠ none) :
    t.walk .existing links l names = .ok (l ++ names) := by
  induction names generalizing l with
  | nil =>
    rw [List.append_nil, walk_eq_walkWith]
    rfl
  | cons name rest ih =>
    have hName := hTree.forall_isEntryName h name List.mem_cons_self
    have hEnters : Enters t l name := ⟨hTree.rooted.directory h (List.cons_ne_nil _ _),
      hName.isStep, hName.not_up, not_lt.2 hName.short⟩
    rw [List.append_cons] at h
    obtain ⟨n, hn⟩ := Option.ne_none_iff_exists'.1 (hTree.rooted.ne_none_of_append h)
    have hLeads : Leads t l name (l ++ [name]) :=
      .name hEnters hn fun target hLink => hTree.not_link _ target (hLink ▸ hn)
    rw [walk_eq_walkWith, hLeads.walkWith_cons (fun hNew => by cases hNew), ← walk_eq_walkWith,
      ih h, List.append_cons l name rest]

theorem Ordinary.eq_of_walk_names {links : Nat} {l k names : Location}
    (hNames : ∀ name ∈ names, Path.IsName name)
    (h : t.walk .existing links l names = .ok k) : k = l ++ names := by
  rw [walk_eq_walkWith] at h
  induction names generalizing l with
  | nil =>
    rw [List.append_nil]
    exact (Except.ok.inj h).symm
  | cons name rest ih =>
    rw [List.forall_mem_cons] at hNames
    rcases walkWith_existing_cons_iff.1 h with ⟨m, hLeads, hRest⟩ | ⟨target, hLink, _⟩
    · rw [ih hNames.2 hRest, eq_of_leads hNames.1 hLeads, List.append_cons l name rest]
    · exact absurd hLink.next (hTree.not_link _ target)

/-! ## What names lead to -/

theorem LeadsTo.reaches_below {d : Path} {l names : Location} (hd : t.LeadsTo d l)
    (h : t.node? (l ++ names) ≠ none) : t.Reaches (d.below names) (l ++ names) := by
  have hNames : ∀ name ∈ names, Path.IsName name := fun name hName =>
    (hTree.forall_isEntryName h name hName).toIsName
  obtain ⟨n, hn⟩ := walk_append hd.reaches
  rw [Reaches, Path.spine_below d hNames, origin, Path.isAbsolute_below d hNames, ← origin, hn,
    hTree.walk_names h]

theorem LeadsTo.eq_of_reaches_below {d : Path} {l k : Location} (hd : t.LeadsTo d l)
    (names : List Bytes) (hNames : ∀ name ∈ names, Path.IsName name)
    (h : t.Reaches (d.below names) k) : k = l ++ names := by
  rw [Reaches, Path.spine_below d hNames, origin, Path.isAbsolute_below d hNames, ← origin] at h
  obtain ⟨n, x, hBefore, hAfter⟩ := exists_walk_of_append h
  obtain rfl : x = l := walk_unique hBefore hd.reaches
  exact hTree.eq_of_walk_names hNames hAfter

theorem LeadsTo.below {d : Path} {l : Location} (hd : t.LeadsTo d l) (names : List Bytes)
    (h : t.node? (l ++ names) = some .directory) : t.LeadsTo (d.below names) (l ++ names) :=
  ⟨hd.reaches_below hTree (by simp [h]), h⟩

/-- An entry of a directory is taken for a directory if it is one and its path is not too long. -/
theorem Opens.isDirectory_join_iff {d : Path} {l : Location} {name : Bytes} {n : Node}
    (hd : t.Opens d l) (h : t.node? (l ++ [name]) = some n) :
    t.isDirectory (d.join ⟨name⟩) = true ↔
      n = .directory ∧ (d.join ⟨name⟩).bytes.length < pathLimit := by
  have hName := hTree.isEntryName l name (by simp [h])
  rw [isDirectory_iff_leadsTo, pathError?_join hd.noError hName, and_comm]
  refine and_congr_left fun _ => ?_
  constructor
  · rintro ⟨k, hk⟩
    have hEq := hd.eq_of_reaches_below hTree [name]
      (List.forall_mem_singleton.2 hName.toIsName) hk.reaches
    rw [← hEq, hk.directory] at h
    exact (Option.some.inj h).symm
  · rintro rfl
    exact ⟨l ++ [name], hd.toLeadsTo.below hTree [name] h⟩

theorem Opens.join {d : Path} {l : Location} {name : Bytes} (hd : t.Opens d l)
    (h : t.node? (l ++ [name]) = some .directory)
    (hShort : (d.join ⟨name⟩).bytes.length < pathLimit) :
    t.Opens (d.join ⟨name⟩) (l ++ [name]) where
  toLeadsTo := hd.toLeadsTo.below hTree [name] h
  noError := (pathError?_join hd.noError (hTree.isEntryName l name (by simp [h]))).2 hShort

end

/-! ## The same tree, listed in another order -/

/-- Whether two trees hold the same, in whatever order they list it. -/
def Relists (t u : FileTree) : Prop := Within t u ∧ Within u t

section

variable {t u : FileTree}

theorem Relists.symm (h : Relists t u) : Relists u t := ⟨h.2, h.1⟩

theorem Relists.refl (t : FileTree) : Relists t t := ⟨.refl t, .refl t⟩

theorem Relists.node?_eq (h : Relists t u) (l : Location) : t.node? l = u.node? l :=
  Option.ext fun n => ⟨h.1.node? l n, h.2.node? l n⟩

theorem Relists.ordinary (h : Relists t u) (hTree : t.Ordinary) : u.Ordinary where
  rooted l name hl := by
    rw [← h.node?_eq] at hl ⊢
    exact hTree.rooted l name hl
  isEntryName l name hNode := hTree.isEntryName l name (by rwa [h.node?_eq])
  not_link l target hLink := hTree.not_link l target (by rwa [h.node?_eq])

theorem Within.leadsTo (h : Within t u) {d : Path} {l : Location} (hd : t.LeadsTo d l) :
    u.LeadsTo d l := by
  refine ⟨?_, h.node? _ _ hd.directory⟩
  rw [Reaches, ← h.current_eq]
  exact h.walk _ _ hd.reaches

theorem Relists.isDirectory_eq (h : Relists t u) (p : Path) :
    t.isDirectory p = u.isDirectory p := by
  rw [Bool.eq_iff_iff, isDirectory_iff_leadsTo, isDirectory_iff_leadsTo]
  exact and_congr_right fun _ => exists_congr fun l => ⟨h.1.leadsTo, h.2.leadsTo⟩

theorem Relists.isFile_eq (h : Relists t u) (p : Path) : t.isFile p = u.isFile p := by
  rw [Bool.eq_iff_iff, isFile_iff, isFile_iff]
  exact exists_congr fun content => ⟨h.1.read, h.2.read⟩

end

end FileTree

end AnalysisCache
