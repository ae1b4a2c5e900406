import AnalysisCache.Proofs.Files.Frame

/-!
# Writing over a file

Where a file can be read, its directory is there, so that there is none to be made, and the file can
be written.

* `FileTree.makeDirectories_of_isDirectory`: making a directory that is there changes nothing.
* `FileTree.isDirectory_of_parent?`: the parent of a file is a directory.
* `FileTree.exists_write_of_read`: what can be read can be written.
-/

namespace AnalysisCache

namespace FileTree

/-! ## The beginning of a walk -/

theorem exists_walkWith_of_append {t : FileTree} {links : Nat} {k : Location} {ys : List Bytes}
    (hGo : ∀ m xs, follow t .existing links m (xs ++ ys) = .ok k →
      ∃ n x, follow t .existing links m xs = .ok x ∧ walk t .existing n x ys = .ok k)
    (xs : List Bytes) (m : Location)
    (h : walkWith t .existing (follow t .existing links) m (xs ++ ys) = .ok k) :
    ∃ n x, walkWith t .existing (follow t .existing links) m xs = .ok x ∧
      walk t .existing n x ys = .ok k := by
  induction xs generalizing m with
  | nil => exact ⟨links, m, rfl, by rwa [walk_eq_walkWith]⟩
  | cons part rest ih =>
    rw [List.cons_append, walkWith_existing_cons_iff] at h
    simp only [walkWith_existing_cons_iff]
    rcases h with ⟨y, hLeads, hRest⟩ | ⟨target, hLink, hRest⟩
    · obtain ⟨n, x, hBefore, hAfter⟩ := ih y hRest
      exact ⟨n, x, .inl ⟨y, hLeads, hBefore⟩, hAfter⟩
    · rw [← List.append_assoc] at hRest
      obtain ⟨n, x, hBefore, hAfter⟩ := hGo _ _ hRest
      exact ⟨n, x, .inr ⟨target, hLink, hBefore⟩, hAfter⟩

/-- A walk that leads somewhere leads somewhere on the way. -/
theorem exists_walk_of_append {t : FileTree} {links : Nat} {m k : Location} {xs ys : List Bytes}
    (h : walk t .existing links m (xs ++ ys) = .ok k) :
    ∃ n x, walk t .existing links m xs = .ok x ∧ walk t .existing n x ys = .ok k := by
  induction links generalizing m xs with
  | zero =>
    rw [walk_eq_walkWith] at h ⊢
    exact exists_walkWith_of_append (fun _ _ hGo => by cases hGo) xs m h
  | succ links ih =>
    have hGo : ∀ m xs, follow t .existing (links + 1) m (xs ++ ys) = .ok k →
        ∃ n x, follow t .existing (links + 1) m xs = .ok x ∧ walk t .existing n x ys = .ok k :=
      fun _ _ hGo => ih hGo
    rw [walk_eq_walkWith] at h ⊢
    exact exists_walkWith_of_append hGo xs m h

theorem node?_of_walk_cons {t : FileTree} {links : Nat} {m k : Location} {part : Bytes}
    {rest : List Bytes} (h : walk t .existing links m (part :: rest) = .ok k) :
    t.node? m = some .directory := by
  rw [walk_eq_walkWith] at h
  exact node?_of_walkWith_cons h

/-! ## Directories that are there -/

theorem isDirectory_iff {t : FileTree} {p : Path} : t.isDirectory p = true ↔
    ∃ l, t.locate .existing p = .ok l ∧ t.node? l = some .directory := by
  rw [isDirectory, lookup?]
  cases t.locate .existing p with
  | error e => simp
  | ok l =>
    dsimp only
    cases hNode : t.node? l with
    | none => simp [hNode]
    | some n => cases n <;> simp [hNode]

theorem exists_steps_eq (p : Path) :
    ∃ tail, steps p = ((Path.parts p.bytes).filter fun part => !part.isEmpty) ++ tail := by
  simp only [steps]
  split
  · exact ⟨_, rfl⟩
  · exact ⟨[], (List.append_nil _).symm⟩

/-- Nothing new can come about under the path of a directory. -/
theorem locateFree_of_isDirectory {t : FileTree} {p : Path} (h : t.isDirectory p = true) :
    t.locateFree p = .error .exists := by
  obtain ⟨l, hLocate, hl⟩ := isDirectory_iff.1 h
  have hError := pathError?_of_locate hLocate
  rw [locate, hError] at hLocate
  dsimp only at hLocate
  obtain ⟨tail, hSteps⟩ := exists_steps_eq p
  rw [hSteps] at hLocate
  have hParent : ∀ k, t.walk .existing maxLinks (origin t.current p) (splitLast p).1 = .ok k →
      t.node? k = some .directory → t.locateParent p = .ok k := by
    intro k hWalk hNode
    rw [locateParent, hError]
    simp only [hWalk, bind, Except.bind, hNode]
  cases hLast : (splitLast p).2 with
  | none =>
    -- The path is the root, or the directory that one is in.
    have hParts : ((Path.parts p.bytes).filter fun part => !part.isEmpty) = [] :=
      List.getLast?_eq_none_iff.1 hLast
    have hBefore : (splitLast p).1 = [] := by
      show ((Path.parts p.bytes).filter fun part => !part.isEmpty).dropLast = []
      rw [hParts]
      rfl
    have hOrigin : t.walk .existing maxLinks (origin t.current p) [] =
        .ok (origin t.current p) := rfl
    have hNode : t.node? (origin t.current p) = some .directory := by
      rw [hParts, List.nil_append] at hLocate
      cases tail with
      | nil =>
        obtain rfl : origin t.current p = l := Except.ok.inj hLocate
        exact hl
      | cons part rest => exact node?_of_walk_cons hLocate
    rw [locateFree, hParent _ (by rw [hBefore]; exact hOrigin) hNode]
    simp only [bind, Except.bind, hLast]
  | some part =>
    rw [← splitLast_append hLast, List.append_assoc] at hLocate
    obtain ⟨n, k, hWalk, hRest⟩ := exists_walk_of_append hLocate
    have hNode : t.node? k = some .directory := node?_of_walk_cons hRest
    rw [locateFree, hParent k hWalk hNode]
    simp only [bind, Except.bind, hLast]
    by_cases hDots : part = [0x2E] ∨ part = [0x2E, 0x2E]
    · rw [if_pos hDots]
    · rw [if_neg hDots]
      rw [not_or] at hDots
      have hStep : Path.isStep part = true := isStep_of_splitLast hLast hDots.1
      have hNext : ¬ maxNameLength < part.length ∧ ∃ next, t.node? (k ++ [part]) = some next := by
        rw [walk_eq_walkWith, List.singleton_append, walkWith_existing_cons_iff] at hRest
        rcases hRest with ⟨m, hLeads, _⟩ | ⟨target, hLink, _⟩
        · cases hLeads with
          | idle _ hIdle => rw [hStep] at hIdle; cases hIdle
          | up _ hUp => exact absurd hUp hDots.2
          | name hEnters hNext _ => exact ⟨hEnters.short, _, hNext⟩
        · exact ⟨hLink.enters.short, _, hLink.next⟩
      obtain ⟨hShort, next, hNext⟩ := hNext
      rw [if_neg hShort, hNext]

theorem makeDirectoriesOf_of_isDirectory {t : FileTree} {p : Path} (outer : List Path)
    (h : t.isDirectory p = true) : makeDirectoriesOf (p :: outer) t = (t, .ok ()) := by
  rw [makeDirectoriesOf, makeDirectory, locateFree_of_isDirectory h]
  simp [h]

/-- A directory that is there need not be made. -/
theorem makeDirectories_of_isDirectory {t : FileTree} {p : Path} (h : t.isDirectory p = true) :
    t.makeDirectories p = (t, .ok ()) := by
  obtain ⟨l, hLocate, _⟩ := isDirectory_iff.1 h
  obtain ⟨_, hNonempty, _⟩ := pathError?_eq_none_iff.1 (pathError?_of_locate hLocate)
  have hAncestors : ∃ outer, (p.ancestors.filter fun q => !q.bytes.isEmpty) = p :: outer := by
    rw [Path.ancestors, Path.ancestorsOf, List.filter_cons_of_pos (by simpa using hNonempty)]
    exact ⟨_, rfl⟩
  obtain ⟨outer, hOuter⟩ := hAncestors
  rw [makeDirectories, hOuter, makeDirectoriesOf_of_isDirectory outer h]

/-! ## The directory of a file -/

/-- What a path goes through on the way to a directory, or to anything further on, is a
directory. -/
theorem isDirectory_of_walk {t : FileTree} {p d : Path} {k : Location} {rest : List Bytes}
    (hError : pathError? p = none) (hBytes : d.bytes <+: p.bytes) (hd : d.bytes ≠ [])
    (hWalk : t.walk .existing maxLinks (origin t.current p) (d.spine ++ rest) = .ok k)
    (hk : rest ≠ [] ∨ t.node? k = some .directory) : t.isDirectory d = true := by
  rw [origin, ← Path.isAbsolute_of_prefix hBytes hd, ← origin] at hWalk
  obtain ⟨n, l, hBefore, hRest⟩ := exists_walk_of_append hWalk
  have hl : t.node? l = some .directory := by
    cases rest with
    | nil =>
      rw [walk_eq_walkWith] at hRest
      exact node?_of_walkWith_directory (hk.resolve_left fun h => h rfl) hRest
    | cons part rest => exact node?_of_walk_cons hRest
  obtain ⟨hNul, _, hShort⟩ := pathError?_eq_none_iff.1 hError
  have hErrorD : pathError? d = none := pathError?_eq_none_iff.2
    ⟨fun hMem => hNul (hBytes.subset hMem), hd, Nat.lt_of_le_of_lt hBytes.length_le hShort⟩
  exact isDirectory_iff.2 ⟨l, locate_of_walk_spine hErrorD hl hBefore, hl⟩

/-- Where a file can be read, the path's parent is a directory. -/
theorem isDirectory_of_parent? {t : FileTree} {p d : Path} {content : Bytes}
    (hRead : t.read p = .ok content) (hParent : p.parent? = some d) (hd : d.bytes ≠ []) :
    t.isDirectory d = true := by
  obtain ⟨l, hLocate, _⟩ := read_eq_ok_iff.1 hRead
  have hp : Addressable p := addressable_of_isFile (isFile_of_read hRead)
  obtain ⟨part, rest, hSpine⟩ := Path.exists_spine_eq_of_parent? hParent hd
  rw [locate_of_addressable hp, walk_pads (pads_filter hp.isStep_last), filter_steps_eq_spine,
    hSpine] at hLocate
  exact isDirectory_of_walk hp.noError (Path.prefix_of_parent? hParent).1 hd hLocate
    (.inl (List.cons_ne_nil part rest))

/-! ## Writing where there is a file -/

/-- A walk to a file is the same if its last part may be new. -/
theorem walkWith_new_of_existing {t : FileTree} {l : Location} {content : Bytes}
    (hl : t.node? l = some (.file content))
    {goOld goNew : Location → List Bytes → Except FileError Location}
    (hGo : ∀ m xs, goOld m xs = .ok l → goNew m xs = .ok l)
    (hSlash : ∀ m xs, goOld m (xs ++ [[]]) ≠ .ok l) (xs : List Bytes) (m : Location)
    (h : t.walkWith .existing goOld m xs = .ok l) : t.walkWith .new goNew m xs = .ok l := by
  induction xs generalizing m with
  | nil => exact h
  | cons part rest ih =>
    -- A slash at the end would lead to a directory.
    have hRest : LastPart.new = .new → rest ≠ [[]] := by
      rintro - rfl
      rcases walkWith_existing_cons_iff.1 h with ⟨k, _, hEnd⟩ | ⟨target, _, hEnd⟩
      · obtain ⟨hDirectory, hEq⟩ := (walkWith_idle_iff rfl).1 hEnd
        obtain rfl : k = l := Except.ok.inj hEq
        rw [hl] at hDirectory
        cases hDirectory
      · exact hSlash _ _ hEnd
    rcases walkWith_existing_cons_iff.1 h with ⟨k, hLeads, hWalk⟩ | ⟨target, hLink, hWalk⟩
    · rw [hLeads.walkWith_cons hRest]
      exact ih k hWalk
    · rw [hLink.walkWith_cons (fun hLast => by cases hLast) hRest]
      exact hGo _ _ hWalk

theorem walk_new_of_existing {t : FileTree} {l : Location} {content : Bytes}
    (hl : t.node? l = some (.file content)) {links : Nat} (xs : List Bytes) (m : Location)
    (h : t.walk .existing links m xs = .ok l) : t.walk .new links m xs = .ok l := by
  have hSlash : ∀ links m xs, t.walk .existing links m (xs ++ [[]]) ≠ .ok l := by
    intro links m xs hWalk
    rw [node?_of_walk_concat rfl hWalk] at hl
    cases hl
  induction links generalizing xs m with
  | zero =>
    rw [walk_eq_walkWith] at h ⊢
    exact walkWith_new_of_existing hl (fun _ _ hGo => by cases hGo) (fun _ _ hGo => by cases hGo)
      xs m h
  | succ links ih =>
    rw [walk_eq_walkWith] at h ⊢
    exact walkWith_new_of_existing hl (fun m xs hGo => ih xs m hGo) (hSlash links) xs m h

/-- What can be read can be written. -/
theorem exists_write_of_read {t : FileTree} {p : Path} {old : Bytes} (h : t.read p = .ok old)
    (content : Bytes) : ∃ u, t.write p content = (u, .ok ()) := by
  obtain ⟨l, hLocate, hl⟩ := read_eq_ok_iff.1 h
  have hNew : t.locate .new p = .ok l := by
    rw [locate] at hLocate ⊢
    split at hLocate
    · cases hLocate
    · exact walk_new_of_existing hl _ _ hLocate
  have hTarget : t.locateTarget p = .ok l := by
    rw [locateTarget, hNew]
    simp only [bind, Except.bind, hl]
  exact ⟨t.set l (.file content), by rw [write, hTarget]⟩

end FileTree

end AnalysisCache
