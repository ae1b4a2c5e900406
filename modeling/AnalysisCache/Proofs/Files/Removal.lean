import AnalysisCache.Proofs.Files.Overwrite

/-!
# Removing a file

A file that can be read can be removed. If it is found by way of a link, the link goes and the file
stays. Either way the path leads nowhere after that, and everything else is as it was. No way to a
directory is lost, since none can go on from a file or from a link to one.

* `FileTree.exists_removeFile`: what can be read can be removed.
* `FileTree.Without.not_isFile`: what has been removed is not there any more.
* `FileTree.Without.isDirectory`: all directories are still there.
-/

namespace AnalysisCache

namespace FileTree

/-- `u` is `t` without the file or link that a path leads to. -/
def Without (t u : FileTree) (p : Path) : Prop :=
  ∃ l n, t.locate .existingLink p = .ok l ∧ t.node? l = some n ∧ n ≠ .directory ∧ u = t.remove l

/-- Removing a file takes away the node that its path leads to, or nothing. -/
theorem removeFile_cases (t : FileTree) (p : Path) :
    (t.removeFile p).1 = t ∨
      ∃ l, t.locate .existingLink p = .ok l ∧ (t.removeFile p).1 = t.remove l := by
  rw [removeFile]
  split
  · exact .inl rfl
  · rename_i l hLocate
    split
    · exact .inl rfl
    · exact .inr ⟨l, hLocate, rfl⟩

/-! ## Walks that stop at a link -/

section

variable {t : FileTree} {l : Location} {part : Bytes} {rest : List Bytes} {target : Path}
  {go : Location → List Bytes → Except FileError Location}

theorem LinksTo.walkWith_stop (h : LinksTo t l part target) :
    walkWith t .existingLink go l [part] = .ok (l ++ [part]) := by
  rw [walkWith, h.enters.directory]
  dsimp only
  rw [if_neg h.enters.not_idle, if_neg h.enters.not_up, if_neg (by simp),
    if_neg h.enters.short, h.next]
  dsimp only
  rw [if_pos ⟨rfl, rfl⟩]

theorem LinksTo.walkWith_go (h : LinksTo t l part target) (hRest : rest ≠ []) :
    walkWith t .existingLink go l (part :: rest) = go (origin l target) (steps target ++ rest) :=
  h.walkWith_cons (fun _ => hRest) fun hNew => by cases hNew

end

/-- A walk that leads somewhere leads there with more links to follow. -/
theorem walk_succ {t : FileTree} {links : Nat} {x : Location} (xs : List Bytes) (m : Location)
    (h : t.walk .existing links m xs = .ok x) : t.walk .existing (links + 1) m xs = .ok x := by
  have hSelf := Within.refl t
  induction links generalizing xs m with
  | zero => exact hSelf.walkWith (fun _ _ hGo => by cases hGo) xs m h
  | succ links ih => exact hSelf.walkWith (fun m xs hGo => ih xs m hGo) xs m h

theorem walk_mono {t : FileTree} {n k : Nat} {m x : Location} {xs : List Bytes} (hn : n ≤ k)
    (h : t.walk .existing n m xs = .ok x) : t.walk .existing k m xs = .ok x := by
  induction hn with
  | refl => exact h
  | step _ ih => exact walk_succ xs m ih

theorem walk_unique {t : FileTree} {n k : Nat} {m x y : Location} {xs : List Bytes}
    (hx : t.walk .existing n m xs = .ok x) (hy : t.walk .existing k m xs = .ok y) : x = y := by
  have hBoth := walk_mono (Nat.le_max_left n k) hx
  rw [walk_mono (Nat.le_max_right n k) hy] at hBoth
  exact (Except.ok.inj hBoth).symm

theorem exists_walk_of_follow {t : FileTree} {links : Nat} {m x : Location} {xs : List Bytes}
    (h : follow t .existing links m xs = .ok x) : ∃ n, t.walk .existing n m xs = .ok x := by
  cases links with
  | zero => cases h
  | succ links => exact ⟨links, h⟩

/-- Whether a location is another one, or that of a link to it. -/
def EndsAt (t : FileTree) (l x : Location) : Prop :=
  l = x ∨ ∃ target links, t.node? l = some (.link target) ∧
    t.walk .existing links (origin l.dropLast target) (steps target) = .ok x

/-- A walk that leads somewhere leads there also if it may stop at a link, or it stops at a link to
there. -/
theorem walkWith_existingLink {t : FileTree} {x : Location} {links : Nat}
    (hGo : ∀ m xs, follow t .existing links m xs = .ok x →
      ∃ l, follow t .existingLink links m xs = .ok l ∧ EndsAt t l x)
    (xs : List Bytes) (m : Location)
    (h : t.walkWith .existing (follow t .existing links) m xs = .ok x) :
    ∃ l, t.walkWith .existingLink (follow t .existingLink links) m xs = .ok l ∧ EndsAt t l x := by
  induction xs generalizing m with
  | nil => exact ⟨m, rfl, .inl (Except.ok.inj h)⟩
  | cons part rest ih =>
    rcases walkWith_existing_cons_iff.1 h with ⟨k, hLeads, hRest⟩ | ⟨target, hLink, hRest⟩
    · rw [hLeads.walkWith_cons fun hNew => by cases hNew]
      exact ih k hRest
    · by_cases hEnd : rest = []
      · subst hEnd
        rw [List.append_nil] at hRest
        obtain ⟨n, hWalk⟩ := exists_walk_of_follow hRest
        refine ⟨m ++ [part], hLink.walkWith_stop, .inr ⟨target, n, hLink.next, ?_⟩⟩
        rw [List.dropLast_concat]
        exact hWalk
      · rw [hLink.walkWith_go hEnd]
        exact hGo _ _ hRest

theorem walk_existingLink {t : FileTree} {x : Location} {links : Nat} (xs : List Bytes)
    (m : Location) (h : t.walk .existing links m xs = .ok x) :
    ∃ l, t.walk .existingLink links m xs = .ok l ∧ EndsAt t l x := by
  induction links generalizing xs m with
  | zero =>
    rw [walk_eq_walkWith] at h ⊢
    exact walkWith_existingLink (fun _ _ hGo => by cases hGo) xs m h
  | succ links ih =>
    have hGo : ∀ m xs, follow t .existing (links + 1) m xs = .ok x →
        ∃ l, follow t .existingLink (links + 1) m xs = .ok l ∧ EndsAt t l x :=
      fun m xs hGo => ih xs m hGo
    rw [walk_eq_walkWith] at h ⊢
    exact walkWith_existingLink hGo xs m h

/-- Where a path to a file leads, and the file or link to it that is there. -/
theorem exists_locate_of_isFile {t : FileTree} {p : Path} (h : t.isFile p = true) :
    ∃ l x content, t.locate .existingLink p = .ok l ∧ EndsAt t l x ∧
      t.node? x = some (.file content) := by
  obtain ⟨content, hRead⟩ := isFile_iff.1 h
  obtain ⟨x, hLocate, hx⟩ := read_eq_ok_iff.1 hRead
  rw [locate_of_addressable (addressable_of_isFile h)] at hLocate
  obtain ⟨l, hWalk, hEnd⟩ := walk_existingLink _ _ hLocate
  refine ⟨l, x, content, ?_, hEnd, hx⟩
  rw [locate, (addressable_of_isFile h).noError]
  exact hWalk

/-- What can be read can be removed, unless it is only a link to it that is removed. -/
theorem exists_removeFile {t : FileTree} {p : Path} (h : t.isFile p = true) :
    Without t (t.removeFile p).1 p ∧ (t.removeFile p).2 = .ok () := by
  obtain ⟨l, n, hLink, hNode, hn⟩ : ∃ l n, t.locate .existingLink p = .ok l ∧
      t.node? l = some n ∧ n ≠ .directory := by
    obtain ⟨l, x, content, hLocate, hEnd, hx⟩ := exists_locate_of_isFile h
    rcases hEnd with rfl | ⟨target, _, hTarget, _⟩
    · exact ⟨l, _, hLocate, hx, by simp⟩
    · exact ⟨l, _, hLocate, hTarget, by simp⟩
  have hRemove : t.removeFile p = (t.remove l, .ok ()) := by
    rw [removeFile, hLink]
    dsimp only
    rw [hNode]
    cases n with
    | directory => exact absurd rfl hn
    | file _ => rfl
    | link _ => rfl
  rw [hRemove]
  exact ⟨⟨l, n, hLink, hNode, hn, rfl⟩, rfl⟩

/-! ## Directories -/

/-- Whether no directory is at a location or behind it. -/
def IsDeadEnd (t : FileTree) (l : Location) : Prop :=
  t.node? l ≠ some .directory ∧ ∀ target links x, t.node? l = some (.link target) →
    t.walk .existing links (origin l.dropLast target) (steps target) = .ok x →
      t.node? x ≠ some .directory

theorem isDeadEnd_of_endsAt {t : FileTree} {l x : Location} {content : Bytes} (h : EndsAt t l x)
    (hx : t.node? x = some (.file content)) : IsDeadEnd t l := by
  rcases h with rfl | ⟨target, links, hLink, hWalk⟩
  · rw [IsDeadEnd, hx]
    exact ⟨by simp, fun _ _ _ hLink => by cases hLink⟩
  · refine ⟨by simp [hLink], fun target' links' y hLink' hWalk' => ?_⟩
    rw [hLink] at hLink'
    cases hLink'
    rw [walk_unique hWalk' hWalk, hx]
    simp

section

variable {t : FileTree} {l : Location} (hl : IsDeadEnd t l)

include hl

theorem IsDeadEnd.node?_remove (m : Location) :
    (t.remove l).node? m = if m = l then none else t.node? m := by
  refine FileTree.node?_remove t m ?_
  rintro rfl
  exact hl.1 rfl

theorem IsDeadEnd.directory {m : Location} (h : t.node? m = some .directory) :
    (t.remove l).node? m = some .directory := by
  rw [hl.node?_remove, if_neg]
  · exact h
  · rintro rfl
    exact hl.1 h

theorem IsDeadEnd.enters {m : Location} {part : Bytes} (h : Enters t m part) :
    Enters (t.remove l) m part :=
  ⟨hl.directory h.directory, h.isStep, h.not_up, h.short⟩

/-- A walk to a directory does not come by what is removed. -/
theorem walkWith_remove_of_directory {k : Location} (hk : t.node? k = some .directory)
    {links : Nat} {go : Location → List Bytes → Except FileError Location}
    (hGo : ∀ m xs, follow t .existing links m xs = .ok k → go m xs = .ok k)
    (xs : List Bytes) (m : Location)
    (h : t.walkWith .existing (follow t .existing links) m xs = .ok k) :
    (t.remove l).walkWith .existing go m xs = .ok k := by
  induction xs generalizing m with
  | nil => exact h
  | cons part rest ih =>
    -- What follows goes on from a directory, or it is one.
    have hNext : ∀ n x, t.walk .existing n x rest = .ok k → t.node? x = some .directory := by
      intro n x hWalk
      cases rest with
      | nil =>
        rw [walk_eq_walkWith] at hWalk
        obtain rfl : x = k := Except.ok.inj hWalk
        exact hk
      | cons _ _ => exact node?_of_walk_cons hWalk
    rw [walkWith_existing_cons_iff] at h ⊢
    rcases h with ⟨y, hLeads, hRest⟩ | ⟨target, hLink, hRest⟩
    · refine .inl ⟨y, ?_, ih y hRest⟩
      cases hLeads with
      | idle hDirectory hPart => exact .idle (hl.directory hDirectory) hPart
      | up hDirectory hPart => exact .up (hl.directory hDirectory) hPart
      | name hEnters _ hNode =>
        have hDirectory := hNext links _ (by rw [walk_eq_walkWith]; exact hRest)
        exact .name (hl.enters hEnters) (hl.directory hDirectory) (fun _ h => by cases h)
    · refine .inr ⟨target, ⟨hl.enters hLink.enters, ?_⟩, hGo _ _ hRest⟩
      rw [hl.node?_remove, if_neg]
      · exact hLink.next
      · rintro rfl
        obtain ⟨n, hWalk⟩ := exists_walk_of_follow hRest
        obtain ⟨n', x, hBefore, hAfter⟩ := exists_walk_of_append hWalk
        have hHere : (m ++ [part]).dropLast = m := List.dropLast_concat
        rw [← hHere] at hBefore
        exact hl.2 target n x hLink.next hBefore (hNext n' x hAfter)

theorem walk_remove_of_directory {k : Location} (hk : t.node? k = some .directory) {links : Nat}
    (xs : List Bytes) (m : Location) (h : t.walk .existing links m xs = .ok k) :
    (t.remove l).walk .existing links m xs = .ok k := by
  induction links generalizing xs m with
  | zero =>
    rw [walk_eq_walkWith] at h ⊢
    exact walkWith_remove_of_directory hl hk (fun _ _ hGo => by cases hGo) xs m h
  | succ links ih =>
    have hGo : ∀ m xs, follow t .existing (links + 1) m xs = .ok k →
        (t.remove l).walk .existing links m xs = .ok k := fun m xs hGo => ih xs m hGo
    rw [walk_eq_walkWith] at h ⊢
    exact walkWith_remove_of_directory hl hk hGo xs m h

end

/-- All directories are still there when a file is gone. -/
theorem Without.isDirectory {t u : FileTree} {p d : Path} (h : Without t u p)
    (hp : t.isFile p = true) (hd : t.isDirectory d = true) : u.isDirectory d = true := by
  obtain ⟨l, _, hLocate, _, _, rfl⟩ := h
  obtain ⟨l', x, content, hLocate', hEnd, hx⟩ := exists_locate_of_isFile hp
  rw [hLocate'] at hLocate
  cases hLocate
  have hl := isDeadEnd_of_endsAt hEnd hx
  obtain ⟨k, hWalk, hk⟩ := isDirectory_iff.1 hd
  refine isDirectory_iff.2 ⟨k, ?_, hl.directory hk⟩
  rw [locate] at hWalk ⊢
  split at hWalk
  · cases hWalk
  · exact walk_remove_of_directory hl hk _ _ hWalk

/-! ## What is left -/

section

variable {t : FileTree} {l : Location} (hl : (t.remove l).node? l = none)

include hl

/-- Where a walk came to what is removed, it comes to nothing that is there. -/
theorem walkWith_remove {x : Location}
    {go goLink : Location → List Bytes → Except FileError Location}
    (hGo : ∀ m xs, goLink m xs = .ok l → go m xs = .ok x → (t.remove l).node? x = none)
    (xs : List Bytes) (m : Location) (hLink : t.walkWith .existingLink goLink m xs = .ok l)
    (hWalk : (t.remove l).walkWith .existing go m xs = .ok x) : (t.remove l).node? x = none := by
  induction xs generalizing m with
  | nil =>
    obtain rfl : m = l := Except.ok.inj hLink
    obtain rfl : m = x := Except.ok.inj hWalk
    exact hl
  | cons part rest ih =>
    have hWithin := within_remove t l
    rcases walkWith_existing_cons_iff.1 hWalk with ⟨k, hLeads, hRest⟩ | ⟨target, hTo, hRest⟩
    · rw [(hWithin.leads hLeads).walkWith_cons fun hNew => by cases hNew] at hLink
      exact ih k hLink hRest
    · have hOld : LinksTo t m part target :=
        ⟨hWithin.enters hTo.enters, hWithin.node? _ _ hTo.next⟩
      by_cases hEnd : rest = []
      · -- The link itself was removed.
        subst hEnd
        rw [hOld.walkWith_stop] at hLink
        have hNext := hTo.next
        rw [Except.ok.inj hLink, hl] at hNext
        cases hNext
      · rw [hOld.walkWith_go hEnd] at hLink
        exact hGo _ _ hLink hRest

theorem walk_remove {x : Location} {links : Nat} (xs : List Bytes) (m : Location)
    (hLink : t.walk .existingLink links m xs = .ok l)
    (hWalk : (t.remove l).walk .existing links m xs = .ok x) : (t.remove l).node? x = none := by
  induction links generalizing xs m with
  | zero =>
    rw [walk_eq_walkWith] at hLink hWalk
    exact walkWith_remove hl (fun _ _ hGo => by cases hGo) xs m hLink hWalk
  | succ links ih =>
    rw [walk_eq_walkWith] at hLink hWalk
    exact walkWith_remove hl (fun m xs hGoLink hGo => ih xs m hGoLink hGo) xs m hLink hWalk

end

theorem Without.not_isFile {t u : FileTree} {p : Path} (h : Without t u p) :
    u.isFile p = false := by
  obtain ⟨l, n, hLocate, hNode, hn, rfl⟩ := h
  have hRoot : l ≠ [] := by
    rintro rfl
    exact hn (Option.some.inj hNode).symm
  have hl : (t.remove l).node? l = none := by rw [node?_remove t l hRoot, if_pos rfl]
  rw [← Bool.not_eq_true]
  intro hFile
  obtain ⟨content, hRead⟩ := isFile_iff.1 hFile
  obtain ⟨x, hx, hContent⟩ := read_eq_ok_iff.1 hRead
  rw [locate_of_addressable (addressable_of_isFile hFile), current_remove] at hx
  rw [locate, (addressable_of_isFile hFile).noError] at hLocate
  rw [walk_remove hl _ _ hLocate hx] at hContent
  cases hContent

/-- Something is removed. -/
theorem Without.irrefl {t : FileTree} {p : Path} : ¬ Without t t p := by
  rintro ⟨l, n, _, hNode, hn, hEq⟩
  have hRoot : l ≠ [] := by
    rintro rfl
    exact hn (Option.some.inj hNode).symm
  have hGone := node?_remove t l hRoot
  rw [← hEq, hNode, if_pos rfl] at hGone
  cases hGone

end FileTree

end AnalysisCache
