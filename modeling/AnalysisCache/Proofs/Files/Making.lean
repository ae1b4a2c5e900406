import AnalysisCache.Proofs.Files.Overwrite

/-!
# Making directories twice

Directories are made from the outside in, as far as they can be. If one of them cannot be made,
those further in are not there, and what stands in its way is still in its way the next time. So
whatever came of it, making the same directories again changes nothing.

* `FileTree.makeDirectoriesOf_eq_ok_iff`: directories could be made if the innermost one is there.
* `FileTree.makeDirectories_again`: making directories twice comes to making them once.
-/

namespace AnalysisCache

/-- Whether a path is the parent of another one, and has a name. -/
def Path.IsParent (p d : Path) : Prop := p.parent? = some d ∧ d.bytes ≠ []

/-- Of the paths that directories are made of, each is the parent of the one before. -/
theorem Path.isChain_ancestorsOf (n : Nat) (p : Path) :
    ((ancestorsOf n p).filter fun q => !q.bytes.isEmpty).IsChain IsParent := by
  induction n generalizing p with
  | zero => exact .nil
  | succ n ih =>
    have hNone : (⟨[]⟩ : Path).parent? = none := rfl
    rw [ancestorsOf]
    cases hParent : p.parent? with
    | none =>
      dsimp only
      rw [List.filter_cons]
      split
      · exact .singleton p
      · exact .nil
    | some q =>
      have hp : p.bytes ≠ [] := by
        obtain ⟨b⟩ := p
        rintro rfl
        rw [hNone] at hParent
        cases hParent
      have hRest := ih q
      rw [List.filter_cons_of_pos (by simpa using hp)]
      cases n with
      | zero => exact .singleton p
      | succ n =>
        dsimp only
        rw [ancestorsOf] at hRest ⊢
        by_cases hq : q.bytes = []
        · -- Nothing has no parent.
          obtain ⟨b⟩ := q
          obtain rfl : b = [] := hq
          rw [hNone]
          exact .singleton p
        · rw [List.filter_cons_of_pos (by simpa using hq)] at hRest ⊢
          exact .cons_cons ⟨hParent, hq⟩ hRest

namespace FileTree

variable {t : FileTree} {p d : Path}

/-! ## Parents -/

/-- The parent of a directory is a directory. -/
theorem isDirectory_of_isParent (hParent : p.IsParent d) (h : t.isDirectory p = true) :
    t.isDirectory d = true := by
  obtain ⟨l, hLocate, hl⟩ := isDirectory_iff.1 h
  have hError := pathError?_of_locate hLocate
  obtain ⟨part, rest, hSpine⟩ := Path.exists_spine_eq_of_parent? hParent.1 hParent.2
  rw [locate, hError] at hLocate
  have hWalk := walk_of_loose (loose_filter (steps p)) _ hLocate
  rw [filter_steps_eq_spine, hSpine] at hWalk
  exact isDirectory_of_walk hError (Path.prefix_of_parent? hParent.1).1 hParent.2 hWalk (.inr hl)

/-- A new directory is made in its parent. -/
theorem isDirectory_of_locateFree (hParent : p.IsParent d) {l : Location}
    (h : t.locateFree p = .ok l) : t.isDirectory d = true := by
  obtain ⟨k, part, _, hLast, hk, _, hWalk, hStep, _⟩ := locateFree_eq_ok h
  obtain ⟨part', rest, hSpine⟩ := Path.exists_spine_eq_of_parent? hParent.1 hParent.2
  -- The parent has no other steps than those before the last part.
  have hBefore : (splitLast p).1.filter Path.isStep = d.spine ++ (part' :: rest).dropLast := by
    have hSteps := spine_of_splitLast hLast
    rw [List.filter_append, List.filter_cons_of_pos hStep, List.filter_nil, hSpine] at hSteps
    have hDrop := congrArg List.dropLast hSteps
    rwa [List.dropLast_concat, List.dropLast_append_of_ne_nil (List.cons_ne_nil _ _)] at hDrop
  have hWalk := walk_of_loose (loose_filter (splitLast p).1) _ hWalk
  rw [hBefore] at hWalk
  exact isDirectory_of_walk (pathError?_of_locateFree h) (Path.prefix_of_parent? hParent.1).1
    hParent.2 hWalk (.inr hk)

/-! ## One directory -/

theorem isDirectory_of_makeDirectory {u : FileTree} (h : t.makeDirectory p = (u, .ok ())) :
    u.isDirectory p = true := by
  rw [makeDirectory] at h
  split at h
  · rename_i l hFree
    cases h
    have hLeads := walk_set_directory hFree
    have hError := pathError?_of_locateFree hFree
    obtain ⟨k, part, rfl, _⟩ := locateFree_eq_ok hFree
    have hl : (t.set (k ++ [part]) .directory).node? (k ++ [part]) = some .directory := by
      rw [node?_set_concat, if_pos rfl]
    exact isDirectory_iff.2 ⟨_, locate_of_walk_spine hError hl hLeads, hl⟩
  · cases h

theorem makeDirectory_cases (t : FileTree) (p : Path) :
    (∃ u, t.makeDirectory p = (u, .ok ())) ∨ ∃ e, t.makeDirectory p = (t, .error e) := by
  rw [makeDirectory]
  cases t.locateFree p with
  | ok l => exact .inl ⟨_, rfl⟩
  | error e => exact .inr ⟨e, rfl⟩

/-- A directory is made in its parent. -/
theorem isDirectory_parent_of_makeDirectory (hParent : p.IsParent d) {u : FileTree}
    (h : t.makeDirectory p = (u, .ok ())) : t.isDirectory d = true := by
  rw [makeDirectory] at h
  split at h
  · rename_i l hFree
    exact isDirectory_of_locateFree hParent hFree
  · cases h

/-! ## One directory after the other -/

/-- What making directories comes to: the innermost one is made at once, or cannot be made for
another reason than that its parent is missing, or it is tried again after the others are made. -/
theorem makeDirectoriesOf_cons_cases (t : FileTree) (p : Path) (outer : List Path) :
    (∃ u, t.makeDirectory p = (u, .ok ()) ∧ makeDirectoriesOf (p :: outer) t = (u, .ok ())) ∨
    (∃ e, e ≠ .notFound ∧ t.makeDirectory p = (t, .error e) ∧ makeDirectoriesOf (p :: outer) t =
      (t, if t.isDirectory p then .ok () else .error e)) ∨
    t.makeDirectory p = (t, .error .notFound) ∧
      ((∃ u e, makeDirectoriesOf outer t = (u, .error e) ∧
        makeDirectoriesOf (p :: outer) t = (u, .error e)) ∨
      ∃ u, makeDirectoriesOf outer t = (u, .ok ()) ∧
        ((∃ v, u.makeDirectory p = (v, .ok ()) ∧ makeDirectoriesOf (p :: outer) t = (v, .ok ())) ∨
        ∃ e, u.makeDirectory p = (u, .error e) ∧ makeDirectoriesOf (p :: outer) t =
          (u, if u.isDirectory p then .ok () else .error e))) := by
  rw [makeDirectoriesOf]
  rcases makeDirectory_cases t p with ⟨u, hMade⟩ | ⟨e, hFailed⟩
  · exact .inl ⟨u, hMade, by rw [hMade]⟩
  · rw [hFailed]
    by_cases hMissing : e = .notFound
    · subst hMissing
      refine .inr (.inr ⟨rfl, ?_⟩)
      dsimp only
      rw [if_pos rfl]
      cases hOuter : makeDirectoriesOf outer t with
      | mk u outcome =>
      cases outcome with
      | error e => exact .inl ⟨u, e, rfl, rfl⟩
      | ok _ =>
        refine .inr ⟨u, rfl, ?_⟩
        dsimp only
        rcases makeDirectory_cases u p with ⟨v, hMade⟩ | ⟨e, hAgain⟩
        · exact .inl ⟨v, hMade, by rw [hMade]⟩
        · refine .inr ⟨e, hAgain, ?_⟩
          rw [hAgain]
          dsimp only
          split <;> rfl
    · refine .inr (.inl ⟨e, hMissing, rfl, ?_⟩)
      dsimp only
      rw [if_neg hMissing]
      split <;> rfl

theorem makeDirectoriesOf_eq_ok_iff_of_outer {outer : List Path}
    (hOuter : ∀ u e, makeDirectoriesOf outer t = (u, .error e) → ¬ u.isDirectory p = true) :
    (makeDirectoriesOf (p :: outer) t).2 = .ok () ↔
      (makeDirectoriesOf (p :: outer) t).1.isDirectory p = true := by
  rcases makeDirectoriesOf_cons_cases t p outer with ⟨u, hMade, hEq⟩ | ⟨e, _, _, hEq⟩ |
    ⟨_, ⟨u, e, hFailed, hEq⟩ | ⟨u, _, ⟨v, hMade, hEq⟩ | ⟨e, _, hEq⟩⟩⟩
  · simp [hEq, isDirectory_of_makeDirectory hMade]
  · cases hThere : t.isDirectory p <;> simp [hEq, hThere]
  · simp [hEq, hOuter u e hFailed]
  · simp [hEq, isDirectory_of_makeDirectory hMade]
  · cases hThere : u.isDirectory p <;> simp [hEq, hThere]

/-- Directories could all be made if and only if the innermost one is there. -/
theorem makeDirectoriesOf_eq_ok_iff {outer : List Path}
    (hChain : (p :: outer).IsChain Path.IsParent) :
    (makeDirectoriesOf (p :: outer) t).2 = .ok () ↔
      (makeDirectoriesOf (p :: outer) t).1.isDirectory p = true := by
  induction outer generalizing p with
  | nil => exact makeDirectoriesOf_eq_ok_iff_of_outer fun u e h => by cases h
  | cons d outer ih =>
    obtain ⟨hParent, hOuterChain⟩ := List.isChain_cons_cons.1 hChain
    refine makeDirectoriesOf_eq_ok_iff_of_outer fun u e hFailed hThere => ?_
    -- If the path were a directory, its parent would be one, and could have been made.
    have hOk := (ih hOuterChain).2 (by rw [hFailed]; exact isDirectory_of_isParent hParent hThere)
    rw [hFailed] at hOk
    cases hOk

/-! ## The same directories again -/

/-- Where a directory cannot be made, and making the ones around it changes nothing, nothing
changes. -/
theorem files_of_makeDirectory_error {outer : List Path} {e : FileError}
    (h : t.makeDirectory p = (t, .error e)) (hOuter : (makeDirectoriesOf outer t).1 = t) :
    (makeDirectoriesOf (p :: outer) t).1 = t := by
  rcases makeDirectoriesOf_cons_cases t p outer with ⟨u, hMade, _⟩ | ⟨e, _, _, hEq⟩ |
    ⟨_, ⟨u, e, hFailed, hEq⟩ | ⟨u, hOk, ⟨v, hMade, _⟩ | ⟨e, _, hEq⟩⟩⟩
  · rw [h] at hMade
    cases hMade
  · rw [hEq]
  · rw [hFailed] at hOuter
    rw [hEq]
    exact hOuter
  · rw [hOk] at hOuter
    obtain rfl : u = t := hOuter
    rw [h] at hMade
    cases hMade
  · rw [hOk] at hOuter
    rw [hEq]
    exact hOuter

theorem makeDirectoriesOf_again {ps : List Path} (hChain : ps.IsChain Path.IsParent) :
    (makeDirectoriesOf ps (makeDirectoriesOf ps t).1).1 = (makeDirectoriesOf ps t).1 := by
  induction ps with
  | nil => rfl
  | cons p outer ih =>
    have hAgain := ih hChain.of_cons
    rcases makeDirectoriesOf_cons_cases t p outer with ⟨u, hMade, hEq⟩ | ⟨e, _, _, hEq⟩ |
      ⟨_, ⟨u, e, hFailed, hEq⟩ | ⟨u, hOk, ⟨v, hMade, hEq⟩ | ⟨e, hFailed, hEq⟩⟩⟩
    · rw [hEq, makeDirectoriesOf_of_isDirectory outer (isDirectory_of_makeDirectory hMade)]
    · rw [hEq, hEq]
    · rw [hFailed] at hAgain
      rw [hEq]
      rcases makeDirectory_cases u p with ⟨v, hMade⟩ | ⟨e', hFailed'⟩
      · -- The directory could only be made now if its parent were there.
        cases outer with
        | nil => cases hFailed
        | cons d outer =>
          obtain ⟨hParent, hOuterChain⟩ := List.isChain_cons_cons.1 hChain
          have hOk := (makeDirectoriesOf_eq_ok_iff hOuterChain).2
            (by rw [hFailed]; exact isDirectory_parent_of_makeDirectory hParent hMade)
          rw [hFailed] at hOk
          cases hOk
      · exact files_of_makeDirectory_error hFailed' hAgain
    · rw [hEq, makeDirectoriesOf_of_isDirectory outer (isDirectory_of_makeDirectory hMade)]
    · rw [hOk] at hAgain
      rw [hEq]
      exact files_of_makeDirectory_error hFailed hAgain

/-- Making directories twice comes to making them once, whether they can all be made or not. -/
theorem makeDirectories_again (t : FileTree) (p : Path) :
    ((t.makeDirectories p).1.makeDirectories p).1 = (t.makeDirectories p).1 :=
  makeDirectoriesOf_again (Path.isChain_ancestorsOf _ p)

end FileTree

end AnalysisCache
