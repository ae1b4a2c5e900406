import AnalysisCache.Proofs.Files.Directories

/-!
# What making directories leaves alone

Making directories adds directories, each at a location that one of the paths asked for leads to.
All that was there stays as it was, whether the directories could all be made or not.

* `FileTree.locate_of_walk_spine`: a directory may be followed by slashes and dots.
* `FileTree.makeDirectories_grown`: what making directories adds.
-/

namespace AnalysisCache

namespace FileTree

/-! ## Slashes and dots behind a directory -/

/-- `Loose xs ys`: `xs` is `ys` with parts put in that stay in place, also at the end. -/
inductive Loose : List Bytes → List Bytes → Prop where
  | refl (xs : List Bytes) : Loose xs xs
  | step (part : Bytes) {xs ys : List Bytes} (h : Loose xs ys) : Loose (part :: xs) (part :: ys)
  | idle {part : Bytes} {xs ys : List Bytes} (hPart : Path.isStep part = false) (h : Loose xs ys) :
      Loose (part :: xs) ys

theorem Loose.append_left {xs ys : List Bytes} (h : Loose xs ys) (zs : List Bytes) :
    Loose (zs ++ xs) (zs ++ ys) := by
  induction zs with
  | nil => exact h
  | cons z rest ih => exact .step z ih

theorem loose_filter (xs : List Bytes) : Loose xs (xs.filter Path.isStep) := by
  induction xs with
  | nil => exact .refl []
  | cons part rest ih =>
    cases hPart : Path.isStep part with
    | true =>
      rw [List.filter_cons_of_pos hPart]
      exact .step part ih
    | false =>
      rw [List.filter_cons_of_neg (by simp [hPart])]
      exact .idle hPart ih

/-- Nothing but a directory leads to a directory. -/
theorem node?_of_walkWith_directory {t : FileTree}
    {go : Location → List Bytes → Except FileError Location} {k l : Location} {xs : List Bytes}
    (hk : t.node? k = some .directory) (h : walkWith t .existing go l xs = .ok k) :
    t.node? l = some .directory := by
  cases xs with
  | nil =>
    cases h
    exact hk
  | cons part rest => exact node?_of_walkWith_cons h

theorem walkWith_loose {t : FileTree} {go : Location → List Bytes → Except FileError Location}
    {k : Location} (hk : t.node? k = some .directory)
    (hGo : ∀ l xs ys, Loose xs ys → go l ys = .ok k → go l xs = .ok k) {xs ys : List Bytes}
    (h : Loose xs ys) (l : Location) (hWalk : walkWith t .existing go l ys = .ok k) :
    walkWith t .existing go l xs = .ok k := by
  induction h generalizing l with
  | refl xs => exact hWalk
  | @step part xs ys h ih =>
    rw [walkWith_existing_cons_iff] at hWalk ⊢
    rcases hWalk with ⟨m, hLeads, hRest⟩ | ⟨target, hLink, hRest⟩
    · exact .inl ⟨m, hLeads, ih m hRest⟩
    · exact .inr ⟨target, hLink, hGo _ _ _ (h.append_left _) hRest⟩
  | @idle part xs ys hPart h ih =>
    exact (walkWith_idle_iff hPart).2 ⟨node?_of_walkWith_directory hk hWalk, ih l hWalk⟩

theorem walk_loose {t : FileTree} {links : Nat} {k : Location}
    (hk : t.node? k = some .directory) {xs ys : List Bytes} (h : Loose xs ys) (l : Location)
    (hWalk : t.walk .existing links l ys = .ok k) : t.walk .existing links l xs = .ok k := by
  induction links generalizing l xs ys with
  | zero =>
    rw [walk_eq_walkWith] at hWalk ⊢
    exact walkWith_loose hk (fun _ _ _ _ hGo => by cases hGo) h l hWalk
  | succ links ih =>
    rw [walk_eq_walkWith] at hWalk ⊢
    exact walkWith_loose hk (fun l _ _ hLoose hGo => ih hLoose l hGo) h l hWalk

/-- Without the slashes and dots a path leads to the same place. -/
theorem walkWith_of_loose {t : FileTree}
    {go : Location → List Bytes → Except FileError Location} {k : Location}
    (hGo : ∀ l xs ys, Loose xs ys → go l xs = .ok k → go l ys = .ok k) {xs ys : List Bytes}
    (h : Loose xs ys) (l : Location) (hWalk : walkWith t .existing go l xs = .ok k) :
    walkWith t .existing go l ys = .ok k := by
  induction h generalizing l with
  | refl xs => exact hWalk
  | @step part xs ys h ih =>
    rw [walkWith_existing_cons_iff] at hWalk ⊢
    rcases hWalk with ⟨m, hLeads, hRest⟩ | ⟨target, hLink, hRest⟩
    · exact .inl ⟨m, hLeads, ih m hRest⟩
    · exact .inr ⟨target, hLink, hGo _ _ _ (h.append_left _) hRest⟩
  | @idle part xs ys hPart h ih => exact ih l ((walkWith_idle_iff hPart).1 hWalk).2

theorem walk_of_loose {t : FileTree} {links : Nat} {k : Location} {xs ys : List Bytes}
    (h : Loose xs ys) (l : Location) (hWalk : t.walk .existing links l xs = .ok k) :
    t.walk .existing links l ys = .ok k := by
  induction links generalizing l xs ys with
  | zero =>
    rw [walk_eq_walkWith] at hWalk ⊢
    exact walkWith_of_loose (fun _ _ _ _ hGo => by cases hGo) h l hWalk
  | succ links ih =>
    rw [walk_eq_walkWith] at hWalk ⊢
    exact walkWith_of_loose (fun l _ _ hLoose hGo => ih hLoose l hGo) h l hWalk

/-- A path leads to the directory that its steps lead to, whatever slashes and dots it has. -/
theorem locate_of_walk_spine {t : FileTree} {p : Path} {l : Location}
    (hError : pathError? p = none) (hl : t.node? l = some .directory)
    (h : t.walk .existing maxLinks (origin t.current p) p.spine = .ok l) :
    t.locate .existing p = .ok l := by
  rw [locate, hError]
  rw [← filter_steps_eq_spine] at h
  exact walk_loose hl (loose_filter (steps p)) _ h

/-! ## Trees with more directories -/

theorem Within.locate {u t : FileTree} (h : Within u t) {p : Path} {l : Location}
    (hLocate : u.locate .existing p = .ok l) : t.locate .existing p = .ok l := by
  rw [FileTree.locate] at hLocate ⊢
  split at hLocate
  · cases hLocate
  · rw [← h.current_eq]
    exact h.walk _ _ hLocate

/-- `u` has what `t` has, and besides nothing but directories that some paths lead to. -/
structure Grown (t u : FileTree) (ps : List Path) : Prop where
  within : Within t u
  directory_of_new : ∀ l n, u.node? l = some n → t.node? l = none →
    n = .directory ∧ ∃ p ∈ ps, u.locate .existing p = .ok l

theorem Grown.refl (t : FileTree) (ps : List Path) : Grown t t ps := by
  refine ⟨.refl t, fun l n hNew hOld => ?_⟩
  rw [hOld] at hNew
  cases hNew

theorem Grown.mono {t u : FileTree} {ps qs : List Path} (h : Grown t u ps)
    (hSub : ∀ p ∈ ps, p ∈ qs) : Grown t u qs := by
  refine ⟨h.within, fun l n hNew hOld => ?_⟩
  obtain ⟨hDirectory, p, hp, hLocate⟩ := h.directory_of_new l n hNew hOld
  exact ⟨hDirectory, p, hSub p hp, hLocate⟩

theorem Within.trans {t u v : FileTree} (h : Within t u) (k : Within u v) : Within t v :=
  ⟨h.current_eq.trans k.current_eq, fun l n hl => k.node? l n (h.node? l n hl)⟩

theorem Grown.trans {t u v : FileTree} {ps : List Path} (h : Grown t u ps) (k : Grown u v ps) :
    Grown t v ps := by
  refine ⟨h.within.trans k.within, fun l n hNew hOld => ?_⟩
  cases hMiddle : u.node? l with
  | none => exact k.directory_of_new l n hNew hMiddle
  | some n' =>
    obtain ⟨rfl, p, hp, hLocate⟩ := h.directory_of_new l n' hMiddle hOld
    rw [k.within.node? l _ hMiddle, Option.some.injEq] at hNew
    exact ⟨hNew.symm, p, hp, k.within.locate hLocate⟩

theorem pathError?_of_locateFree {t : FileTree} {p : Path} {l : Location}
    (h : t.locateFree p = .ok l) : pathError? p = none := by
  cases hError : pathError? p with
  | none => rfl
  | some e =>
    rw [locateFree, locateParent, hError] at h
    cases h

theorem makeDirectory_grown (t : FileTree) (p : Path) : Grown t (t.makeDirectory p).1 [p] := by
  rw [makeDirectory]
  cases hFree : t.locateFree p with
  | error e => exact .refl t [p]
  | ok l =>
    have hLeads := walk_set_directory hFree
    have hError := pathError?_of_locateFree hFree
    obtain ⟨k, part, rfl, _, _, hNone, _⟩ := locateFree_eq_ok hFree
    refine ⟨within_set_of_free hNone _, fun m n hNew hOld => ?_⟩
    dsimp only at hNew
    rw [node?_set_concat] at hNew
    by_cases hm : m = k ++ [part]
    · rw [if_pos hm, Option.some.injEq] at hNew
      subst hm
      refine ⟨hNew.symm, p, List.mem_cons_self, locate_of_walk_spine hError ?_ hLeads⟩
      rw [node?_set_concat, if_pos rfl]
    · rw [if_neg hm, hOld] at hNew
      cases hNew

/-- Making directories adds nothing else, also if it is broken off. -/
theorem makeDirectoriesOf_grown (t : FileTree) (ps : List Path) :
    Grown t (makeDirectoriesOf ps t).1 ps := by
  induction ps with
  | nil => exact .refl t []
  | cons p outer ih =>
    have hFirst : ∀ q ∈ [p], q ∈ p :: outer := fun q hq => by
      rw [List.mem_singleton.1 hq]
      exact List.mem_cons_self
    rw [makeDirectoriesOf]
    have hMake := makeDirectory_grown t p
    cases hMade : t.makeDirectory p with
    | mk u outcome =>
    rw [hMade] at hMake
    cases outcome with
    | ok _ => exact hMake.mono hFirst
    | error e =>
      have hu : u = t := by
        rw [makeDirectory] at hMade
        split at hMade
        · cases hMade
        · cases hMade
          rfl
      subst hu
      dsimp only
      by_cases hMissing : e = .notFound
      · rw [if_pos hMissing]
        cases hOuter : makeDirectoriesOf outer u with
        | mk v outcome =>
        rw [hOuter] at ih
        have hKept : Grown u v (p :: outer) := ih.mono fun q hq => List.mem_cons_of_mem p hq
        cases outcome with
        | error e => exact hKept
        | ok _ =>
          have hAgain := (makeDirectory_grown v p).mono hFirst
          dsimp only
          cases hMadeAgain : v.makeDirectory p with
          | mk w outcome =>
          rw [hMadeAgain] at hAgain
          cases outcome with
          | ok _ => exact hKept.trans hAgain
          | error e =>
            dsimp only
            split
            · exact hKept.trans hAgain
            · exact hKept.trans hAgain
      · rw [if_neg hMissing]
        split
        · exact .refl u _
        · exact .refl u _

theorem makeDirectories_grown (t : FileTree) (p : Path) :
    Grown t (t.makeDirectories p).1 p.ancestors :=
  (makeDirectoriesOf_grown t _).mono fun _ hq => (List.mem_filter.1 hq).1

/-- `u` is `t` with a file at the location that a path leads to, after directories are made on the
way. All that was there otherwise is still there. -/
def Replaced (t u : FileTree) (p : Path) (content : Bytes) (ps : List Path) : Prop :=
  ∃ w l, Grown t w ps ∧ u = w.set l (.file content) ∧ u.locate .existing p = .ok l ∧
    u.node? l = some (.file content)

theorem Replaced.read_eq {t u : FileTree} {p : Path} {content : Bytes} {ps : List Path}
    (h : Replaced t u p content ps) : u.read p = .ok content := by
  obtain ⟨w, l, _, _, hLocate, hNode⟩ := h
  exact read_eq_ok_iff.2 ⟨l, hLocate, hNode⟩

end FileTree

end AnalysisCache
