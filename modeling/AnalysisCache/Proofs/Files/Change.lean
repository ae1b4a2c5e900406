import AnalysisCache.Proofs.Files.Spelling

/-!
# Reading after a change

What is read after a file is written or removed.

* `FileTree.write_eq_ok`: what a write changes.
* `FileTree.read_of_write`: what has been written is what is read.
* `FileTree.read_of_read_removeFile`: removing a file brings nothing to light.
-/

namespace AnalysisCache

namespace FileTree

/-! ## Trees that hold less -/

/-- `u` has nothing but what `t` has. -/
structure Within (u t : FileTree) : Prop where
  current_eq : u.current = t.current
  node? : ∀ l n, u.node? l = some n → t.node? l = some n

theorem Within.refl (t : FileTree) : Within t t := ⟨rfl, fun _ _ h => h⟩

theorem within_remove (t : FileTree) (l : Location) : Within (t.remove l) t := by
  refine ⟨rfl, fun m n h => ?_⟩
  by_cases hl : l = []
  · subst hl
    by_cases hm : m = []
    · subst hm
      exact h
    · simp only [FileTree.node?, if_neg hm, remove, Trie.get?_erase] at h ⊢
      exact h
  · rw [node?_remove t m hl] at h
    split at h
    · cases h
    · exact h

theorem Within.enters {u t : FileTree} (h : Within u t) {l : Location} {part : Bytes}
    (k : Enters u l part) : Enters t l part :=
  ⟨h.node? _ _ k.directory, k.isStep, k.not_up, k.short⟩

theorem Within.leads {u t : FileTree} (h : Within u t) {l m : Location} {part : Bytes}
    (k : Leads u l part m) : Leads t l part m := by
  cases k with
  | idle hDirectory hPart => exact .idle (h.node? _ _ hDirectory) hPart
  | up hDirectory hPart => exact .up (h.node? _ _ hDirectory) hPart
  | name hEnters hNext hNode => exact .name (h.enters hEnters) (h.node? _ _ hNext) hNode

theorem Within.walkWith {u t : FileTree} (h : Within u t)
    {goU goT : Location → List Bytes → Except FileError Location} {x : Location}
    (hGo : ∀ l xs, goU l xs = .ok x → goT l xs = .ok x) (xs : List Bytes) (l : Location)
    (hWalk : u.walkWith .existing goU l xs = .ok x) : t.walkWith .existing goT l xs = .ok x := by
  induction xs generalizing l with
  | nil => exact hWalk
  | cons part rest ih =>
    rw [walkWith_existing_cons_iff] at hWalk ⊢
    rcases hWalk with ⟨m, hLeads, hRest⟩ | ⟨target, hLink, hRest⟩
    · exact .inl ⟨m, h.leads hLeads, ih m hRest⟩
    · exact .inr ⟨target, ⟨h.enters hLink.enters, h.node? _ _ hLink.next⟩, hGo _ _ hRest⟩

theorem Within.walk {u t : FileTree} (h : Within u t) {links : Nat} {x : Location}
    (xs : List Bytes) (l : Location) (hWalk : u.walk .existing links l xs = .ok x) :
    t.walk .existing links l xs = .ok x := by
  induction links generalizing xs l with
  | zero =>
    rw [walk_eq_walkWith] at hWalk ⊢
    exact h.walkWith (fun _ _ hGo => by cases hGo) xs l hWalk
  | succ links ih =>
    rw [walk_eq_walkWith] at hWalk ⊢
    exact h.walkWith (fun l xs hGo => ih xs l hGo) xs l hWalk

theorem Within.read {u t : FileTree} (h : Within u t) {p : Path} {content : Bytes}
    (hRead : u.read p = .ok content) : t.read p = .ok content := by
  obtain ⟨l, hLocate, hNode⟩ := read_eq_ok_iff.1 hRead
  have hp : Addressable p := addressable_of_isFile (isFile_of_read hRead)
  rw [locate_of_addressable hp, h.current_eq] at hLocate
  refine read_eq_ok_iff.2 ⟨l, ?_, h.node? _ _ hNode⟩
  rw [locate_of_addressable hp]
  exact h.walk _ _ hLocate

theorem within_removeFile (t : FileTree) (p : Path) : Within (t.removeFile p).1 t := by
  rw [removeFile]
  split
  · exact .refl t
  · split
    · exact .refl t
    · exact within_remove t _

theorem read_of_read_removeFile {t : FileTree} {p q : Path} {content : Bytes}
    (h : (t.removeFile p).1.read q = .ok content) : t.read q = .ok content :=
  (within_removeFile t p).read h

/-! ## Writing -/

theorem origin_eq (m : Location) (target : Path) : origin m target = [] ∨ origin m target = m := by
  rw [origin]
  split
  · exact .inl rfl
  · exact .inr rfl

/-- A link is followed from its own directory or the root, and neither is below it. -/
theorem not_isPrefix_origin (m : Location) (part : Bytes) (target : Path) :
    ¬ List.IsPrefix (m ++ [part]) (origin m target) := by
  intro hBelow
  have hLength := hBelow.length_le
  rw [List.length_append, List.length_singleton] at hLength
  rcases origin_eq m target with hOrigin | hOrigin
  · rw [hOrigin, List.length_nil] at hLength
    omega
  · rw [hOrigin] at hLength
    omega

/-- A walk comes to rest at a link only if it goes up to it, since any other way it is followed. -/
theorem isPrefix_of_walkWith_link {t : FileTree} {last : LastPart} (hLast : last ≠ .existingLink)
    {l : Location} {target : Path} (hl : t.node? l = some (.link target))
    {go : Location → List Bytes → Except FileError Location}
    (hGo : ∀ m xs, go m xs = .ok l → List.IsPrefix l m) (xs : List Bytes) (m : Location)
    (h : t.walkWith last go m xs = .ok l) : List.IsPrefix l m := by
  induction xs generalizing m with
  | nil =>
    simp only [walkWith, Except.ok.injEq] at h
    subst h
    exact List.prefix_rfl
  | cons part rest ih =>
    rcases walkWith_cons_cases (fun hEq => absurd hEq hLast) h with
      ⟨k, hLeads, hRest⟩ | ⟨inner, _, hRest⟩ | ⟨_, _, _, hNone, rfl⟩
    · cases hLeads with
      | idle _ _ => exact ih m hRest
      | up _ _ => exact (ih _ hRest).trans (List.dropLast_prefix m)
      | name _ hNext hNode =>
        rcases List.prefix_concat_iff.1 (ih _ hRest) with hEq | hPrefix
        · rw [hEq, hNext, Option.some.injEq] at hl
          exact absurd hl (hNode target)
        · exact hPrefix
    · have hOrigin := hGo _ _ hRest
      rcases origin_eq m inner with hRoot | hHere
      · rw [hRoot, List.prefix_nil] at hOrigin
        subst hOrigin
        cases hl
      · rwa [hHere] at hOrigin
    · rw [hNone] at hl
      cases hl

theorem isPrefix_of_walk_link {t : FileTree} {last : LastPart} (hLast : last ≠ .existingLink)
    {l : Location} {target : Path} (hl : t.node? l = some (.link target)) {links : Nat}
    (xs : List Bytes) (m : Location) (h : t.walk last links m xs = .ok l) : List.IsPrefix l m := by
  induction links generalizing xs m with
  | zero =>
    rw [walk_eq_walkWith] at h
    exact isPrefix_of_walkWith_link hLast hl (fun _ _ hGo => by cases hGo) xs m h
  | succ links ih =>
    rw [walk_eq_walkWith] at h
    exact isPrefix_of_walkWith_link hLast hl (fun m xs hGo => ih xs m hGo) xs m h

section

variable {t : FileTree} {l : Location} (content : Bytes) (hl : t.node? l ≠ some .directory)

include hl

theorem node?_set_file (m : Location) :
    (t.set l (.file content)).node? m = if m = l then some (.file content) else t.node? m := by
  refine node?_set t m _ ?_
  rintro rfl
  exact hl rfl

theorem Enters.set_file {m : Location} {part : Bytes} (h : Enters t m part) :
    Enters (t.set l (.file content)) m part := by
  refine ⟨?_, h.isStep, h.not_up, h.short⟩
  rw [node?_set_file content hl, if_neg]
  · exact h.directory
  · rintro rfl
    exact hl h.directory

/-- A file in the place of what is no directory changes no step. -/
theorem Leads.set_file {m k : Location} {part : Bytes} (h : Leads t m part k) :
    Leads (t.set l (.file content)) m part k := by
  have hDirectory : (t.set l (.file content)).node? m = some .directory := by
    rw [node?_set_file content hl, if_neg]
    · exact h.directory
    · rintro rfl
      exact hl h.directory
  cases h with
  | idle _ hPart => exact .idle hDirectory hPart
  | up _ hPart => exact .up hDirectory hPart
  | @name hEnters n hNext hNode =>
    by_cases hEq : m ++ [part] = l
    · refine .name (n := .file content) (hEnters.set_file content hl) ?_ fun _ h => by cases h
      rw [node?_set_file content hl, if_pos hEq]
    · refine .name (hEnters.set_file content hl) ?_ hNode
      rw [node?_set_file content hl, if_neg hEq]
      exact hNext

/-- A walk that may end at something new ends there too once a file is there. -/
theorem walkWith_set_file {goNew goOld : Location → List Bytes → Except FileError Location}
    (hPrefix : ∀ target, t.node? l = some (.link target) → ∀ m xs, goNew m xs = .ok l →
      List.IsPrefix l m)
    (hGo : ∀ m xs, goNew m xs = .ok l → goOld m xs = .ok l) (xs : List Bytes) (m : Location)
    (hWalk : t.walkWith .new goNew m xs = .ok l) :
    (t.set l (.file content)).walkWith .existing goOld m xs = .ok l := by
  induction xs generalizing m with
  | nil => exact hWalk
  | cons part rest ih =>
    rw [walkWith_existing_cons_iff]
    rcases walkWith_cons_cases (fun hLast => by cases hLast) hWalk with
      ⟨k, hLeads, hRest⟩ | ⟨target, hLink, hRest⟩ | ⟨_, rfl, hEnters, _, rfl⟩
    · exact .inl ⟨k, hLeads.set_file content hl, ih k hRest⟩
    · have hNext : (t.set l (.file content)).node? (m ++ [part]) = some (.link target) := by
        rw [node?_set_file content hl, if_neg]
        · exact hLink.next
        · rintro rfl
          exact not_isPrefix_origin m part target (hPrefix target hLink.next _ _ hRest)
      exact .inr ⟨target, ⟨hLink.enters.set_file content hl, hNext⟩, hGo _ _ hRest⟩
    · refine .inl ⟨m ++ [part], .name (n := .file content) (hEnters.set_file content hl) ?_ ?_, rfl⟩
      · rw [node?_set_file content hl, if_pos rfl]
      · intro target h
        cases h

theorem walk_set_file {links : Nat} (xs : List Bytes) (m : Location) (hWalk : t.walk .new links m xs = .ok l) :
    (t.set l (.file content)).walk .existing links m xs = .ok l := by
  induction links generalizing xs m with
  | zero =>
    rw [walk_eq_walkWith] at hWalk ⊢
    exact walkWith_set_file content hl (fun _ _ _ _ hGo => by cases hGo)
      (fun _ _ hGo => by cases hGo) xs m hWalk
  | succ links ih =>
    rw [walk_eq_walkWith] at hWalk ⊢
    exact walkWith_set_file content hl
      (fun target hTarget m xs hGo => isPrefix_of_walk_link (by simp) hTarget xs m hGo)
      (fun m xs hGo => ih xs m hGo) xs m hWalk

end

/-- Writing puts a file at one location, to which the path then leads. -/
theorem write_eq_ok {t u : FileTree} {p : Path} {content : Bytes}
    (h : t.write p content = (u, .ok ())) :
    ∃ l, u = t.set l (.file content) ∧ u.locate .existing p = .ok l ∧
      u.node? l = some (.file content) := by
  rw [write] at h
  cases hTarget : t.locateTarget p with
  | error e => rw [hTarget] at h; cases h
  | ok l =>
    rw [hTarget] at h
    simp only [Prod.mk.injEq, and_true] at h
    subst h
    obtain ⟨hLocate, hl⟩ : t.locate .new p = .ok l ∧ t.node? l ≠ some .directory := by
      rw [locateTarget] at hTarget
      cases hLocate : t.locate .new p with
      | error e => rw [hLocate] at hTarget; cases hTarget
      | ok m =>
        simp only [hLocate, bind, Except.bind] at hTarget
        split at hTarget
        · cases hTarget
        · rename_i hNot
          cases hTarget
          exact ⟨rfl, hNot⟩
    refine ⟨l, rfl, ?_, by rw [node?_set_file content hl, if_pos rfl]⟩
    rw [locate] at hLocate ⊢
    split at hLocate
    · cases hLocate
    · exact walk_set_file content hl _ _ hLocate

theorem read_of_write {t t' : FileTree} {p : Path} {content : Bytes}
    (h : t.write p content = (t', .ok ())) : t'.read p = .ok content := by
  obtain ⟨l, _, hLocate, hNode⟩ := write_eq_ok h
  exact read_eq_ok_iff.2 ⟨l, hLocate, hNode⟩

end FileTree

end AnalysisCache
