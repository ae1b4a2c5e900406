import AnalysisCache.Proofs.Files.Change

/-!
# Reading after directories are made

Whatever directories are made on the way to the parent of a path, the last of them is empty. So no
file comes to light under the path, unless it goes up again from one of them.

* `Path.prefix_of_mem_ancestors`: a path goes through all that it is below.
* `FileTree.walk_append`: a walk goes on from where its beginning leads to.
* `FileTree.makeDirectoriesOf_spec`: what has been made leads to an empty directory.
* `FileTree.read_of_read_makeDirectories`: making a parent brings nothing to light.
-/

namespace AnalysisCache

/-! ## Parents -/

namespace Path

theorem parts_append_slash (b c : Bytes) : parts (b ++ slash :: c) = parts b ++ parts c := by
  induction b with
  | nil => rfl
  | cons x rest ih =>
    rw [List.cons_append, parts, parts, ih]
    by_cases hx : x = slash
    · rw [if_pos hx, if_pos hx]
      rfl
    · rw [if_neg hx, if_neg hx]
      cases hParts : parts rest with
      | nil => exact absurd hParts (parts_ne_nil rest)
      | cons part more => rfl

theorem parts_of_slash_notMem {b : Bytes} (h : slash ∉ b) : parts b = [b] := by
  induction b with
  | nil => rfl
  | cons x rest ih =>
    rw [List.mem_cons, not_or] at h
    rw [parts, if_neg (Ne.symm h.1), ih h.2]

theorem slash_notMem_of_mem_parts {b part : Bytes} (h : part ∈ parts b) : slash ∉ part := by
  induction b generalizing part with
  | nil =>
    rw [List.mem_singleton.1 h]
    exact List.not_mem_nil
  | cons x rest ih =>
    rw [parts] at h
    by_cases hx : x = slash
    · rw [if_pos hx] at h
      rcases List.mem_cons.1 h with rfl | h
      · exact List.not_mem_nil
      · exact ih h
    · rw [if_neg hx] at h
      cases hParts : parts rest with
      | nil => exact absurd hParts (parts_ne_nil rest)
      | cons first more =>
        rw [hParts] at h ih
        rcases List.mem_cons.1 h with rfl | h
        · rw [List.mem_cons, not_or]
          exact ⟨Ne.symm hx, ih List.mem_cons_self⟩
        · exact ih (List.mem_cons_of_mem first h)

theorem joinParts_cons_cons (y z : Bytes) (more : List Bytes) :
    joinParts (y :: z :: more) = y ++ slash :: joinParts (z :: more) := rfl

theorem filter_parts_joinParts {ys : List Bytes} (h : ∀ part ∈ ys, slash ∉ part) :
    (parts (joinParts ys)).filter isStep = ys.filter isStep := by
  induction ys with
  | nil => rfl
  | cons y rest ih =>
    have hFirst := parts_of_slash_notMem (h y List.mem_cons_self)
    have hRest := ih fun part hPart => h part (List.mem_cons_of_mem y hPart)
    cases rest with
    | nil => rw [joinParts, hFirst]
    | cons z more =>
      rw [joinParts_cons_cons, parts_append_slash, hFirst, List.filter_append, hRest,
        ← List.filter_append]
      rfl

/-- What the body of a path is made of. After a leading `.` it begins with a slash. -/
theorem exists_split_eq_parts (p : Path) :
    ∃ b, p.split.2 = parts b ∧ (p.split.1 = .here → (parts b).head? = some []) := by
  obtain ⟨b⟩ := p
  simp only [split]
  split
  · exact ⟨_, rfl, fun h => by cases h⟩
  · split
    · exact ⟨_, rfl, fun h => by cases h⟩
    · split
      · exact ⟨_, rfl, fun _ => rfl⟩
      · exact ⟨_, rfl, fun h => by cases h⟩
  · split
    · exact ⟨_, rfl, fun h => by cases h⟩
    · split
      · rename_i hBoth
        obtain ⟨_, rfl⟩ := hBoth
        exact ⟨_, rfl, fun _ => rfl⟩
      · exact ⟨_, rfl, fun h => by cases h⟩

/-- A path that begins like another one has the steps of its own body. -/
theorem spine_of_split {p : Path} {ys zs : List Bytes} (h : p.split.2 = ys ++ zs) :
    spine ⟨p.split.1.bytes ++ joinParts ys⟩ = ys.filter isStep := by
  obtain ⟨b, hParts, hHead⟩ := exists_split_eq_parts p
  rw [h] at hParts
  have hSlash : ∀ part ∈ ys, slash ∉ part := fun part hPart =>
    slash_notMem_of_mem_parts (hParts ▸ List.mem_append_left zs hPart)
  rw [← filter_parts_eq_spine]
  cases hLead : p.split.1 with
  | root => exact filter_parts_joinParts hSlash
  | none => exact filter_parts_joinParts hSlash
  | here =>
    have hFirst := hHead hLead
    rw [← hParts] at hFirst
    cases ys with
    | nil => rfl
    | cons y more =>
      obtain rfl : y = [] := by simpa using hFirst
      cases more with
      | nil => rfl
      | cons z rest =>
        have hRest := filter_parts_joinParts fun part hPart =>
          hSlash part (List.mem_cons_of_mem [] hPart)
        show (parts ([0x2E] ++ slash :: joinParts (z :: rest))).filter isStep = _
        rw [parts_append_slash, List.filter_append, hRest]
        rfl

theorem prefix_joinParts_append (ys zs : List Bytes) : joinParts ys <+: joinParts (ys ++ zs) := by
  induction ys with
  | nil => exact List.nil_prefix
  | cons y rest ih =>
    cases rest with
    | nil =>
      cases zs with
      | nil => exact List.prefix_rfl
      | cons z more => exact List.prefix_append y _
    | cons w more =>
      rw [joinParts_cons_cons, List.cons_append, List.cons_append, joinParts_cons_cons]
      exact (List.prefix_append_right_inj y).2 ((List.prefix_cons_inj slash).2 ih)

theorem isIdle_eq_not_isStep (part : Bytes) : isIdle part = !isStep part := by
  rw [isIdle, Component.ofPart?, isStep, Bool.not_not]
  by_cases hIdle : part = [] ∨ part = [0x2E]
  · rw [if_pos hIdle]
    simpa using hIdle
  · rw [if_neg hIdle]
    rw [not_or] at hIdle
    split <;> simp [hIdle.1, hIdle.2]

/-- A parent is spelled as the path is, up to parts with a step in them, or it has no name. -/
theorem parent?_eq_some {p q : Path} (h : p.parent? = some q) :
    q = ⟨[]⟩ ∨ ∃ ys zs, q = ⟨p.split.1.bytes ++ joinParts ys⟩ ∧ p.split.2 = ys ++ zs ∧
      ∃ part ∈ zs, isStep part = true := by
  rw [parent?] at h
  split at h
  · rename_i last before hBody
    cases h
    refine .inr ⟨(before.dropWhile isIdle).reverse, ?_⟩
    obtain ⟨us, hUs⟩ := List.dropWhile_suffix isIdle (l := before)
    obtain ⟨vs, hVs⟩ := List.dropWhile_suffix isIdle (l := p.split.2.reverse)
    refine ⟨us.reverse ++ [last] ++ vs.reverse, rfl, ?_, last, by simp, ?_⟩
    · rw [hBody] at hVs
      rw [← List.reverse_reverse p.split.2, ← hVs]
      nth_rewrite 1 [← hUs]
      simp
    · have hNot : isIdle last = false := by
        have hHead := List.head?_dropWhile_not isIdle p.split.2.reverse
        rw [hBody] at hHead
        simpa using hHead
      rwa [isIdle_eq_not_isStep, Bool.not_eq_false'] at hNot
  · cases h
    exact .inl rfl
  · cases h

/-- A path is below its parent, by its bytes and by its steps. -/
theorem prefix_of_parent? {p q : Path} (h : p.parent? = some q) :
    q.bytes <+: p.bytes ∧ q.spine <+: p.spine := by
  rcases parent?_eq_some h with rfl | ⟨ys, zs, rfl, hSplit, _⟩
  · exact ⟨List.nil_prefix, List.nil_prefix⟩
  · constructor
    · rw [← split_bytes p, hSplit]
      exact (List.prefix_append_right_inj _).2 (prefix_joinParts_append ys zs)
    · rw [spine_of_split hSplit, spine_eq_filter_split, hSplit, List.filter_append]
      exact List.prefix_append _ _

/-- The last step of a path is not one of its parent. -/
theorem exists_spine_eq_of_parent? {p q : Path} (h : p.parent? = some q) (hq : q.bytes ≠ []) :
    ∃ part rest, p.spine = q.spine ++ part :: rest := by
  rcases parent?_eq_some h with rfl | ⟨ys, zs, rfl, hSplit, part, hPart, hStep⟩
  · exact absurd rfl hq
  · rw [spine_of_split hSplit, spine_eq_filter_split, hSplit, List.filter_append]
    cases hRest : zs.filter isStep with
    | cons part rest => exact ⟨part, rest, rfl⟩
    | nil =>
      have hMem : part ∈ zs.filter isStep := List.mem_filter.2 ⟨hPart, hStep⟩
      rw [hRest] at hMem
      cases hMem

theorem prefix_of_mem_ancestorsOf {n : Nat} {p q : Path} (h : q ∈ ancestorsOf n p) :
    q.bytes <+: p.bytes ∧ q.spine <+: p.spine := by
  induction n generalizing p with
  | zero => cases h
  | succ n ih =>
    rw [ancestorsOf] at h
    rcases List.mem_cons.1 h with rfl | h
    · exact ⟨List.prefix_rfl, List.prefix_rfl⟩
    · cases hParent : p.parent? with
      | none => rw [hParent] at h; cases h
      | some r =>
        rw [hParent] at h
        obtain ⟨hBytes, hSpine⟩ := prefix_of_parent? hParent
        exact ⟨(ih h).1.trans hBytes, (ih h).2.trans hSpine⟩

theorem prefix_of_mem_ancestors {p q : Path} (h : q ∈ p.ancestors) :
    q.bytes <+: p.bytes ∧ q.spine <+: p.spine := prefix_of_mem_ancestorsOf h

theorem isAbsolute_of_prefix {p q : Path} (h : q.bytes <+: p.bytes) (hq : q.bytes ≠ []) :
    q.isAbsolute = p.isAbsolute := by
  obtain ⟨rest, hRest⟩ := h
  rw [isAbsolute, isAbsolute, ← hRest, List.head?_append_of_ne_nil _ hq]

theorem up_mem_of_mem_spine {p : Path} (h : [0x2E, 0x2E] ∈ p.spine) :
    Component.up ∈ p.components := by
  rw [spine_eq_filter_split] at h
  exact List.mem_append_right _ (List.mem_filterMap.2 ⟨_, (List.mem_filter.1 h).1, rfl⟩)

end Path

namespace FileTree

/-! ## Walks that go on -/

theorem walkWith_append {t : FileTree} {links : Nat} {k : Location}
    (hGo : ∀ m xs, follow t .existing links m xs = .ok k →
      ∃ n, ∀ ys, follow t .existing links m (xs ++ ys) = walk t .existing n k ys)
    (xs : List Bytes) (m : Location)
    (h : walkWith t .existing (follow t .existing links) m xs = .ok k) :
    ∃ n, ∀ ys, walkWith t .existing (follow t .existing links) m (xs ++ ys) =
      walk t .existing n k ys := by
  induction xs generalizing m with
  | nil =>
    simp only [walkWith, Except.ok.injEq] at h
    subst h
    exact ⟨links, fun ys => by rw [walk_eq_walkWith, List.nil_append]⟩
  | cons part rest ih =>
    have hNew : ∀ ys : List Bytes, LastPart.existing = .new → ys ≠ [[]] := fun _ h => by cases h
    rcases walkWith_existing_cons_iff.1 h with ⟨x, hLeads, hRest⟩ | ⟨target, hLink, hRest⟩
    · obtain ⟨n, hn⟩ := ih x hRest
      refine ⟨n, fun ys => ?_⟩
      rw [List.cons_append, hLeads.walkWith_cons (hNew _), hn ys]
    · obtain ⟨n, hn⟩ := hGo _ _ hRest
      refine ⟨n, fun ys => ?_⟩
      rw [List.cons_append, hLink.walkWith_cons (fun hLast => by cases hLast) (hNew _), ← hn ys,
        List.append_assoc]

/-- A walk goes on from where its beginning leads to, with what links it may still follow. -/
theorem walk_append {t : FileTree} {links : Nat} {m k : Location} {xs : List Bytes}
    (h : walk t .existing links m xs = .ok k) :
    ∃ n, ∀ ys, walk t .existing links m (xs ++ ys) = walk t .existing n k ys := by
  induction links generalizing m xs with
  | zero =>
    rw [walk_eq_walkWith] at h ⊢
    exact walkWith_append (fun _ _ hGo => by cases hGo) xs m h
  | succ links ih =>
    have hGo : ∀ m xs, follow t .existing (links + 1) m xs = .ok k →
        ∃ n, ∀ ys, follow t .existing (links + 1) m (xs ++ ys) = walk t .existing n k ys :=
      fun _ _ hGo => ih hGo
    rw [walk_eq_walkWith] at h ⊢
    exact walkWith_append hGo xs m h

/-- Nothing leads out of an empty directory but the way up. -/
theorem eq_of_walkWith_empty {t : FileTree} {l x : Location}
    (hEmpty : ∀ part, t.node? (l ++ [part]) = none) {ys : List Bytes} (hUp : [0x2E, 0x2E] ∉ ys)
    {go : Location → List Bytes → Except FileError Location}
    (h : walkWith t .existing go l ys = .ok x) : x = l := by
  induction ys with
  | nil =>
    cases h
    rfl
  | cons part rest ih =>
    rw [List.mem_cons, not_or] at hUp
    rcases walkWith_existing_cons_iff.1 h with ⟨m, hLeads, hRest⟩ | ⟨target, hLink, _⟩
    · cases hLeads with
      | idle _ _ => exact ih hUp.2 hRest
      | up _ hPart => exact absurd hPart.symm hUp.1
      | name _ hNext _ => rw [hEmpty part] at hNext; cases hNext
    · have hNext := hLink.next
      rw [hEmpty part] at hNext
      cases hNext

/-! ## Making directories -/

/-- Whether nothing in the tree is outside of a directory. -/
def Rooted (t : FileTree) : Prop :=
  ∀ l part, t.node? l ≠ some .directory → t.node? (l ++ [part]) = none

/-- Whether a path leads to an empty directory. -/
def LeadsToEmpty (t : FileTree) (p : Path) : Prop :=
  ∃ l, t.walk .existing maxLinks (origin t.current p) p.spine = .ok l ∧
    t.node? l = some .directory ∧ ∀ part, t.node? (l ++ [part]) = none

/-- A path that goes through an empty directory, and not up again, names no file. -/
theorem not_isFile_of_leadsToEmpty {t : FileTree} {p q : Path} (h : t.LeadsToEmpty q)
    (hAbsolute : q.isAbsolute = p.isAbsolute) (hSpine : q.spine <+: p.spine)
    (hUp : [0x2E, 0x2E] ∉ p.spine) : ¬ t.isFile p = true := by
  intro hFile
  have hp : Addressable p := addressable_of_isFile hFile
  obtain ⟨content, hRead⟩ := isFile_iff.1 hFile
  obtain ⟨x, hLocate, hNode⟩ := read_eq_ok_iff.1 hRead
  obtain ⟨l, hWalk, hDirectory, hEmpty⟩ := h
  obtain ⟨rest, hRest⟩ := hSpine
  obtain ⟨n, hn⟩ := walk_append hWalk
  rw [locate_of_addressable hp, walk_pads (pads_filter hp.isStep_last), filter_steps_eq_spine,
    ← hRest, origin, ← hAbsolute, ← origin, hn rest, walk_eq_walkWith] at hLocate
  rw [← hRest, List.mem_append, not_or] at hUp
  rw [eq_of_walkWith_empty hEmpty hUp.2 hLocate, hDirectory] at hNode
  cases hNode

theorem splitLast_append {p : Path} {part : Bytes} (h : (splitLast p).2 = some part) :
    (splitLast p).1 ++ [part] = (Path.parts p.bytes).filter fun part => !part.isEmpty := by
  obtain ⟨before, hBefore⟩ := List.getLast?_eq_some_iff.1 h
  show ((Path.parts p.bytes).filter fun part => !part.isEmpty).dropLast ++ [part] = _
  rw [hBefore, List.dropLast_concat]

theorem spine_of_splitLast {p : Path} {part : Bytes} (h : (splitLast p).2 = some part) :
    ((splitLast p).1 ++ [part]).filter Path.isStep = p.spine := by
  rw [splitLast_append h]
  exact filter_nonempty_parts_eq_spine p

theorem isStep_of_splitLast {p : Path} {part : Bytes} (h : (splitLast p).2 = some part)
    (hDot : part ≠ [0x2E]) : Path.isStep part = true := by
  have hMem : part ∈ (Path.parts p.bytes).filter fun part => !part.isEmpty := by
    rw [← splitLast_append h]
    exact List.mem_append_right _ List.mem_cons_self
  have hNonempty := (List.mem_filter.1 hMem).2
  rw [Bool.not_eq_true', List.isEmpty_eq_false_iff] at hNonempty
  simp [Path.isStep, hNonempty, hDot]

theorem locateParent_eq_ok {t : FileTree} {p : Path} {k : Location}
    (h : t.locateParent p = .ok k) :
    t.walk .existing maxLinks (origin t.current p) (splitLast p).1 = .ok k ∧
      t.node? k = some .directory := by
  rw [locateParent] at h
  split at h
  · cases h
  · cases hWalk : t.walk .existing maxLinks (origin t.current p) (splitLast p).1 with
    | error e => rw [hWalk] at h; cases h
    | ok l =>
      simp only [hWalk, bind, Except.bind] at h
      split at h
      · rename_i hNode
        cases h
        exact ⟨rfl, hNode⟩
      · cases h
      · cases h

/-- What is known of the location of a new node: it is free, in a directory that is there, and its
name is a step that does not lead up. -/
theorem locateFree_eq_ok {t : FileTree} {p : Path} {l : Location} (h : t.locateFree p = .ok l) :
    ∃ k part, l = k ++ [part] ∧ (splitLast p).2 = some part ∧ t.node? k = some .directory ∧
      t.node? (k ++ [part]) = none ∧
      t.walk .existing maxLinks (origin t.current p) (splitLast p).1 = .ok k ∧
      Path.isStep part = true ∧ part ≠ [0x2E, 0x2E] ∧ ¬ maxNameLength < part.length := by
  rw [locateFree] at h
  cases hParent : t.locateParent p with
  | error e => rw [hParent] at h; cases h
  | ok k =>
    obtain ⟨hWalk, hNode⟩ := locateParent_eq_ok hParent
    simp only [hParent, bind, Except.bind] at h
    cases hLast : (splitLast p).2 with
    | none => rw [hLast] at h; cases h
    | some part =>
      rw [hLast] at h
      dsimp only at h
      split at h
      · cases h
      · rename_i hDots
        rw [not_or] at hDots
        split at h
        · cases h
        · rename_i hLong
          cases hFree : t.node? (k ++ [part]) with
          | some node => rw [hFree] at h; cases h
          | none =>
            rw [hFree] at h
            cases h
            exact ⟨k, part, rfl, rfl, hNode, hFree, hWalk, isStep_of_splitLast hLast hDots.1,
              hDots.2, hLong⟩

theorem node?_set_concat (t : FileTree) (k m : Location) (part : Bytes) (n : Node) :
    (t.set (k ++ [part]) n).node? m = if m = k ++ [part] then some n else t.node? m :=
  node?_set t m n (by simp)

/-- A node may be put in a directory if it is one itself, or if it takes no directory's place. -/
theorem rooted_set {t : FileTree} (hTree : t.Rooted) {k : Location} {part : Bytes} {n : Node}
    (hDirectory : t.node? k = some .directory)
    (hNode : n = .directory ∨ t.node? (k ++ [part]) ≠ some .directory) :
    (t.set (k ++ [part]) n).Rooted := by
  intro l name hl
  rw [node?_set_concat] at hl ⊢
  by_cases hSelf : l = k ++ [part]
  · rw [if_pos hSelf] at hl
    rw [hSelf, if_neg (by simp)]
    exact hTree _ name (hNode.resolve_left fun hn => hl (hn ▸ rfl))
  · rw [if_neg hSelf] at hl
    rw [if_neg, hTree l name hl]
    intro hEq
    obtain ⟨rfl, _⟩ := List.append_inj' hEq rfl
    exact hl hDirectory

theorem within_set_of_free {t : FileTree} {k : Location} {part : Bytes}
    (hFree : t.node? (k ++ [part]) = none) (n : Node) : Within t (t.set (k ++ [part]) n) := by
  refine ⟨rfl, fun m n hm => ?_⟩
  rw [node?_set_concat, if_neg]
  · exact hm
  · rintro rfl
    rw [hFree] at hm
    cases hm

/-- A path whose directory has just been made leads to it. -/
theorem walk_set_directory {t : FileTree} {p : Path} {l : Location} (h : t.locateFree p = .ok l) :
    (t.set l .directory).walk .existing maxLinks (origin t.current p) p.spine = .ok l := by
  obtain ⟨k, part, rfl, hLast, hDirectory, hFree, hWalk, hStep, hUp, hLong⟩ := locateFree_eq_ok h
  have hMade : (t.set (k ++ [part]) .directory).node? (k ++ [part]) = some .directory := by
    rw [node?_set_concat, if_pos rfl]
  have hWithin : Within t (t.set (k ++ [part]) .directory) := within_set_of_free hFree _
  obtain ⟨n, hn⟩ := walk_append (hWithin.walk _ _ hWalk)
  have hWhole : walk (t.set (k ++ [part]) .directory) .existing maxLinks (origin t.current p)
      ((splitLast p).1 ++ [part]) = .ok (k ++ [part]) := by
    rw [hn [part], walk_eq_walkWith, walkWith_existing_cons_iff]
    refine .inl ⟨k ++ [part], .name ⟨hWithin.node? _ _ hDirectory, hStep, hUp, hLong⟩ hMade ?_, rfl⟩
    intro target h
    cases h
  rw [walk_pads (pads_filter fun q hq => ?_), spine_of_splitLast hLast] at hWhole
  · exact hWhole
  · rw [List.getLast?_concat, Option.some.injEq] at hq
    exact hq ▸ hStep

/-- There is nothing in a directory that has just been made. -/
theorem leadsToEmpty_set {t : FileTree} (hTree : t.Rooted) {p : Path} {l : Location}
    (h : t.locateFree p = .ok l) :
    (t.set l .directory).Rooted ∧ (t.set l .directory).LeadsToEmpty p := by
  have hLeads := walk_set_directory h
  obtain ⟨k, part, rfl, _, hDirectory, hFree, _⟩ := locateFree_eq_ok h
  refine ⟨rooted_set hTree hDirectory (.inl rfl), k ++ [part], hLeads, ?_, fun name => ?_⟩
  · rw [node?_set_concat, if_pos rfl]
  · rw [node?_set_concat, if_neg (by simp)]
    exact hTree _ name (by rw [hFree]; simp)

theorem makeDirectory_spec {t : FileTree} (hTree : t.Rooted) (p : Path) :
    (∃ e, t.makeDirectory p = (t, .error e)) ∨
      ∃ u, t.makeDirectory p = (u, .ok ()) ∧ u.Rooted ∧ u.LeadsToEmpty p := by
  rw [makeDirectory]
  cases hFree : t.locateFree p with
  | error e => exact .inl ⟨e, rfl⟩
  | ok l => exact .inr ⟨_, rfl, leadsToEmpty_set hTree hFree⟩

/-- Whatever has been made of some directories, one of them is empty. -/
theorem makeDirectoriesOf_spec {t : FileTree} (hTree : t.Rooted) (ps : List Path) :
    (makeDirectoriesOf ps t).1.Rooted ∧ ((makeDirectoriesOf ps t).1 = t ∨
      ∃ p ∈ ps, (makeDirectoriesOf ps t).1.LeadsToEmpty p) := by
  induction ps with
  | nil => exact ⟨hTree, .inl rfl⟩
  | cons p outer ih =>
    rw [makeDirectoriesOf]
    rcases makeDirectory_spec hTree p with ⟨e, hMake⟩ | ⟨u, hMake, hu, hEmpty⟩
    · simp only [hMake]
      by_cases hMissing : e = .notFound
      · rw [if_pos hMissing]
        cases hOuter : makeDirectoriesOf outer t with
        | mk u outcome =>
        rw [hOuter] at ih
        obtain ⟨hu, hMade⟩ := ih
        have hKept : u.Rooted ∧ (u = t ∨ ∃ q ∈ p :: outer, u.LeadsToEmpty q) := by
          refine ⟨hu, hMade.imp_right ?_⟩
          rintro ⟨q, hq, hEmpty⟩
          exact ⟨q, List.mem_cons_of_mem p hq, hEmpty⟩
        cases outcome with
        | error e => exact hKept
        | ok _ =>
          rcases makeDirectory_spec hu p with ⟨e, hAgain⟩ | ⟨v, hAgain, hv, hEmpty⟩
          · simp only [hAgain]
            split
            · exact hKept
            · exact hKept
          · simp only [hAgain]
            exact ⟨hv, .inr ⟨p, List.mem_cons_self, hEmpty⟩⟩
      · rw [if_neg hMissing]
        split
        · exact ⟨hTree, .inl rfl⟩
        · exact ⟨hTree, .inl rfl⟩
    · rw [hMake]
      exact ⟨hu, .inr ⟨p, List.mem_cons_self, hEmpty⟩⟩

/-- Making what a path is to be in brings no file to light under that path. -/
theorem read_of_read_makeDirectories {t : FileTree} (hTree : t.Rooted) {p d : Path}
    (hParent : p.parent? = some d) (hUp : Component.up ∉ p.components) {content : Bytes}
    (h : (t.makeDirectories d).1.read p = .ok content) : t.read p = .ok content := by
  rw [makeDirectories] at h
  rcases (makeDirectoriesOf_spec hTree _).2 with hSame | ⟨q, hq, hEmpty⟩
  · rwa [hSame] at h
  · obtain ⟨hq, hNonempty⟩ := List.mem_filter.1 hq
    rw [Bool.not_eq_true', List.isEmpty_eq_false_iff] at hNonempty
    obtain ⟨hBytes, hSpine⟩ := Path.prefix_of_mem_ancestors hq
    obtain ⟨hParentBytes, hParentSpine⟩ := Path.prefix_of_parent? hParent
    have hAbsolute := Path.isAbsolute_of_prefix (hBytes.trans hParentBytes) hNonempty
    exact absurd (isFile_of_read h) (not_isFile_of_leadsToEmpty hEmpty hAbsolute
      (hSpine.trans hParentSpine) fun hMem => hUp (Path.up_mem_of_mem_spine hMem))

end FileTree

end AnalysisCache
