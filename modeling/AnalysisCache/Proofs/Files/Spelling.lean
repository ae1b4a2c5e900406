import AnalysisCache.Files.Operations
import AnalysisCache.Proofs.Path.Map

/-!
# Spellings of one file

Two paths with the same components lead to the same place, as long as neither ends in a slash or in
a `.`, which a file cannot be followed by. So whatever has once named a file in some tree names, in
any tree, what any other such spelling names there.

* `FileTree.walkWith_cons_cases`: where the first part of a path leads, or that it is a link.
* `FileTree.walk_pads`: a walk does not see slashes and dots that something follows.
* `FileTree.read_eq_of_same`: two spellings of a file have the same content.
-/

namespace AnalysisCache

/-- Whether a part of a path names a step, and does not just stay in place. -/
def Path.isStep (part : Bytes) : Bool := !(part == [] || part == [0x2E])

namespace Component

/-- The part that a component is written as between slashes, if it is a step. -/
def part? : Component → Option Bytes
  | .root => none
  | .here => none
  | .up => some [0x2E, 0x2E]
  | .name n => some n

theorem bind_ofPart? (part : Bytes) :
    (ofPart? part).bind part? = if Path.isStep part then some part else none := by
  by_cases hEmpty : part = []
  · subst hEmpty
    rfl
  · by_cases hDot : part = [0x2E]
    · subst hDot
      rfl
    · by_cases hUp : part = [0x2E, 0x2E]
      · subst hUp
        rfl
      · simp [ofPart?, Path.isStep, hEmpty, hDot, hUp, part?]

end Component

namespace Path

/-- The steps that the components of a path take. -/
def spine (p : Path) : List Bytes := p.components.filterMap Component.part?

theorem filterMap_ofPart? (body : List Bytes) :
    (body.filterMap Component.ofPart?).filterMap Component.part? = body.filter isStep := by
  induction body with
  | nil => rfl
  | cons part rest ih =>
    rw [List.filterMap_filterMap] at ih ⊢
    rw [List.filterMap_cons, Component.bind_ofPart?, List.filter_cons, ih]
    cases isStep part <;> rfl

theorem spine_eq_filter_split (p : Path) : p.spine = p.split.2.filter isStep := by
  rw [spine, components, List.filterMap_append, filterMap_ofPart?]
  cases p.split.1 <;> rfl

theorem filter_parts_eq_spine (p : Path) : (parts p.bytes).filter isStep = p.spine := by
  rw [spine_eq_filter_split]
  obtain ⟨b⟩ := p
  simp only [split]
  split
  · rfl
  · rename_i x
    split
    · rename_i hx
      subst hx
      rfl
    · split
      · rename_i hx
        subst hx
        rfl
      · rfl
  · rename_i x y rest
    split
    · rename_i hx
      subst hx
      rfl
    · split
      · rename_i hxy
        obtain ⟨rfl, rfl⟩ := hxy
        rfl
      · rfl

theorem isAbsolute_iff_root_mem (p : Path) :
    p.isAbsolute = true ↔ Component.root ∈ p.components := by
  have hBody : Component.root ∉ p.split.2.filterMap Component.ofPart? := by
    intro hMem
    obtain ⟨part, _, hPart⟩ := List.mem_filterMap.1 hMem
    simp only [Component.ofPart?] at hPart
    split at hPart
    · cases hPart
    · split at hPart <;> cases hPart
  have hLead : p.isAbsolute = true ↔ p.split.1 = .root := by
    obtain ⟨b⟩ := p
    simp only [isAbsolute, split]
    split
    · simp
    · split
      · simp_all
      · split <;> simp_all
    · split
      · simp_all
      · split <;> simp_all
  rw [hLead, components, List.mem_append]
  constructor
  · intro h
    rw [h]
    exact .inl (List.mem_singleton.2 rfl)
  · rintro (h | h)
    · cases hSplit : p.split.1 with
      | root => rfl
      | here => rw [hSplit] at h; cases List.mem_singleton.1 h
      | none => rw [hSplit] at h; cases h
    · exact absurd h hBody

theorem isAbsolute_eq_of_same {p q : Path} (h : p.same q = true) : p.isAbsolute = q.isAbsolute := by
  rw [Bool.eq_iff_iff, isAbsolute_iff_root_mem, isAbsolute_iff_root_mem, same_iff.1 h]

end Path

namespace FileTree

theorem filter_nonempty_parts_eq_spine (p : Path) :
    ((Path.parts p.bytes).filter fun part => !part.isEmpty).filter Path.isStep = p.spine := by
  rw [List.filter_filter, ← Path.filter_parts_eq_spine]
  refine List.filter_congr fun part _ => ?_
  cases part with
  | nil => rfl
  | cons b rest => simp

theorem filter_steps_eq_spine (p : Path) : (steps p).filter Path.isStep = p.spine := by
  simp only [steps]
  split
  · rw [List.filter_append, filter_nonempty_parts_eq_spine]
    exact List.append_nil _
  · exact filter_nonempty_parts_eq_spine p

/-! ## Parts that stay in place -/

/-- `Pads xs ys`: `xs` is `ys` with parts put in that stay in place, each with more to follow. -/
inductive Pads : List Bytes → List Bytes → Prop where
  | refl (xs : List Bytes) : Pads xs xs
  | step (part : Bytes) {xs ys : List Bytes} (h : Pads xs ys) : Pads (part :: xs) (part :: ys)
  | idle {part : Bytes} {xs ys : List Bytes} (hPart : Path.isStep part = false) (h : Pads xs ys)
      (hMore : ys ≠ []) : Pads (part :: xs) ys

theorem Pads.append_left {xs ys : List Bytes} (h : Pads xs ys) (zs : List Bytes) :
    Pads (zs ++ xs) (zs ++ ys) := by
  induction zs with
  | nil => exact h
  | cons z rest ih => exact .step z ih

theorem pads_filter {xs : List Bytes} (h : ∀ part, xs.getLast? = some part → Path.isStep part = true) :
    Pads xs (xs.filter Path.isStep) := by
  induction xs with
  | nil => exact .refl []
  | cons part rest ih =>
    have hRest : ∀ q, rest.getLast? = some q → Path.isStep q = true := by
      intro q hq
      refine h q ?_
      rw [List.getLast?_cons, hq]
      rfl
    cases hPart : Path.isStep part with
    | true =>
      rw [List.filter_cons_of_pos hPart]
      exact .step part (ih hRest)
    | false =>
      rw [List.filter_cons_of_neg (by simp [hPart])]
      refine .idle hPart (ih hRest) fun hNil => ?_
      cases hLast : rest.getLast? with
      | none =>
        have hSelf := h part (by rw [List.getLast?_cons, hLast]; rfl)
        rw [hPart] at hSelf
        cases hSelf
      | some q =>
        have hMem : q ∈ rest.filter Path.isStep :=
          List.mem_filter.2 ⟨List.mem_of_getLast? hLast, hRest q hLast⟩
        rw [hNil] at hMem
        cases hMem

/-- What a walk does where it comes to a link, with `links` more of them to follow. -/
def follow (t : FileTree) (last : LastPart) :
    Nat → Location → List Bytes → Except FileError Location
  | 0 => fun _ _ => .error .tooManyLinks
  | links + 1 => walk t last links

theorem walk_eq_walkWith (t : FileTree) (last : LastPart) (links : Nat) :
    walk t last links = walkWith t last (follow t last links) := by
  cases links <;> rfl

/-! ## One step of a walk -/

/-- Whether a part of a path may name something in a directory that is there. -/
structure Enters (t : FileTree) (l : Location) (part : Bytes) : Prop where
  directory : t.node? l = some .directory
  isStep : Path.isStep part = true
  not_up : part ≠ [0x2E, 0x2E]
  short : ¬ maxNameLength < part.length

/-- Where a part of a path leads to if it is no link. -/
inductive Leads (t : FileTree) (l : Location) (part : Bytes) : Location → Prop where
  | idle (hDirectory : t.node? l = some .directory) (hPart : Path.isStep part = false) :
    Leads t l part l
  | up (hDirectory : t.node? l = some .directory) (hPart : part = [0x2E, 0x2E]) :
    Leads t l part l.dropLast
  | name (hEnters : Enters t l part) {n : Node} (hNext : t.node? (l ++ [part]) = some n)
      (hNode : ∀ target, n ≠ .link target) : Leads t l part (l ++ [part])

/-- Whether a part of a path is a link. -/
structure LinksTo (t : FileTree) (l : Location) (part : Bytes) (target : Path) : Prop where
  enters : Enters t l part
  next : t.node? (l ++ [part]) = some (.link target)

theorem isStep_eq_false_iff {part : Bytes} :
    Path.isStep part = false ↔ part = [] ∨ part = [0x2E] := by
  rw [Path.isStep, Bool.not_eq_false', Bool.or_eq_true, beq_iff_eq, beq_iff_eq]

theorem Enters.not_idle {t : FileTree} {l : Location} {part : Bytes} (h : Enters t l part) :
    ¬ (part = [] ∨ part = [0x2E]) := by
  rw [← isStep_eq_false_iff, h.isStep]
  decide

section

variable {t : FileTree} {last : LastPart} {l m k : Location} {part : Bytes} {rest : List Bytes}
  {go : Location → List Bytes → Except FileError Location}

theorem Leads.directory (h : Leads t l part m) : t.node? l = some .directory := by
  cases h with
  | idle hDirectory _ => exact hDirectory
  | up hDirectory _ => exact hDirectory
  | name hEnters _ _ => exact hEnters.directory

/-- What is to be new may not have a slash after it. -/
theorem Leads.walkWith_cons (h : Leads t l part m) (hRest : last = .new → rest ≠ [[]]) :
    walkWith t last go l (part :: rest) = walkWith t last go m rest := by
  cases h with
  | idle hDirectory hPart =>
    rw [walkWith, hDirectory]
    dsimp only
    rw [if_pos (isStep_eq_false_iff.1 hPart)]
  | up hDirectory hPart =>
    subst hPart
    rw [walkWith, hDirectory]
    dsimp only
    rw [if_neg (by decide), if_pos rfl]
  | @name hEnters n hNext hNode =>
    rw [walkWith, hEnters.directory]
    dsimp only
    rw [if_neg hEnters.not_idle, if_neg hEnters.not_up, if_neg fun hBoth => hRest hBoth.2 hBoth.1,
      if_neg hEnters.short, hNext]
    cases n with
    | link target => exact absurd rfl (hNode target)
    | file content => rfl
    | directory => rfl

/-- A link is followed, unless it is at the end of a path that may be that of a link. -/
theorem LinksTo.walkWith_cons {target : Path} (h : LinksTo t l part target)
    (hLast : last = .existingLink → rest ≠ []) (hRest : last = .new → rest ≠ [[]]) :
    walkWith t last go l (part :: rest) = go (origin l target) (steps target ++ rest) := by
  rw [walkWith, h.enters.directory]
  dsimp only
  rw [if_neg h.enters.not_idle, if_neg h.enters.not_up,
    if_neg fun hBoth => hRest hBoth.2 hBoth.1, if_neg h.enters.short, h.next]
  dsimp only
  rw [if_neg fun hBoth => hLast hBoth.2 hBoth.1]

/-- A walk goes on from where its first part leads to, or along a link, or it ends at something
new. It does not stop at a link, if something follows it. -/
theorem walkWith_cons_cases (hLast : last = .existingLink → rest ≠ [])
    (h : walkWith t last go l (part :: rest) = .ok k) :
    (∃ m, Leads t l part m ∧ walkWith t last go m rest = .ok k) ∨
      (∃ target, LinksTo t l part target ∧ go (origin l target) (steps target ++ rest) = .ok k) ∨
      last = .new ∧ rest = [] ∧ Enters t l part ∧ t.node? (l ++ [part]) = none ∧
        k = l ++ [part] := by
  rw [walkWith] at h
  split at h
  · cases h
  · rename_i hDirectory
    split at h
    · rename_i hIdle
      exact .inl ⟨l, .idle hDirectory (isStep_eq_false_iff.2 hIdle), h⟩
    · rename_i hIdle
      split at h
      · rename_i hUp
        exact .inl ⟨l.dropLast, .up hDirectory hUp, h⟩
      · rename_i hUp
        split at h
        · cases h
        · split at h
          · cases h
          · rename_i hShort
            have hStep : Path.isStep part = true := by
              rw [← isStep_eq_false_iff, Bool.not_eq_false] at hIdle
              exact hIdle
            have hEnters : Enters t l part := ⟨hDirectory, hStep, hUp, hShort⟩
            split at h
            · rename_i hNone
              split at h
              · rename_i hNew
                cases h
                exact .inr (.inr ⟨hNew.2, hNew.1, hEnters, hNone, rfl⟩)
              · cases h
            · rename_i target hNext
              rw [if_neg fun hBoth => hLast hBoth.2 hBoth.1] at h
              exact .inr (.inl ⟨target, ⟨hEnters, hNext⟩, h⟩)
            · rename_i n hNode hNext
              exact .inl ⟨l ++ [part], .name hEnters hNext hNode, h⟩
  · cases h

theorem walkWith_existing_cons_iff : walkWith t .existing go l (part :: rest) = .ok k ↔
    (∃ m, Leads t l part m ∧ walkWith t .existing go m rest = .ok k) ∨
      ∃ target, LinksTo t l part target ∧ go (origin l target) (steps target ++ rest) = .ok k := by
  have hNew : LastPart.existing = .new → rest ≠ [[]] := fun h => by cases h
  constructor
  · intro h
    rcases walkWith_cons_cases (fun hLast => by cases hLast) h with hLeads | hLink | ⟨hNew, _⟩
    · exact .inl hLeads
    · exact .inr hLink
    · cases hNew
  · rintro (⟨m, hLeads, h⟩ | ⟨target, hLink, h⟩)
    · rw [hLeads.walkWith_cons hNew]
      exact h
    · rw [hLink.walkWith_cons (fun hLast => by cases hLast) hNew]
      exact h

/-- A walk that goes on starts from a directory. -/
theorem node?_of_walkWith_cons (h : walkWith t .existing go l (part :: rest) = .ok k) :
    t.node? l = some .directory := by
  rcases walkWith_existing_cons_iff.1 h with ⟨m, hLeads, _⟩ | ⟨target, hLink, _⟩
  · exact hLeads.directory
  · exact hLink.enters.directory

theorem walkWith_idle_iff (hPart : Path.isStep part = false) :
    walkWith t .existing go l (part :: rest) = .ok k ↔
      t.node? l = some .directory ∧ walkWith t .existing go l rest = .ok k := by
  constructor
  · intro h
    have hDirectory := node?_of_walkWith_cons h
    have hLeads : Leads t l part l := .idle hDirectory hPart
    rw [hLeads.walkWith_cons fun hNew => by cases hNew] at h
    exact ⟨hDirectory, h⟩
  · rintro ⟨hDirectory, h⟩
    exact walkWith_existing_cons_iff.2 (.inl ⟨l, .idle hDirectory hPart, h⟩)

end

/-- Parts that stay in place make no difference if something follows them, since what follows also
needs a directory to start from. -/
theorem walkWith_pads {t : FileTree} {go : Location → List Bytes → Except FileError Location}
    {x : Location} (hGo : ∀ l xs ys, Pads xs ys → (go l xs = .ok x ↔ go l ys = .ok x))
    {xs ys : List Bytes} (h : Pads xs ys) (l : Location) :
    walkWith t .existing go l xs = .ok x ↔ walkWith t .existing go l ys = .ok x := by
  induction h generalizing l with
  | refl xs => exact Iff.rfl
  | @step part xs ys h ih =>
    rw [walkWith_existing_cons_iff, walkWith_existing_cons_iff]
    refine or_congr (exists_congr fun m => and_congr_right' (ih m)) ?_
    exact exists_congr fun target => and_congr_right' (hGo _ _ _ (h.append_left _))
  | @idle part xs ys hPart h hMore ih =>
    rw [walkWith_idle_iff hPart, ih]
    refine and_iff_right_of_imp fun hWalk => ?_
    obtain ⟨y, rest, rfl⟩ := List.exists_cons_of_ne_nil hMore
    exact node?_of_walkWith_cons hWalk

theorem walk_pads {t : FileTree} {links : Nat} {x : Location} {xs ys : List Bytes} (h : Pads xs ys)
    (l : Location) : walk t .existing links l xs = .ok x ↔ walk t .existing links l ys = .ok x := by
  induction links generalizing l xs ys with
  | zero =>
    rw [walk_eq_walkWith]
    exact walkWith_pads (fun _ _ _ _ => by simp [follow]) h l
  | succ links ih =>
    rw [walk_eq_walkWith]
    exact walkWith_pads (fun l _ _ hPads => ih hPads l) h l

/-- What ends in a slash or in a `.` is a directory. -/
theorem node?_of_walk_concat {t : FileTree} {links : Nat} {l x : Location} {xs : List Bytes}
    {part : Bytes} (hPart : Path.isStep part = false)
    (h : walk t .existing links l (xs ++ [part]) = .ok x) : t.node? x = some .directory := by
  have aux : ∀ go : Location → List Bytes → Except FileError Location,
      (∀ l xs, go l (xs ++ [part]) = .ok x → t.node? x = some .directory) → ∀ xs l,
      walkWith t .existing go l (xs ++ [part]) = .ok x → t.node? x = some .directory := by
    intro go hGo xs
    induction xs with
    | nil =>
      intro l h
      obtain ⟨hNode, hEnd⟩ := (walkWith_idle_iff hPart).1 h
      obtain rfl : l = x := Except.ok.inj hEnd
      exact hNode
    | cons y rest ih =>
      intro l h
      rw [List.cons_append, walkWith_existing_cons_iff] at h
      rcases h with ⟨m, _, h⟩ | ⟨target, _, h⟩
      · exact ih m h
      · rw [← List.append_assoc] at h
        exact hGo _ _ h
  induction links generalizing l xs with
  | zero =>
    rw [walk_eq_walkWith] at h
    refine aux _ ?_ xs l h
    intro _ _ hGo
    cases hGo
  | succ links ih =>
    rw [walk_eq_walkWith] at h
    exact aux _ (fun _ _ hGo => ih hGo) xs l h

/-! ## What two spellings lead to -/

theorem pathError?_eq_none_iff {p : Path} :
    pathError? p = none ↔ 0 ∉ p.bytes ∧ p.bytes ≠ [] ∧ p.bytes.length < pathLimit := by
  rw [pathError?]
  by_cases hNul : p.bytes.contains 0 = true
  · rw [if_pos hNul]
    exact iff_of_false (by simp) fun h => h.1 (by simpa using hNul)
  · rw [if_neg hNul]
    have hNul' : 0 ∉ p.bytes := by simpa using hNul
    by_cases hNil : p.bytes = []
    · simp [hNil]
    · rw [if_neg hNil]
      by_cases hLong : pathLimit ≤ p.bytes.length
      · simp [hLong]
      · simp [hLong, hNul', hNil, Nat.lt_of_not_le hLong]

theorem pathError?_of_locate {t : FileTree} {last : LastPart} {p : Path} {l : Location}
    (h : t.locate last p = .ok l) : pathError? p = none := by
  cases hError : pathError? p with
  | none => rfl
  | some e =>
    rw [locate, hError] at h
    cases h

theorem read_eq_ok_iff {t : FileTree} {p : Path} {content : Bytes} :
    t.read p = .ok content ↔ ∃ l, t.locate .existing p = .ok l ∧ t.node? l = some (.file content) := by
  rw [read]
  cases hLocate : t.locate .existing p with
  | error e => simp
  | ok l =>
    cases hNode : t.node? l with
    | none => simp [hNode]
    | some n => cases n <;> simp [hNode]

theorem isFile_iff {t : FileTree} {p : Path} :
    t.isFile p = true ↔ ∃ content, t.read p = .ok content := by
  simp only [read_eq_ok_iff, isFile, lookup?]
  cases hLocate : t.locate .existing p with
  | error e => simp
  | ok l =>
    cases hNode : t.node? l with
    | none => simp [hNode]
    | some n => cases n <;> simp [hNode]

theorem isFile_of_read {t : FileTree} {p : Path} {content : Bytes} (h : t.read p = .ok content) :
    t.isFile p = true :=
  isFile_iff.2 ⟨content, h⟩

/-- A path that a file can be found under: it is within the limits, and nothing in it asks for a
directory at the end. -/
structure Addressable (p : Path) : Prop where
  noError : pathError? p = none
  isStep_last : ∀ part, (steps p).getLast? = some part → Path.isStep part = true

theorem addressable_iff {p : Path} :
    Addressable p ↔ pathError? p = none ∧ (steps p).getLast?.all Path.isStep = true := by
  rw [Option.all_eq_true]
  exact ⟨fun h => ⟨h.noError, h.isStep_last⟩, fun h => ⟨h.1, h.2⟩⟩

instance (p : Path) : Decidable (Addressable p) := decidable_of_iff _ addressable_iff.symm

theorem locate_of_addressable {p : Path} (h : Addressable p) (t : FileTree) :
    t.locate .existing p = t.walk .existing maxLinks (origin t.current p) (steps p) := by
  rw [locate, h.noError]

theorem addressable_of_isFile {t : FileTree} {p : Path} (h : t.isFile p = true) :
    Addressable p := by
  obtain ⟨content, hRead⟩ := isFile_iff.1 h
  obtain ⟨l, hLocate, hNode⟩ := read_eq_ok_iff.1 hRead
  have hError := pathError?_of_locate hLocate
  rw [locate, hError] at hLocate
  refine ⟨hError, fun part hLast => ?_⟩
  cases hPart : Path.isStep part with
  | true => rfl
  | false =>
    have hSteps : steps p = (steps p).dropLast ++ [part] := by
      obtain ⟨xs, hxs⟩ := List.getLast?_eq_some_iff.1 hLast
      rw [hxs, List.dropLast_concat]
    rw [hSteps] at hLocate
    rw [node?_of_walk_concat hPart hLocate] at hNode
    cases hNode

/-- Where a file can be found under two spellings of a path, both lead to it. -/
theorem locate_eq_ok_iff_of_same {t : FileTree} {p q : Path} {l : Location} (hp : Addressable p)
    (hq : Addressable q) (h : p.same q = true) :
    t.locate .existing p = .ok l ↔ t.locate .existing q = .ok l := by
  have hSpine : p.spine = q.spine := by
    rw [Path.spine, Path.spine, Path.same_iff.1 h]
  have hOrigin : origin t.current p = origin t.current q := by
    rw [origin, origin, Path.isAbsolute_eq_of_same h]
  rw [locate_of_addressable hp, locate_of_addressable hq, hOrigin,
    walk_pads (pads_filter hp.isStep_last), walk_pads (pads_filter hq.isStep_last),
    filter_steps_eq_spine, filter_steps_eq_spine, hSpine]

theorem read_eq_of_same {t : FileTree} {p q : Path} {content : Bytes} (hp : Addressable p)
    (h : p.same q = true) (hq : t.read q = .ok content) : t.read p = .ok content := by
  obtain ⟨l, hLocate, hNode⟩ := read_eq_ok_iff.1 hq
  have hq' : Addressable q := addressable_of_isFile (isFile_of_read hq)
  exact read_eq_ok_iff.2 ⟨l, (locate_eq_ok_iff_of_same hp hq' h).2 hLocate, hNode⟩

theorem isFile_of_same {t : FileTree} {p q : Path} (hp : Addressable p) (h : p.same q = true)
    (hq : t.isFile q = true) : t.isFile p = true := by
  obtain ⟨content, hRead⟩ := isFile_iff.1 hq
  exact isFile_of_read (read_eq_of_same hp h hRead)

/-- Whether a path names a file if another spelling of it does. -/
def Plain (t : FileTree) (p : Path) : Prop :=
  ∀ q, q.same p = true → t.isFile q = true → t.isFile p = true

theorem plain_of_isFile {t : FileTree} {p : Path} (h : t.isFile p = true) : t.Plain p :=
  fun _ _ _ => h

theorem plain_of_addressable {t : FileTree} {p : Path} (h : Addressable p) : t.Plain p :=
  fun _ hSame hFile => isFile_of_same h (Path.same_symm hSame) hFile

end FileTree

end AnalysisCache
