import AnalysisCache.Proofs.Files.Removal
import AnalysisCache.Proofs.Path.Join

/-!
# Entries of directories

A path that ends in a name leads to the directory before the name, and from there to the entry with
that name: to the entry itself, or to where it leads if it is a link that is followed. It leads
nowhere else, however the directory is spelled.

* `FileTree.exists_walk_of_concat`: a walk comes to a directory before its last step.
* `FileTree.endsAt_of_locate_join`: what is read under a joined path.
* `FileTree.isEntry_of_locate_join`: what is removed under a joined path.
-/

namespace AnalysisCache

namespace FileTree

/-- Whether the steps of a path lead to a location, be there slashes or dots behind them or not. The
empty path leads to the working directory. -/
def Reaches (t : FileTree) (p : Path) (l : Location) : Prop :=
  t.walk .existing maxLinks (origin t.current p) p.spine = .ok l

/-- Whether a path leads to a directory. -/
structure LeadsTo (t : FileTree) (d : Path) (l : Location) : Prop where
  reaches : t.Reaches d l
  directory : t.node? l = some .directory

theorem LeadsTo.unique {t : FileTree} {d : Path} {k l : Location} (hk : t.LeadsTo d k)
    (hl : t.LeadsTo d l) : k = l := walk_unique hk.reaches hl.reaches

theorem reaches_congr {t : FileTree} {p q : Path} {l : Location} (h : p.same q = true) :
    t.Reaches p l ↔ t.Reaches q l := by
  rw [Reaches, Reaches, origin, origin, Path.isAbsolute_eq_of_same h, Path.spine, Path.spine,
    Path.same_iff.1 h]

theorem reaches_of_locate {t : FileTree} {p : Path} {l : Location}
    (h : t.locate .existing p = .ok l) : t.Reaches p l := by
  rw [locate, pathError?_of_locate h] at h
  rw [Reaches, ← filter_steps_eq_spine]
  exact walk_of_loose (loose_filter (steps p)) _ h

theorem LeadsTo.locate {t : FileTree} {d : Path} {l : Location} (h : t.LeadsTo d l)
    (hError : pathError? d = none) : t.locate .existing d = .ok l :=
  locate_of_walk_spine hError h.directory h.reaches

/-- A directory is what a path within the limits leads to. -/
theorem isDirectory_iff_leadsTo {t : FileTree} {d : Path} :
    t.isDirectory d = true ↔ pathError? d = none ∧ ∃ l, t.LeadsTo d l := by
  rw [isDirectory_iff]
  constructor
  · rintro ⟨l, hLocate, hl⟩
    exact ⟨pathError?_of_locate hLocate, l, reaches_of_locate hLocate, hl⟩
  · rintro ⟨hError, l, h⟩
    exact ⟨l, h.locate hError, h.directory⟩

/-! ## The last step of a walk -/

section

variable {t : FileTree} {last : LastPart} {name : Bytes}

theorem exists_walkWith_of_concat {links : Nat} {k : Location}
    (hGo : ∀ m xs, follow t last links m (xs ++ [name]) = .ok k →
      ∃ n l, follow t .existing links m xs = .ok l ∧ walk t last n l [name] = .ok k)
    (xs : List Bytes) (m : Location)
    (h : walkWith t last (follow t last links) m (xs ++ [name]) = .ok k) :
    ∃ n l, walkWith t .existing (follow t .existing links) m xs = .ok l ∧
      walk t last n l [name] = .ok k := by
  induction xs generalizing m with
  | nil => exact ⟨links, m, rfl, by rwa [walk_eq_walkWith]⟩
  | cons part rest ih =>
    simp only [walkWith_existing_cons_iff]
    rw [List.cons_append] at h
    rcases walkWith_cons_cases (fun _ => by simp) h with
      ⟨y, hLeads, hRest⟩ | ⟨target, hLink, hRest⟩ | ⟨_, hNil, _⟩
    · obtain ⟨n, l, hBefore, hAfter⟩ := ih y hRest
      exact ⟨n, l, .inl ⟨y, hLeads, hBefore⟩, hAfter⟩
    · rw [← List.append_assoc] at hRest
      obtain ⟨n, l, hBefore, hAfter⟩ := hGo _ _ hRest
      exact ⟨n, l, .inr ⟨target, hLink, hBefore⟩, hAfter⟩
    · exact absurd hNil (by simp)

/-- A walk to a name comes to the directory of it first, whatever it does with the name. -/
theorem exists_walk_of_concat {links : Nat} {m k : Location}
    {xs : List Bytes} (h : walk t last links m (xs ++ [name]) = .ok k) :
    ∃ n l, walk t .existing links m xs = .ok l ∧ walk t last n l [name] = .ok k := by
  induction links generalizing m xs with
  | zero =>
    rw [walk_eq_walkWith] at h ⊢
    exact exists_walkWith_of_concat (fun _ _ hGo => by cases hGo) xs m h
  | succ links ih =>
    have hGo : ∀ m xs, follow t last (links + 1) m (xs ++ [name]) = .ok k →
        ∃ n l, follow t .existing (links + 1) m xs = .ok l ∧ walk t last n l [name] = .ok k :=
      fun _ _ hGo => ih hGo
    rw [walk_eq_walkWith] at h ⊢
    exact exists_walkWith_of_concat hGo xs m h

theorem directory_of_walk_cons {links : Nat} {l k : Location} {part : Bytes} {rest : List Bytes}
    (h : walk t last links l (part :: rest) = .ok k) : t.node? l = some .directory := by
  rw [walk_eq_walkWith, walkWith] at h
  split at h
  · cases h
  · assumption
  · cases h

/-- The steps of a joined path are those of the directory, and the name. -/
theorem exists_steps_join (d : Path) (h : Path.IsName name) :
    ∃ before, steps (d.join ⟨name⟩) = before ++ [name] ∧ before.filter Path.isStep = d.spine := by
  obtain ⟨xs, hParts⟩ := List.getLast?_eq_some_iff.1 (Path.getLast?_parts_join d h)
  have hSteps : steps (d.join ⟨name⟩) = (xs.filter fun part => !part.isEmpty) ++ [name] := by
    have hName : [name].filter (fun part => !part.isEmpty) = [name] := by
      rw [List.filter_cons_of_pos (by simpa using h.ne_nil), List.filter_nil]
    simp only [steps, hParts, List.filter_append, hName]
    rw [if_neg fun hBoth => Path.getLast?_bytes_join d h hBoth.2]
  refine ⟨_, hSteps, ?_⟩
  have hSpine := filter_steps_eq_spine (d.join ⟨name⟩)
  rw [hSteps, Path.spine_join d h, List.filter_append, List.filter_cons_of_pos h.isStep] at hSpine
  exact List.append_cancel_right hSpine

/-- A joined path leads to the directory first, and from there along the name. -/
theorem exists_walk_of_locate_join {d : Path} {k : Location} (h : Path.IsName name)
    (hLocate : t.locate last (d.join ⟨name⟩) = .ok k) :
    ∃ l n, t.LeadsTo d l ∧ walk t last n l [name] = .ok k := by
  rw [FileTree.locate, pathError?_of_locate hLocate] at hLocate
  obtain ⟨before, hSteps, hBefore⟩ := exists_steps_join d h
  dsimp only at hLocate
  rw [hSteps, origin, Path.isAbsolute_join d h, ← origin] at hLocate
  obtain ⟨n, l, hWalk, hLast⟩ := exists_walk_of_concat hLocate
  refine ⟨l, n, ⟨?_, directory_of_walk_cons hLast⟩, hLast⟩
  rw [Reaches, ← hBefore]
  exact walk_of_loose (loose_filter before) _ hWalk

theorem eq_of_leads {l m : Location} (h : Path.IsName name) (hLeads : Leads t l name m) :
    m = l ++ [name] := by
  cases hLeads with
  | idle _ hPart =>
    rw [h.isStep] at hPart
    cases hPart
  | up _ hPart => exact absurd hPart h.not_up
  | name _ _ _ => rfl

/-- Whether a location is that of the entry with a name in the directory that a path leads to. -/
def IsEntry (t : FileTree) (d : Path) (name : Bytes) (l : Location) : Prop :=
  ∃ base, t.LeadsTo d base ∧ l = base ++ [name]

/-- What is found under a joined path is the entry of the directory, or what it is a link to. -/
theorem endsAt_of_locate_join {d : Path} {k : Location} (h : Path.IsName name)
    (hLocate : t.locate .existing (d.join ⟨name⟩) = .ok k) :
    ∃ l, t.IsEntry d name l ∧ EndsAt t l k := by
  obtain ⟨l, n, hLeads, hWalk⟩ := exists_walk_of_locate_join h hLocate
  refine ⟨l ++ [name], ⟨l, hLeads, rfl⟩, ?_⟩
  rw [walk_eq_walkWith, walkWith_existing_cons_iff] at hWalk
  rcases hWalk with ⟨m, hName, hEnd⟩ | ⟨target, hLink, hEnd⟩
  · refine .inl ?_
    rw [← eq_of_leads h hName]
    exact Except.ok.inj hEnd
  · rw [List.append_nil] at hEnd
    obtain ⟨links, hTarget⟩ := exists_walk_of_follow hEnd
    exact .inr ⟨target, links, hLink.next, by rwa [List.dropLast_concat]⟩

/-- What is removed under a joined path is the entry of the directory. -/
theorem isEntry_of_locate_join {d : Path} {k : Location} (h : Path.IsName name)
    (hLocate : t.locate .existingLink (d.join ⟨name⟩) = .ok k) : t.IsEntry d name k := by
  obtain ⟨l, n, hLeads, hWalk⟩ := exists_walk_of_locate_join h hLocate
  refine ⟨l, hLeads, ?_⟩
  have hIdle := isStep_eq_false_iff.not.1 (by rw [h.isStep]; decide)
  rw [walk_eq_walkWith, walkWith, hLeads.directory] at hWalk
  dsimp only at hWalk
  rw [if_neg hIdle, if_neg h.not_up, if_neg (by simp)] at hWalk
  split at hWalk
  · cases hWalk
  · split at hWalk
    · cases hWalk
    · rw [if_pos ⟨rfl, rfl⟩] at hWalk
      exact (Except.ok.inj hWalk).symm
    · exact (Except.ok.inj hWalk).symm

end

end FileTree

end AnalysisCache
