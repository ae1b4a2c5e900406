import AnalysisCache.Proofs.Digest.Lines
import AnalysisCache.Proofs.Digest.Memo

/-!
# Files with other line ends

Two trees may differ in nothing but the line ends of files. Then all paths lead to the same places,
the files there have the same digests, and what is done to one tree has the same outcome when it is
done to the other one, after which the trees differ in no more than they did.

* `FileTree.SameLines.locate_eq`: all paths lead to the same places.
* `FileTree.SameLines.digestOf_eq`: all files have the same digests.
* `FileTree.SameLines.removeFile`, `FileTree.SameLines.makeDirectories`,
  `FileTree.SameLines.write`: what is done to both trees.
-/

namespace AnalysisCache

open Bytes (unixLines)

/-- Whether two nodes are the same, be it with other line ends. -/
inductive Node.SameLines : Node → Node → Prop where
  | file {a b : Bytes} (h : unixLines a = unixLines b) : SameLines (.file a) (.file b)
  | directory : SameLines .directory .directory
  | link (target : Path) : SameLines (.link target) (.link target)

theorem Node.SameLines.refl (n : Node) : n.SameLines n := by
  cases n with
  | file _ => exact .file rfl
  | directory => exact .directory
  | link target => exact .link target

namespace FileTree

/-- Whether two trees differ in nothing but the line ends of files. -/
structure SameLines (t u : FileTree) : Prop where
  current_eq : t.current = u.current
  node? : ∀ l, Option.Rel Node.SameLines (t.node? l) (u.node? l)

theorem node?_remove_root (t : FileTree) (m : Location) : (t.remove []).node? m = t.node? m := by
  by_cases hm : m = []
  · subst hm
    rfl
  · simp only [node?, hm, if_false, remove, Trie.get?_erase]

theorem node?_set_root (t : FileTree) (n : Node) (m : Location) :
    (t.set [] n).node? m = t.node? m := by
  by_cases hm : m = []
  · subst hm
    rfl
  · simp only [node?, hm, if_false, set, Trie.get?_set]

namespace SameLines

theorem refl (t : FileTree) : t.SameLines t := by
  refine ⟨rfl, fun l => ?_⟩
  cases t.node? l with
  | none => exact .none
  | some n => exact .some (.refl n)

/-- Whether something has the same outcome in both trees, and leaves them the same. -/
structure Both {α : Type} (x y : FileTree × α) : Prop where
  files : x.1.SameLines y.1
  outcome_eq : x.2 = y.2

section

variable {t u : FileTree} (h : t.SameLines u)

include h

/-! ## Finding files -/

theorem walkWith_eq (last : LastPart) (go : Location → List Bytes → Except FileError Location)
    (xs : List Bytes) (l : Location) : t.walkWith last go l xs = u.walkWith last go l xs := by
  induction xs generalizing l with
  | nil => rfl
  | cons part rest ih =>
    have hHere := h.node? l
    have hNext := h.node? (l ++ [part])
    rw [FileTree.walkWith, FileTree.walkWith]
    simp only [ih]
    generalize t.node? l = here, u.node? l = here' at hHere ⊢
    generalize t.node? (l ++ [part]) = next, u.node? (l ++ [part]) = next' at hNext ⊢
    cases hHere with
    | none => rfl
    | some hNode =>
      cases hNode with
      | file _ => rfl
      | link _ => rfl
      | directory =>
        cases hNext with
        | none => rfl
        | some hNode => cases hNode <;> rfl

theorem walk_eq (last : LastPart) (links : Nat) : t.walk last links = u.walk last links := by
  induction links with
  | zero => exact funext fun l => funext fun xs => h.walkWith_eq last _ xs l
  | succ links ih =>
    funext l xs
    rw [FileTree.walk, FileTree.walk, ih]
    exact h.walkWith_eq last _ xs l

theorem locate_eq (last : LastPart) (p : Path) : t.locate last p = u.locate last p := by
  rw [FileTree.locate, FileTree.locate, h.walk_eq, h.current_eq]

theorem read_cases (p : Path) :
    (∃ e, t.read p = .error e ∧ u.read p = .error e) ∨
      ∃ a b, t.read p = .ok a ∧ u.read p = .ok b ∧ unixLines a = unixLines b := by
  rw [read, read, h.locate_eq]
  cases u.locate .existing p with
  | error e => exact .inl ⟨e, rfl, rfl⟩
  | ok l =>
    have hNode := h.node? l
    dsimp only
    generalize t.node? l = here, u.node? l = here' at hNode ⊢
    cases hNode with
    | none => exact .inl ⟨_, rfl, rfl⟩
    | some hNode =>
      cases hNode with
      | file hLines => exact .inr ⟨_, _, rfl, rfl, hLines⟩
      | directory => exact .inl ⟨_, rfl, rfl⟩
      | link _ => exact .inl ⟨_, rfl, rfl⟩

theorem digestOf_eq (p : Path) : t.digestOf p = u.digestOf p := by
  rw [digestOf, digestOf]
  rcases h.read_cases p with ⟨e, ht, hu⟩ | ⟨a, b, ht, hu, hLines⟩
  · rw [ht, hu]
  · rw [ht, hu]
    show Except.ok (Digest.ofSource a) = .ok (Digest.ofSource b)
    rw [Digest.ofSource_eq, Digest.ofSource_eq, hLines]

/-- Where nothing can be read of one of the trees, the reason is the same for both. -/
theorem read_eq_of_not_isFile {p : Path} (hp : t.isFile p = false) : t.read p = u.read p := by
  rcases h.read_cases p with ⟨e, ht, hu⟩ | ⟨a, b, ht, _, _⟩
  · rw [ht, hu]
  · rw [isFile_of_read ht] at hp
    cases hp

theorem isDirectory_eq (p : Path) : t.isDirectory p = u.isDirectory p := by
  rw [isDirectory, isDirectory, lookup?, lookup?, h.locate_eq]
  cases u.locate .existing p with
  | error e => rfl
  | ok l =>
    have hNode := h.node? l
    dsimp only
    generalize t.node? l = here, u.node? l = here' at hNode ⊢
    cases hNode with
    | none => rfl
    | some hNode => cases hNode <;> rfl

theorem locateParent_eq (p : Path) : t.locateParent p = u.locateParent p := by
  rw [locateParent, locateParent, h.walk_eq, h.current_eq]
  cases pathError? p with
  | some e => rfl
  | none =>
    cases hWalk : u.walk .existing maxLinks (origin u.current p) (splitLast p).1 with
    | error e => rfl
    | ok l =>
      have hNode := h.node? l
      dsimp only [bind, Except.bind]
      generalize t.node? l = here, u.node? l = here' at hNode ⊢
      cases hNode with
      | none => rfl
      | some hNode => cases hNode <;> rfl

theorem locateFree_eq (p : Path) : t.locateFree p = u.locateFree p := by
  rw [locateFree, locateFree, h.locateParent_eq]
  cases u.locateParent p with
  | error e => rfl
  | ok l =>
    dsimp only [bind, Except.bind]
    cases (splitLast p).2 with
    | none => rfl
    | some part =>
      have hNode := h.node? (l ++ [part])
      dsimp only
      generalize t.node? (l ++ [part]) = next, u.node? (l ++ [part]) = next' at hNode ⊢
      cases hNode <;> rfl

theorem locateTarget_eq (p : Path) : t.locateTarget p = u.locateTarget p := by
  rw [locateTarget, locateTarget, h.locate_eq]
  cases u.locate .new p with
  | error e => rfl
  | ok l =>
    have hNode := h.node? l
    dsimp only [bind, Except.bind]
    generalize t.node? l = here, u.node? l = here' at hNode ⊢
    cases hNode with
    | none => rfl
    | some hNode => cases hNode <;> rfl

/-! ## Changing files -/

theorem set (l : Location) {n k : Node} (hNode : n.SameLines k) :
    (t.set l n).SameLines (u.set l k) := by
  refine ⟨h.current_eq, fun m => ?_⟩
  by_cases hl : l = []
  · subst hl
    rw [node?_set_root, node?_set_root]
    exact h.node? m
  · rw [node?_set t m n hl, node?_set u m k hl]
    split
    · exact .some hNode
    · exact h.node? m

theorem remove (l : Location) : (t.remove l).SameLines (u.remove l) := by
  refine ⟨h.current_eq, fun m => ?_⟩
  by_cases hl : l = []
  · subst hl
    rw [node?_remove_root, node?_remove_root]
    exact h.node? m
  · rw [node?_remove t m hl, node?_remove u m hl]
    split
    · exact .none
    · exact h.node? m

theorem removeFile (p : Path) : Both (t.removeFile p) (u.removeFile p) := by
  rw [FileTree.removeFile, FileTree.removeFile, h.locate_eq]
  cases u.locate .existingLink p with
  | error e => exact ⟨h, rfl⟩
  | ok l =>
    have hNode := h.node? l
    dsimp only
    generalize t.node? l = here, u.node? l = here' at hNode ⊢
    cases hNode with
    | none => exact ⟨h.remove l, rfl⟩
    | some hNode =>
      cases hNode with
      | directory => exact ⟨h, rfl⟩
      | file _ => exact ⟨h.remove l, rfl⟩
      | link _ => exact ⟨h.remove l, rfl⟩

theorem write (p : Path) (content : Bytes) : Both (t.write p content) (u.write p content) := by
  rw [FileTree.write, FileTree.write, h.locateTarget_eq]
  cases u.locateTarget p with
  | error e => exact ⟨h, rfl⟩
  | ok l => exact ⟨h.set l (.file rfl), rfl⟩

theorem makeDirectory (p : Path) : Both (t.makeDirectory p) (u.makeDirectory p) := by
  rw [FileTree.makeDirectory, FileTree.makeDirectory, h.locateFree_eq]
  cases u.locateFree p with
  | error e => exact ⟨h, rfl⟩
  | ok l => exact ⟨h.set l .directory, rfl⟩

end

theorem Both.cases {α : Type} {x y : FileTree × α} (h : Both x y) :
    ∃ t u outcome, x = (t, outcome) ∧ y = (u, outcome) ∧ t.SameLines u :=
  ⟨x.1, y.1, x.2, rfl, Prod.ext rfl h.outcome_eq.symm, h.files⟩

theorem makeDirectoriesOf {t u : FileTree} (h : t.SameLines u) (ps : List Path) :
    Both (FileTree.makeDirectoriesOf ps t) (FileTree.makeDirectoriesOf ps u) := by
  induction ps generalizing t u with
  | nil => exact ⟨h, rfl⟩
  | cons p outer ih =>
    obtain ⟨t₁, u₁, first, ht₁, hu₁, h₁⟩ := (h.makeDirectory p).cases
    obtain ⟨t₂, u₂, others, ht₂, hu₂, h₂⟩ := (ih h₁).cases
    obtain ⟨t₃, u₃, last, ht₃, hu₃, h₃⟩ := (h₂.makeDirectory p).cases
    rw [FileTree.makeDirectoriesOf, FileTree.makeDirectoriesOf, ht₁, hu₁]
    cases first with
    | ok _ => exact ⟨h₁, rfl⟩
    | error e =>
      dsimp only
      rw [ht₂, hu₂, h₁.isDirectory_eq p]
      by_cases hMissing : e = .notFound
      · rw [if_pos hMissing, if_pos hMissing]
        cases others with
        | error e => exact ⟨h₂, rfl⟩
        | ok _ =>
          dsimp only
          rw [ht₃, hu₃]
          cases last with
          | ok _ => exact ⟨h₃, rfl⟩
          | error e =>
            dsimp only
            rw [h₃.isDirectory_eq]
            split <;> exact ⟨h₃, rfl⟩
      · rw [if_neg hMissing, if_neg hMissing]
        split <;> exact ⟨h₁, rfl⟩

theorem makeDirectories {t u : FileTree} (h : t.SameLines u) (p : Path) :
    Both (t.makeDirectories p) (u.makeDirectories p) := h.makeDirectoriesOf _

end SameLines

end FileTree

end AnalysisCache
