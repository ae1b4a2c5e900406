import AnalysisCache.Proofs.Dependencies.Alike

/-!
# Two ways that undo each other

Up to order, repetition and spelling, dependencies come back from the dependents that they are turned
into, and dependents from the dependencies. What one way adds are files that no link leads to: a file
without dependencies is lost if it is gone, and a file that depends on another one becomes a key if
it is there. A file that is there and cannot be read keeps dependencies from being turned round, so
that dependents come back only if there is none among the files that they list.

* `DependentGraph.completed`: dependents, with a key for every file that has a digest.
* `DependencyGraph.Inverts.targetsAt_forward`: the dependencies that come back.
* `DependentGraph.same_completed`: the dependents that come back.
* `DependencyGraph.inverse`: both, and that there is something to come back.
-/

namespace AnalysisCache

open AnalysisCache.Path (same_self same_symm)
open PathMap (valuesAt)

theorem isIncreasing_iff {ps : List Path} :
    isIncreasing ps = true ↔ ps.Pairwise fun p q => compare p q = .lt := by
  induction ps with
  | nil => simp [isIncreasing]
  | cons p rest ih =>
    cases rest with
    | nil => simp [isIncreasing]
    | cons q rest =>
      rw [isIncreasing, Bool.and_eq_true, beq_iff_eq, ih]
      constructor
      · rintro ⟨hLt, hRest⟩
        refine List.pairwise_cons.2 ⟨fun r hr => ?_, hRest⟩
        rcases List.mem_cons.1 hr with rfl | hr
        · exact hLt
        · exact Std.TransCmp.lt_trans hLt ((List.pairwise_cons.1 hRest).1 r hr)
      · intro h
        obtain ⟨hFirst, hRest⟩ := List.pairwise_cons.1 h
        exact ⟨hFirst q List.mem_cons_self, hRest⟩

/-- Whether two files have the same content and the same dependents, however they are spelled. -/
structure Dependents.Same (d e : Dependents) : Prop where
  digest : d.digest = e.digest
  files : SamePaths d.files e.files

namespace DependentGraph

/-- Whether two graphs have the same entries, however their paths are spelled. -/
def Same (g h : DependentGraph) : Prop :=
  List.Forall₂ (fun x y => x.1.same y.1 = true ∧ x.2.Same y.2) g.entries h.entries

/-! ## The order of what is listed -/

/-- Whether every list of dependents is in strictly increasing order. -/
def Sorted (g : DependentGraph) : Prop :=
  ∀ p, (g.filesAt p).Pairwise fun q r => compare q r = .lt

theorem sorted_of_isNormalized {g : DependentGraph} (h : g.isNormalized = true) : g.Sorted := by
  intro p
  rw [filesAt]
  cases hGet : PathMap.get? g p with
  | none => exact .nil
  | some d =>
    obtain ⟨k, he, _⟩ := PathMap.mem_of_get? hGet
    exact isIncreasing_iff.1 (List.all_eq_true.1 h d (List.mem_map.2 ⟨_, he, rfl⟩))

theorem valuesAt_edges (g : DependentGraph) (p : Path) : valuesAt p g.edges =
    g.entries.flatMap fun e => (e.2.files.filter fun f => f.same p).map fun _ => e.1 := by
  rw [valuesAt, edges, List.filter_flatMap, List.map_flatMap]
  simp only [List.filter_map, List.map_map]
  rfl

/-- If the dependents of each file are in order, so are the dependencies. -/
theorem Sorted.valuesAt {g : DependentGraph} (h : g.Sorted) (p : Path) :
    (valuesAt p g.edges).Pairwise fun q r => compare q r = .lt := by
  rw [valuesAt_edges, List.pairwise_flatMap]
  constructor
  · rintro ⟨k, d⟩ he
    have hFiles := h k
    rw [filesAt_of_get? (PathMap.get?_of_mem he (same_self k))] at hFiles
    rw [List.pairwise_map, List.pairwise_filter]
    -- Of one file there is no second spelling in a list that is in order.
    refine hFiles.imp fun {q r} hLt hq hr => ?_
    have hNot := Path.not_same_of_lt hLt
    rw [Path.same_trans hq (same_symm hr)] at hNot
    cases hNot
  · refine g.sorted.imp fun {x y} hLt q hq r hr => ?_
    obtain ⟨_, _, rfl⟩ := List.mem_map.1 hq
    obtain ⟨_, _, rfl⟩ := List.mem_map.1 hr
    exact hLt

theorem Sorted.samePaths_filesAt {g h : DependentGraph} (hg : g.Sorted) (hh : h.Sorted) {p : Path}
    (hLinks : ∀ file, Links g.edges file p ↔ Links h.edges file p) :
    SamePaths (g.filesAt p) (h.filesAt p) := by
  refine PathMap.forall₂_same_of_pairwise_lt (f := id) (g := id) (hg p) (hh p) fun file => ?_
  rw [List.map_id, List.map_id, ← links_iff, ← links_iff]
  exact hLinks file

/-! ## Dependents with a key for every file -/

/-- Makes a file a key, with its digest, if it has one. -/
def addFile (digest? : Path → Option Digest) (g : DependentGraph) (f : Path) : DependentGraph :=
  if g.contains f then g
  else
    match digest? f with
    | some x => g.insert f ⟨x, []⟩
    | none => g

/-- The graph, in which every file that depends on another one is a key too, if it has a digest. -/
def completed (digest? : Path → Option Digest) (g : DependentGraph) : DependentGraph :=
  (g.edges.map (·.1)).foldl (addFile digest?) g

/-- The entry that a path gets for being one of some files. -/
def addedAt? (digest? : Path → Option Digest) (files : List Path) (p : Path) : Option Dependents :=
  files.findSome? fun f => if f.same p then (digest? f).map fun x => ⟨x, []⟩ else none

theorem get?_addFile (digest? : Path → Option Digest) (g : DependentGraph) (f p : Path) :
    PathMap.get? (addFile digest? g f) p =
      (PathMap.get? g p).or (if f.same p then (digest? f).map fun x => ⟨x, []⟩ else none) := by
  rw [addFile]
  cases hContains : PathMap.contains g f with
  | true =>
    rw [if_pos rfl]
    cases hSame : f.same p with
    | false => exact (Option.or_none).symm
    | true =>
      obtain ⟨d, hd⟩ := PathMap.contains_iff_get?.1 hContains
      rw [← PathMap.get?_congr g hSame, hd, Option.some_or]
  | false =>
    rw [if_neg (by decide)]
    cases digest? f with
    | none =>
      rw [Option.map_none, ite_self, Option.or_none]
    | some x =>
      dsimp only
      rw [PathMap.get?_insert]
      cases hSame : f.same p with
      | false => exact (Option.or_none).symm
      | true =>
        rw [← PathMap.get?_congr g hSame, PathMap.get?_eq_none_iff.2 hContains]
        rfl

theorem get?_foldl_addFile (digest? : Path → Option Digest) (files : List Path)
    (g : DependentGraph) (p : Path) : PathMap.get? (files.foldl (addFile digest?) g) p =
      (PathMap.get? g p).or (addedAt? digest? files p) := by
  induction files generalizing g with
  | nil => exact (Option.or_none).symm
  | cons f rest ih =>
    rw [List.foldl_cons, ih, get?_addFile, Option.or_assoc, addedAt?, addedAt?,
      List.findSome?_cons]
    cases (if f.same p then (digest? f).map fun x => (⟨x, []⟩ : Dependents) else none) <;> rfl

theorem get?_completed (digest? : Path → Option Digest) (g : DependentGraph) (p : Path) :
    PathMap.get? (completed digest? g) p =
      (PathMap.get? g p).or (addedAt? digest? (g.edges.map (·.1)) p) :=
  get?_foldl_addFile digest? _ g p

theorem addedAt?_eq_some {digest? : Path → Option Digest} {files : List Path} {p : Path}
    {d : Dependents} (h : addedAt? digest? files p = some d) :
    d.files = [] ∧ ∃ f ∈ files, f.same p = true ∧ digest? f = some d.digest := by
  obtain ⟨f, hf, hEntry⟩ := List.exists_of_findSome?_eq_some h
  split at hEntry
  · rename_i hSame
    obtain ⟨x, hx, rfl⟩ := Option.map_eq_some_iff.1 hEntry
    exact ⟨rfl, f, hf, hSame, hx⟩
  · cases hEntry

theorem addedAt?_eq_none {digest? : Path → Option Digest} {files : List Path} {p : Path}
    (h : addedAt? digest? files p = none) {f : Path} (hf : f ∈ files) (hSame : f.same p = true) :
    digest? f = none := by
  have hNone := List.findSome?_eq_none_iff.1 h f hf
  rwa [if_pos hSame, Option.map_eq_none_iff] at hNone

/-- Nothing is added if all files that have digests are keys. -/
theorem completed_eq_self {digest? : Path → Option Digest} {g : DependentGraph}
    (h : ∀ e ∈ g.edges, ∀ x, digest? e.1 = some x → g.contains e.1 = true) :
    completed digest? g = g := by
  have hAdd : ∀ f ∈ g.edges.map (·.1), addFile digest? g f = g := by
    intro f hf
    obtain ⟨e, he, rfl⟩ := List.mem_map.1 hf
    rw [addFile]
    split
    · rfl
    · rename_i hNot
      cases hDigest : digest? e.1 with
      | none => rfl
      | some x => exact absurd (h e he x hDigest) hNot
  rw [completed]
  generalize g.edges.map (·.1) = files at hAdd
  induction files with
  | nil => rfl
  | cons f rest ih =>
    rw [List.foldl_cons, hAdd f List.mem_cons_self]
    exact ih fun f' hf' => hAdd f' (List.mem_cons_of_mem f hf')

end DependentGraph

/-! ## Dependencies, and back -/

namespace DependencyGraph.Inverts

variable {isFile : Path → Bool} {m : Memo} {g : DependencyGraph} {d : DependentGraph}
  (h : Inverts isFile m g d)

include h

/-- The dependencies that come back are the same, in order. -/
theorem targetsAt_forward (file target : Path) :
    target.Among (d.forward.targetsAt file) ↔ target.Among (g.targetsAt file) := by
  rw [← DependencyGraph.links_iff, ← DependencyGraph.links_iff, DependentGraph.links_forward,
    h.links_iff]

/-- A file comes back if it depends on another one or is depended on, or if it is there. -/
theorem contains_forward (p : Path) : d.forward.contains p = true ↔
    (∃ file, p.Among (g.targetsAt file)) ∨ g.targetsAt p ≠ [] ∨
      p.Among (g.keys.filter isFile) := by
  rw [DependentGraph.contains_forward, h.contains_iff_links, ← exists_links_iff_targetsAt]
  simp only [h.links_iff, ← DependencyGraph.links_iff]
  rw [or_assoc, or_comm (a := ∃ target, Links g.edges p target)]

end DependencyGraph.Inverts

/-! ## Dependents, and back -/

/-- The digest that a memo gives of a file that is there. -/
def Memo.digestAt? (isFile : Path → Bool) (read : Path → Except FileError Bytes) (m : Memo)
    (p : Path) : Option Digest :=
  if isFile p then (m.digestFrom read p).2.toOption else none

theorem Memo.digestAt?_eq_some_iff {isFile : Path → Bool} {read : Path → Except FileError Bytes}
    {m : Memo} {p : Path} {d : Digest} : m.digestAt? isFile read p = some d ↔
      isFile p = true ∧ (m.digestFrom read p).2 = .ok d := by
  rw [digestAt?]
  cases isFile p with
  | false => simp
  | true => cases (m.digestFrom read p).2 <;> simp [Except.toOption]

/-- A current memo gives the digests of the files as they are. -/
theorem Memo.Current.digestAt?_eq {t : FileTree} {m : Memo} (hm : m.Current t) {p : Path}
    (hp : t.Plain p) : m.digestAt? t.isFile t.read p = t.digest? p := by
  refine Option.ext fun d => digestAt?_eq_some_iff.trans ?_
  have hAnswer : (m.digestFrom t.read p).2 = .ok d ↔ t.digest? p = some d :=
    digest_eq_ok_iff_of_plain hm hp
  rw [hAnswer]
  exact and_iff_right_of_imp FileTree.isFile_of_digest?

namespace DependentGraph

open DependencyGraph (TurnsInto)

section

variable {isFile : Path → Bool} {read : Path → Except FileError Bytes} {m m' : Memo}
  {g g' : DependentGraph} (hTurns : TurnsInto isFile read m m' g.forward g')

include hTurns

theorem links_iff_of_turnsInto {file target : Path} :
    Links g'.edges file target ↔ Links g.edges file target := by
  rw [hTurns.inverts.links_iff, links_forward]

section

variable (hAlike : OpenAlike isFile read g.named)

include hAlike

/-- A file that occurs in the graph comes back as a key if it is there, with the digest that the
memo gives of it in whatever spelling. -/
theorem exists_get?_of_digestAt? {p q : Path} (h : g.forward.contains p = true) (hq : q ∈ g.named)
    (hSame : q.same p = true) {x : Digest} (hDigest : m.digestAt? isFile read q = some x) :
    ∃ d', g'.get? p = some d' ∧ d'.digest = x := by
  obtain ⟨hFile, hAnswer⟩ := Memo.digestAt?_eq_some_iff.1 hDigest
  obtain ⟨k, hk, hKey⟩ := PathMap.contains_iff.1 h
  have hkNamed : k ∈ g.named := mem_named_of_forward (List.mem_append_left _ hk)
  have hThere : isFile k = true :=
    hAlike.isFile q hq k hkNamed (Path.same_trans hSame (same_symm hKey)) hFile
  have hContains : g'.contains p = true :=
    (hTurns.inverts.contains_iff p).2 (.inr ⟨k, List.mem_filter.2 ⟨hk, hThere⟩, hKey⟩)
  obtain ⟨d', hGet⟩ := PathMap.contains_iff_get?.1 hContains
  exact ⟨d', hGet,
    hTurns.digest_eq hAlike (fun _ => mem_named_of_forward) hGet hq hSame hAnswer⟩

/-- A key comes back with what it was. -/
theorem same_of_get? (hSorted : g.Sorted)
    (hDigests : ∀ k d, (k, d) ∈ g.entries → m.digestAt? isFile read k = some d.digest) {p : Path}
    {d : Dependents} (hGet : g.get? p = some d) : ∃ d', g'.get? p = some d' ∧ d'.Same d := by
  obtain ⟨k, he, hKey⟩ := PathMap.mem_of_get? hGet
  have hForward : g.forward.contains p = true :=
    contains_forward.2 (.inl (PathMap.contains_iff_get?.2 ⟨d, hGet⟩))
  have hk : k ∈ g.named := List.mem_append_left _ (PathMap.mem_keys_iff.2 ⟨d, he⟩)
  obtain ⟨d', hGet', hDigest⟩ :=
    exists_get?_of_digestAt? hTurns hAlike hForward hk hKey (hDigests k d he)
  refine ⟨d', hGet', hDigest, ?_⟩
  rw [← filesAt_of_get? hGet, ← filesAt_of_get? hGet']
  exact Sorted.samePaths_filesAt hTurns.spells.sorted hSorted fun file =>
    links_iff_of_turnsInto hTurns

/-- A file that has a digest and is no key comes back as a key that nothing depends on. -/
theorem same_of_addedAt? {p : Path} (hNone : g.get? p = none) {d : Dependents}
    (hAdded : addedAt? (m.digestAt? isFile read) (g.edges.map (·.1)) p = some d) :
    ∃ d', g'.get? p = some d' ∧ d'.Same d := by
  obtain ⟨hNil, f, hf, hSame, hDigest⟩ := addedAt?_eq_some hAdded
  obtain ⟨e, he, hEq⟩ := List.mem_map.1 hf
  have hForward : g.forward.contains p = true := by
    rw [← hEq] at hSame
    exact contains_forward.2 (.inr ⟨e.2, e, he, hSame, same_self e.2⟩)
  obtain ⟨d', hGet', hDigest'⟩ := exists_get?_of_digestAt? hTurns hAlike hForward
    (List.mem_append_right _ hf) hSame hDigest
  have hNil' : d'.files = [] := by
    refine List.eq_nil_iff_forall_not_mem.2 fun q hq => ?_
    rw [← filesAt_of_get? hGet'] at hq
    have hLink : Links g'.edges q p := links_iff.2 (Path.among_of_mem hq)
    have hContains := contains_of_links ((links_iff_of_turnsInto hTurns).1 hLink)
    rw [PathMap.get?_eq_none_iff.1 hNone] at hContains
    cases hContains
  refine ⟨d', hGet', hDigest', ?_⟩
  rw [hNil, hNil']
  exact .nil

end

variable (hSources : ∀ e ∈ g.edges, isFile e.1 = true → ∃ x, m.digestAt? isFile read e.1 = some x)

include hSources

/-- No other file comes back as a key. -/
theorem get?_eq_none_of_turnsInto {p : Path} (hNone : g.get? p = none)
    (hAdded : addedAt? (m.digestAt? isFile read) (g.edges.map (·.1)) p = none) :
    g'.get? p = none := by
  have hKey : ¬ g.contains p = true := by
    rw [PathMap.get?_eq_none_iff.1 hNone]
    decide
  rw [PathMap.get?_eq_none_iff, ← Bool.not_eq_true, hTurns.inverts.contains_iff_links]
  rintro (⟨file, hLink⟩ | ⟨k, hk, hSame⟩)
  · exact hKey (contains_of_links (links_forward.1 hLink))
  · obtain ⟨hk, hFile⟩ := List.mem_filter.1 hk
    rcases mem_keys_forward hk with hIdle | ⟨target, hEdge⟩
    · exact hKey (PathMap.contains_iff.2 ⟨k, (mem_idle_iff.1 hIdle).1, hSame⟩)
    · obtain ⟨x, hx⟩ := hSources _ hEdge hFile
      rw [addedAt?_eq_none hAdded (List.mem_map_of_mem hEdge) hSame] at hx
      cases hx

/-- The dependents that come back are the same, with a key for every file that has a digest. -/
theorem same_completed (hAlike : OpenAlike isFile read g.named) (hSorted : g.Sorted)
    (hDigests : ∀ k d, (k, d) ∈ g.entries → m.digestAt? isFile read k = some d.digest) :
    g'.Same (completed (m.digestAt? isFile read) g) := by
  refine PathMap.forall₂_entries_of_get? fun p => ?_
  rw [get?_completed]
  cases hGet : PathMap.get? g p with
  | some d =>
    obtain ⟨d', hGet', hSame⟩ := same_of_get? hTurns hAlike hSorted hDigests hGet
    rw [hGet', Option.some_or]
    exact .some hSame
  | none =>
    rw [Option.none_or]
    cases hAdded : addedAt? (m.digestAt? isFile read) (g.edges.map (·.1)) p with
    | some d =>
      obtain ⟨d', hGet', hSame⟩ := same_of_addedAt? hTurns hAlike hGet hAdded
      rw [hGet']
      exact .some hSame
    | none =>
      rw [get?_eq_none_of_turnsInto hTurns hSources hGet hAdded]
      exact .none

end

/-- Dependencies that dependents are turned into can be turned back if a digest can be had of each
key and of each file that is there. -/
theorem exists_dependentsFrom_forward {isFile : Path → Bool}
    {read : Path → Except FileError Bytes} {m : Memo} {g : DependentGraph}
    (hDigests : ∀ k d, (k, d) ∈ g.entries → m.digestAt? isFile read k = some d.digest)
    (hSources : ∀ e ∈ g.edges, isFile e.1 = true → ∃ x, m.digestAt? isFile read e.1 = some x) :
    ∃ m' g', g.forward.dependentsFrom isFile read m = (m', .ok g') := by
  have hKey : ∀ k ∈ g.keys, ∃ x, (m.digestFrom read k).2 = .ok x := by
    intro k hk
    obtain ⟨d, he⟩ := PathMap.mem_keys_iff.1 hk
    exact ⟨_, (Memo.digestAt?_eq_some_iff.1 (hDigests k d he)).2⟩
  refine DependencyGraph.exists_dependentsFrom
    (fun e he => hKey e.2 (mem_keys_of_mem_edges_forward he)) fun k hk hFile => ?_
  rcases mem_keys_forward hk with hIdle | ⟨target, hEdge⟩
  · exact hKey k (mem_idle_iff.1 hIdle).1
  · obtain ⟨x, hx⟩ := hSources _ hEdge hFile
    exact ⟨x, (Memo.digestAt?_eq_some_iff.1 hx).2⟩

end DependentGraph

/-- Each way of turning a graph round undoes the other one. Dependencies that can be turned round
come back as they were, in order, and only files that are gone and have no part in a link are
lost. Dependents that are in order come back as they were, if the keys are files that are there and
their digests are those that the memo gives. Other files that depend on a key come to be keys if
they are there, and then they have to be readable. -/
theorem DependencyGraph.inverse (isFile : Path → Bool) (read : Path → Except FileError Bytes)
    (m : Memo) :
    (∀ (g : DependencyGraph) m' d, g.dependentsFrom isFile read m = (m', .ok d) →
      ∃ g', d.dependencies = .ok g' ∧
        (∀ file target : Path,
          target.Among (g'.targetsAt file) ↔ target.Among (g.targetsAt file)) ∧
        (∀ file targets, g'.get? file = some targets →
          targets.Pairwise fun p q => compare p q = .lt) ∧
        ∀ p, g'.contains p = true ↔
          (∃ file, p.Among (g.targetsAt file)) ∨ g.targetsAt p ≠ [] ∨
            p.Among (g.keys.filter isFile)) ∧
    ∀ d : DependentGraph, d.isNormalized = true → OpenAlike isFile read d.named →
      (∀ k x, (k, x) ∈ d.entries → m.digestAt? isFile read k = some x.digest) →
      (∀ e ∈ d.edges, isFile e.1 = true → ∃ x, m.digestAt? isFile read e.1 = some x) →
      ∃ g m' d', d.dependencies = .ok g ∧ g.dependentsFrom isFile read m = (m', .ok d') ∧
        d'.Same (d.completed (m.digestAt? isFile read)) ∧
        ((∀ e ∈ d.edges, isFile e.1 = true → d.contains e.1 = true) → d'.Same d) := by
  constructor
  · intro g m' d h
    have hTurns := turnsInto_of_dependentsFrom h
    refine ⟨d.forward, d.dependencies_eq, hTurns.inverts.targetsAt_forward,
      fun file targets hGet => ?_, hTurns.inverts.contains_forward⟩
    obtain ⟨rfl, _⟩ := DependentGraph.get?_forward.1 hGet
    exact DependentGraph.Sorted.valuesAt hTurns.spells.sorted file
  · intro d hNormalized hAlike hDigests hSources
    obtain ⟨m', d', h⟩ := DependentGraph.exists_dependentsFrom_forward hDigests hSources
    have hSame := DependentGraph.same_completed (turnsInto_of_dependentsFrom h) hSources hAlike
      (DependentGraph.sorted_of_isNormalized hNormalized) hDigests
    refine ⟨d.forward, m', d', d.dependencies_eq, h, hSame, fun hKeys => ?_⟩
    have hSelf : d.completed (m.digestAt? isFile read) = d :=
      DependentGraph.completed_eq_self fun e he x hx =>
        hKeys e he (Memo.digestAt?_eq_some_iff.1 hx).1
    rwa [hSelf] at hSame

/-! ## A file that is no key -/

namespace Keyless

def file : Path := .ofText "a"

def target : Path := .ofText "b"

/-- Both files are there. -/
def files : FileTree := (FileTree.empty.set [[0x61]] (.file [1])).set [[0x62]] (.file [2])

/-- The one file depends on the other, and only the other is a key. -/
def graph : DependentGraph := PathMap.empty.insert target ⟨.ofSource [2], [file]⟩

/-- The graph comes back with both files as keys, and then its dependencies stay as they are. -/
theorem inverse_graph :
    (graph.completed (Memo.empty.digestAt? files.isFile files.read)).keys = [file, target] ∧
    ∃ g m' d', graph.dependencies = .ok g ∧
      g.dependentsFrom files.isFile files.read .empty = (m', .ok d') ∧
      d'.Same (graph.completed (Memo.empty.digestAt? files.isFile files.read)) ∧
      ∃ g', d'.dependencies = .ok g' ∧
        ∀ p q : Path, q.Among (g'.targetsAt p) ↔ q.Among (g.targetsAt p) := by
  have hEntries : graph.entries = [(target, ⟨.ofSource [2], [file]⟩)] := by decide +kernel
  have hPlain : ∀ p ∈ graph.named, files.Plain p := by
    have hThere : ∀ p ∈ graph.named, files.isFile p = true := by decide +kernel
    exact fun p hp => FileTree.plain_of_isFile (hThere p hp)
  have hAnswer : ∀ p ∈ graph.named,
      Memo.empty.digestAt? files.isFile files.read p = files.digest? p :=
    fun p hp => (Memo.current_empty files).digestAt?_eq (hPlain p hp)
  have hDigests : ∀ k x, (k, x) ∈ graph.entries →
      Memo.empty.digestAt? files.isFile files.read k = some x.digest := by
    intro k x he
    rw [hAnswer k (List.mem_append_left _ (PathMap.mem_keys_iff.2 ⟨x, he⟩))]
    rw [hEntries, List.mem_singleton] at he
    cases he
    rfl
  have hSources : ∀ e ∈ graph.edges, files.isFile e.1 = true →
      ∃ x, Memo.empty.digestAt? files.isFile files.read e.1 = some x := by
    intro e he hFile
    rw [hAnswer e.1 (List.mem_append_right _ (List.mem_map_of_mem he))]
    exact FileTree.digest?_isSome_iff.2 hFile
  obtain ⟨hThere, hBack⟩ := DependencyGraph.inverse files.isFile files.read .empty
  obtain ⟨g, m', d', hForward, hDependents, hSame, -⟩ :=
    hBack graph (by decide +kernel) (openAlike_of_plain hPlain) hDigests hSources
  obtain ⟨g', hForward', hTargets, -⟩ := hThere g m' d' hDependents
  exact ⟨by decide +kernel, g, m', d', hForward, hDependents, hSame, g', hForward', hTargets⟩

end Keyless

end AnalysisCache
