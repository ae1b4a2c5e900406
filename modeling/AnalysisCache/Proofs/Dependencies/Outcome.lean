import AnalysisCache.Proofs.Dependencies.Inverse

/-!
# What turning dependencies round comes to

Dependencies are turned into exactly the inverse relation, or else there is a file that cannot be
read. All that is assumed of the files is that the spellings of one path open the same file: a file
may be there and still not be read, as one without permission is. The memo may know anything.

The order in which dependencies are listed, how often, and in which spelling does not matter for
whether there is a result or for the result, up to the spelling of its paths. But if there are
several files that cannot be read, the error is about the first of them, as they are listed, so that
another order may lead to another error.

* `DependencyGraph.error_iff_blocker?`: which error there is.
* `DependencyGraph.error_iff_blocks`: when there is no result.
* `DependencyGraph.Relists.same`: a graph that lists the same is turned into the same.
* `DependencyGraph.dependentsFrom_outcome`: all that is known of the outcome.
-/

namespace AnalysisCache

open AnalysisCache.Path (same_self same_symm same_trans)

theorem DependentGraph.isNormalized_of_sorted {g : DependentGraph} (h : g.Sorted) :
    g.isNormalized = true := by
  refine List.all_eq_true.2 fun d hd => ?_
  obtain ⟨⟨k, d⟩, he, rfl⟩ := List.mem_map.1 hd
  rw [isIncreasing_iff, ← filesAt_of_get? (PathMap.get?_of_mem he (same_self k))]
  exact h k

namespace DependencyGraph

/-! ## Success and failure -/

/-- Whether a file keeps a graph from being turned round. No digest of it can be had, and it is one
that another file depends on, or else one of the graph that is there. -/
def Blocks (isFile : Path → Bool) (read : Path → Except FileError Bytes) (m : Memo)
    (g : DependencyGraph) (p : Path) : Prop :=
  (p ∈ g.edges.map (·.2) ∨ p ∈ g.independent ∧ isFile p = true) ∧
    ∃ x, (m.digestFrom read p).2 = .error x

/-- The first file that keeps a graph from being turned round. What files depend on comes first, file
by file as it is listed, and then come the files that nothing depends on. -/
def blocker? (isFile : Path → Bool) (read : Path → Except FileError Bytes) (m : Memo)
    (g : DependencyGraph) : Option Path :=
  (g.asked isFile).find? fun p => !(m.digestFrom read p).2.isOk

section

variable {isFile : Path → Bool} {read : Path → Except FileError Bytes} {m m' : Memo}
  {g : DependencyGraph} {d : DependentGraph}

theorem TurnsInto.among_filesAt_iff (h : TurnsInto isFile read m m' g d) {p q : Path} :
    q.Among (d.filesAt p) ↔ p.Among (g.targetsAt q) := by
  rw [← DependentGraph.links_iff, h.inverts.links_iff, links_iff]

theorem TurnsInto.contains_iff (h : TurnsInto isFile read m m' g d) {p : Path} :
    d.contains p = true ↔
      (∃ file, p.Among (g.targetsAt file)) ∨ p.Among (g.keys.filter isFile) := by
  rw [h.inverts.contains_iff_links]
  simp only [links_iff]

theorem exists_error_iff_isOk {x : Except CacheError Digest} :
    (!x.isOk) = true ↔ ∃ e, x = .error e := by
  cases x <;> simp [Except.isOk, Except.toBool]

theorem exists_blocker?_iff :
    (∃ p, g.blocker? isFile read m = some p) ↔ ∃ p, g.Blocks isFile read m p := by
  simp only [← Option.isSome_iff_exists, blocker?, List.find?_isSome, mem_asked_iff, Blocks,
    exists_error_iff_isOk]

theorem blocks_of_blocker? {p : Path} (h : g.blocker? isFile read m = some p) :
    g.Blocks isFile read m p := by
  have hFails := List.find?_some h
  exact ⟨mem_asked_iff.1 (List.mem_of_find?_eq_some h), exists_error_iff_isOk.1 hFails⟩

/-- A file of the graph keeps it from being turned round if it is there and cannot be read, whether
or not another file depends on it. -/
theorem exists_blocks_of_key (hAlike : OpenAlike isFile read g.named) {k : Path} (hk : k ∈ g.keys)
    (hFile : isFile k = true) (hError : ∃ x, (m.digestFrom read k).2 = .error x) :
    ∃ p, g.Blocks isFile read m p := by
  by_cases hIndependent : k ∈ g.independent
  · exact ⟨k, .inr ⟨hIndependent, hFile⟩, hError⟩
  · rw [mem_independent_iff, not_and, not_not] at hIndependent
    obtain ⟨e, he, hSame⟩ := hIndependent hk
    have hTarget := List.mem_map_of_mem (f := (·.2)) he
    exact ⟨e.2, .inl hTarget, hAlike.exists_error (List.mem_append_left _ hk)
      (List.mem_append_right _ hTarget) (same_symm hSame) hError⟩

theorem mem_named_of_mem_asked {p : Path} (h : p ∈ g.asked isFile) : p ∈ g.named := by
  rcases mem_asked_iff.1 h with h | ⟨h, _⟩
  · exact List.mem_append_right _ h
  · exact List.mem_append_left _ (mem_independent_iff.1 h).1

/-- There is an error exactly if there is a file that keeps the graph from being turned round, and it
is about the first such file. -/
theorem error_iff_blocker? (hAlike : OpenAlike isFile read g.named) {x : CacheError} :
    (∃ m', g.dependentsFrom isFile read m = (m', .error x)) ↔
      ∃ p cause, g.blocker? isFile read m = some p ∧ read p = .error cause ∧
        x = .files p cause := by
  have hAnswered : ∀ {ps : List Path}, (∀ p ∈ ps, p ∈ g.named) → Answered read m ps →
      ∀ p ∈ ps, (!(m.digestFrom read p).2.isOk) = false := by
    intro ps hSub hAnswered p hp
    obtain ⟨q, hq, hSame, d, hd⟩ := hAnswered p hp
    rw [Memo.digestFrom_of_same hSame (hAlike.read q (hSub q hq) p (hSub p hp) hSame) hd]
    rfl
  rcases dependentsFrom_cases isFile read m g with
    ⟨m₁, d, hOk, hTurns⟩ | ⟨m₁, y, hError, before, p, after, hSplit, hBefore, hy⟩
  · refine iff_of_false ?_ ?_
    · rintro ⟨m', h⟩
      rw [hOk] at h
      cases h
    · rintro ⟨p, _, hBlocker, _⟩
      have hNot := hAnswered (fun _ => mem_named_of_mem_asked) hTurns.answered p
        (List.mem_of_find?_eq_some hBlocker)
      rw [List.find?_some hBlocker] at hNot
      cases hNot
  · obtain ⟨_, cause, hRead, hForm⟩ := Memo.digestFrom_eq_error_iff.1 hy
    have hNamed : ∀ q ∈ before, q ∈ g.named := by
      intro q hq
      have hAsked : q ∈ g.asked isFile := by
        rw [hSplit]
        exact List.mem_append_left _ hq
      exact mem_named_of_mem_asked hAsked
    have hBlocker : g.blocker? isFile read m = some p := by
      refine List.find?_eq_some_iff_append.2
        ⟨exists_error_iff_isOk.2 ⟨y, hy⟩, before, after, hSplit, fun q hq => ?_⟩
      rw [hAnswered hNamed hBefore q hq]
      rfl
    rw [hBlocker, hError]
    constructor
    · rintro ⟨m', h⟩
      cases h
      exact ⟨p, cause, rfl, hRead, hForm⟩
    · rintro ⟨q, cause', hq, hRead', rfl⟩
      cases hq
      rw [hRead] at hRead'
      cases hRead'
      exact ⟨m₁, by rw [hForm]⟩

theorem error_iff_blocks (hAlike : OpenAlike isFile read g.named) :
    (∃ m' x, g.dependentsFrom isFile read m = (m', .error x)) ↔
      ∃ p, g.Blocks isFile read m p := by
  rw [exists_comm, ← exists_blocker?_iff]
  simp only [error_iff_blocker? hAlike]
  constructor
  · rintro ⟨x, p, _, hBlocker, _⟩
    exact ⟨p, hBlocker⟩
  · rintro ⟨p, hBlocker⟩
    obtain ⟨_, x, hx⟩ := blocks_of_blocker? hBlocker
    obtain ⟨_, cause, hRead, rfl⟩ := Memo.digestFrom_eq_error_iff.1 hx
    exact ⟨_, p, cause, hBlocker, hRead, rfl⟩

end

/-! ## Graphs that list the same -/

/-- Whether two graphs have the same files, each with the same dependencies in whatever order,
number and spelling. -/
structure Relists (g h : DependencyGraph) : Prop where
  contains_iff : ∀ p, g.contains p = true ↔ h.contains p = true
  links_iff : ∀ file target, Links g.edges file target ↔ Links h.edges file target

namespace Relists

variable {g h : DependencyGraph} (hLists : g.Relists h)

include hLists

theorem symm : h.Relists g :=
  ⟨fun p => (hLists.contains_iff p).symm, fun file target => (hLists.links_iff file target).symm⟩

theorem exists_edge {e : Path × Path} (he : e ∈ g.edges) :
    ∃ e' ∈ h.edges, e'.2.same e.2 = true := by
  obtain ⟨e', he', _, hTarget⟩ :=
    (hLists.links_iff e.1 e.2).1 ⟨e, he, same_self e.1, same_self e.2⟩
  exact ⟨e', he', hTarget⟩

theorem exists_key {k : Path} (hk : k ∈ g.keys) : ∃ k' ∈ h.keys, k'.same k = true :=
  PathMap.contains_iff.1 ((hLists.contains_iff k).1 (PathMap.contains_iff.2 (Path.among_of_mem hk)))

theorem exists_independent {f : Path} (hf : f ∈ g.independent) :
    ∃ f' ∈ h.independent, f'.same f = true := by
  obtain ⟨hKey, hNone⟩ := mem_independent_iff.1 hf
  obtain ⟨f', hf', hSame⟩ := hLists.exists_key hKey
  refine ⟨f', mem_independent_iff.2 ⟨hf', ?_⟩, hSame⟩
  rintro ⟨e, he, hTarget⟩
  obtain ⟨e', he', hTarget'⟩ := hLists.symm.exists_edge he
  exact hNone ⟨e', he', same_trans hTarget' (same_trans hTarget hSame)⟩

variable {isFile : Path → Bool} {read : Path → Except FileError Bytes}
  (hAlike : OpenAlike isFile read (g.named ++ h.named))

include hAlike

theorem among_filter_isFile {p : Path} (hp : p.Among (g.keys.filter isFile)) :
    p.Among (h.keys.filter isFile) := by
  obtain ⟨k, hk, hSame⟩ := hp
  obtain ⟨hk, hFile⟩ := List.mem_filter.1 hk
  obtain ⟨k', hk', hKey⟩ := hLists.exists_key hk
  have hNamed : k ∈ g.named ++ h.named := List.mem_append_left _ (List.mem_append_left _ hk)
  have hNamed' : k' ∈ g.named ++ h.named := List.mem_append_right _ (List.mem_append_left _ hk')
  exact ⟨k', List.mem_filter.2 ⟨hk', hAlike.isFile k hNamed k' hNamed' (same_symm hKey) hFile⟩,
    same_trans hKey hSame⟩

/-- What keeps one graph from being turned round keeps the other one from it. -/
theorem blocks {m : Memo} {p : Path} (hBlocks : g.Blocks isFile read m p) :
    ∃ q, q.same p = true ∧ h.Blocks isFile read m q := by
  obtain ⟨hp | ⟨hp, hFile⟩, hError⟩ := hBlocks
  · obtain ⟨e, he, rfl⟩ := List.mem_map.1 hp
    obtain ⟨e', he', hSame⟩ := hLists.exists_edge he
    have hp' := List.mem_map_of_mem (f := (·.2)) he'
    refine ⟨e'.2, hSame, .inl hp', hAlike.exists_error ?_ ?_ (same_symm hSame) hError⟩
    · exact List.mem_append_left _ (List.mem_append_right _ hp)
    · exact List.mem_append_right _ (List.mem_append_right _ hp')
  · obtain ⟨f, hf, hSame⟩ := hLists.exists_independent hp
    have hNamed : p ∈ g.named ++ h.named :=
      List.mem_append_left _ (List.mem_append_left _ (mem_independent_iff.1 hp).1)
    have hNamed' : f ∈ g.named ++ h.named :=
      List.mem_append_right _ (List.mem_append_left _ (mem_independent_iff.1 hf).1)
    have hBack := same_symm hSame
    exact ⟨f, hSame, .inr ⟨hf, hAlike.isFile p hNamed f hNamed' hBack hFile⟩,
      hAlike.exists_error hNamed hNamed' hBack hError⟩

/-- Graphs that list the same are turned into the same. -/
theorem same {m m₁ m₂ : Memo} {d d' : DependentGraph}
    (hd : g.dependentsFrom isFile read m = (m₁, .ok d))
    (hd' : h.dependentsFrom isFile read m = (m₂, .ok d')) : d.Same d' := by
  have hTurns := turnsInto_of_dependentsFrom hd
  have hTurns' := turnsInto_of_dependentsFrom hd'
  have hSwapped : OpenAlike isFile read (h.named ++ g.named) :=
    hAlike.mono fun q hq => List.mem_append.2 (List.mem_append.1 hq).symm
  have hLinks : ∀ file target, Links d.edges file target ↔ Links d'.edges file target := by
    intro file target
    rw [hTurns.inverts.links_iff, hTurns'.inverts.links_iff, hLists.links_iff]
  have hContains : ∀ p, d.contains p = true ↔ d'.contains p = true := by
    intro p
    rw [hTurns.inverts.contains_iff_links, hTurns'.inverts.contains_iff_links]
    simp only [hLists.links_iff]
    exact or_congr_right
      ⟨hLists.among_filter_isFile hAlike, hLists.symm.among_filter_isFile hSwapped⟩
  refine PathMap.forall₂_entries_of_get? fun p => ?_
  cases hGet : PathMap.get? d p with
  | none =>
    have hNot : ¬ d'.contains p = true := by
      rw [← hContains, PathMap.contains_iff_get?, hGet]
      rintro ⟨_, ⟨⟩⟩
    rw [PathMap.get?_eq_none_iff.2 (Bool.eq_false_iff.2 hNot)]
    exact .none
  | some x =>
    obtain ⟨x', hGet'⟩ :=
      PathMap.contains_iff_get?.1 ((hContains p).1 (PathMap.contains_iff_get?.2 ⟨x, hGet⟩))
    rw [hGet']
    refine .some ⟨?_, ?_⟩
    · obtain ⟨k, hk, hSame⟩ := PathMap.mem_of_get? hGet
      obtain ⟨k', hk', hSame'⟩ := PathMap.mem_of_get? hGet'
      have hDigest := hTurns.digestFrom_eq (hAlike.mono fun _ => List.mem_append_left _) hk
      have hDigest' := hTurns'.digestFrom_eq (hAlike.mono fun _ => List.mem_append_right _) hk'
      have hKeys : k.same k' = true := same_trans hSame (same_symm hSame')
      have hNamed : k ∈ g.named := hTurns.inverts.mem_named (PathMap.mem_keys_iff.2 ⟨x, hk⟩)
      have hNamed' : k' ∈ h.named := hTurns'.inverts.mem_named (PathMap.mem_keys_iff.2 ⟨x', hk'⟩)
      rw [Memo.digestFrom_of_same hKeys (hAlike.read k (List.mem_append_left _ hNamed) k'
        (List.mem_append_right _ hNamed') hKeys) hDigest] at hDigest'
      exact Except.ok.inj hDigest'
    · rw [← DependentGraph.filesAt_of_get? hGet, ← DependentGraph.filesAt_of_get? hGet']
      exact DependentGraph.Sorted.samePaths_filesAt hTurns.spells.sorted hTurns'.spells.sorted
        fun file => hLinks file p

end Relists

/-- Whether some rows list the files of a graph, each once and with its dependencies in whatever
order, number and spelling. -/
structure ListedBy (g : DependencyGraph) (rows : List (Path × List Path)) : Prop where
  apart : rows.Pairwise fun x y => x.1.same y.1 = false
  contains_iff : ∀ p : Path, g.contains p = true ↔ p.Among (rows.map (·.1))
  targets : ∀ row ∈ rows, ∀ p : Path, p.Among row.2 ↔ p.Among (g.targetsAt row.1)

theorem ListedBy.relists {g : DependencyGraph} {rows : List (Path × List Path)}
    (h : g.ListedBy rows) : g.Relists (PathMap.ofList rows) := by
  refine ⟨fun p => by rw [h.contains_iff, PathMap.contains_ofList], fun file target => ?_⟩
  rw [links_iff, links_iff]
  cases hGet : PathMap.get? (PathMap.ofList rows) file with
  | none =>
    have hNone : PathMap.get? g file = none := by
      rw [PathMap.get?_eq_none_iff, ← Bool.not_eq_true, h.contains_iff, ← PathMap.contains_ofList,
        PathMap.get?_eq_none_iff.1 hGet]
      decide
    rw [targetsAt, targetsAt, hNone, hGet]
  | some targets =>
    obtain ⟨k, hk, hSame⟩ := PathMap.mem_of_get? hGet
    have hRow : (k, targets) ∈ rows := (PathMap.perm_ofList h.apart).mem_iff.1 hk
    have hTargets : g.targetsAt file = g.targetsAt k := by
      rw [targetsAt, targetsAt, PathMap.get?_congr g hSame]
    have hListed : targetsAt (PathMap.ofList rows) file = targets := by
      rw [targetsAt, hGet]
      rfl
    rw [hTargets, hListed]
    exact (h.targets _ hRow target).symm

/-! ## The outcome -/

/-- Turning dependencies round fails exactly if there is a file that keeps it from succeeding, and
then for the reason that the first such file cannot be read. Otherwise the keys are what files depend
on and the files that are there, each with the digest that the memo gives it, and with the files that
depend on it in order.

If the graph is made of rows that list it in another way, the same files keep it from being turned
round, and if there are none, it is turned into the same. If there are, the error is the same unless
another one of them comes first. The order of the rows alone does not bear on anything. -/
theorem dependentsFrom_outcome {isFile : Path → Bool} {read : Path → Except FileError Bytes}
    (m : Memo) {g : DependencyGraph} (hAlike : OpenAlike isFile read g.named) :
    ((∃ m' x, g.dependentsFrom isFile read m = (m', .error x)) ↔
      ∃ p, g.Blocks isFile read m p) ∧
    (∀ m' x, g.dependentsFrom isFile read m = (m', .error x) →
      ∃ p cause, g.blocker? isFile read m = some p ∧ g.Blocks isFile read m p ∧
        read p = .error cause ∧ x = .files p cause) ∧
    (∀ m' d, g.dependentsFrom isFile read m = (m', .ok d) →
      (∀ p, d.contains p = true ↔
        (∃ file, p.Among (g.targetsAt file)) ∨ p.Among (g.keys.filter isFile)) ∧
      (∀ k x, (k, x) ∈ d.entries → (m.digestFrom read k).2 = .ok x.digest ∧
        m'.digestFrom read k = (m', .ok x.digest)) ∧
      (∀ p q : Path, q.Among (d.filesAt p) ↔ p.Among (g.targetsAt q)) ∧
      d.isNormalized = true) ∧
    ∀ rows, g.ListedBy rows →
      OpenAlike isFile read (g.named ++ DependencyGraph.named (PathMap.ofList rows)) →
      ((∃ m' x, g.dependentsFrom isFile read m = (m', .error x)) ↔
        ∃ m' x, dependentsFrom isFile read m (PathMap.ofList rows) = (m', .error x)) ∧
      (∀ p, (∃ q, q.same p = true ∧ g.Blocks isFile read m q) ↔
        ∃ q, q.same p = true ∧ Blocks isFile read m (PathMap.ofList rows) q) ∧
      (g.blocker? isFile read m = blocker? isFile read m (PathMap.ofList rows) → ∀ x,
        (∃ m', g.dependentsFrom isFile read m = (m', .error x)) ↔
          ∃ m', dependentsFrom isFile read m (PathMap.ofList rows) = (m', .error x)) ∧
      (∀ m₁ m₂ d d', g.dependentsFrom isFile read m = (m₁, .ok d) →
        dependentsFrom isFile read m (PathMap.ofList rows) = (m₂, .ok d') → d.Same d') ∧
      (rows.Perm g.entries →
        dependentsFrom isFile read m (PathMap.ofList rows) = g.dependentsFrom isFile read m) := by
  refine ⟨error_iff_blocks hAlike, fun m' x h => ?_, fun m' d h => ?_, fun rows hRows hBoth => ?_⟩
  · obtain ⟨p, cause, hBlocker, hRest⟩ := (error_iff_blocker? hAlike).1 ⟨m', h⟩
    exact ⟨p, cause, hBlocker, blocks_of_blocker? hBlocker, hRest⟩
  · have hTurns := turnsInto_of_dependentsFrom h
    refine ⟨fun p => hTurns.contains_iff, fun k x hx => ⟨hTurns.digestFrom_eq hAlike hx, ?_⟩,
      fun p q => hTurns.among_filesAt_iff,
      DependentGraph.isNormalized_of_sorted hTurns.spells.sorted⟩
    exact Memo.digestFrom_of_known (hTurns.inverts.dated k x (PathMap.get?_of_mem hx (same_self k)))
  · have hLists := hRows.relists
    have hSwapped := hBoth.mono fun q hq => List.mem_append.2 (List.mem_append.1 hq).symm
    have hThere := hBoth.mono fun q hq => List.mem_append_right _ hq
    have hBlocks : ∀ p, (∃ q, q.same p = true ∧ g.Blocks isFile read m q) ↔
        ∃ q, q.same p = true ∧ Blocks isFile read m (PathMap.ofList rows) q := by
      intro p
      constructor
      · rintro ⟨q, hSame, hq⟩
        obtain ⟨q', hSame', hq'⟩ := hLists.blocks hBoth hq
        exact ⟨q', same_trans hSame' hSame, hq'⟩
      · rintro ⟨q, hSame, hq⟩
        obtain ⟨q', hSame', hq'⟩ := hLists.symm.blocks hSwapped hq
        exact ⟨q', same_trans hSame' hSame, hq'⟩
    refine ⟨?_, hBlocks, fun hBlocker x => ?_,
      fun m₁ m₂ d d' hd hd' => hLists.same hBoth hd hd',
      fun hPerm => by rw [PathMap.ofList_of_perm hPerm]⟩
    · rw [error_iff_blocks hAlike, error_iff_blocks hThere]
      constructor
      · rintro ⟨p, hp⟩
        obtain ⟨q, _, hq⟩ := (hBlocks p).1 ⟨p, same_self p, hp⟩
        exact ⟨q, hq⟩
      · rintro ⟨p, hp⟩
        obtain ⟨q, _, hq⟩ := (hBlocks p).2 ⟨p, same_self p, hp⟩
        exact ⟨q, hq⟩
    · rw [error_iff_blocker? hAlike, error_iff_blocker? hThere, hBlocker]

/-! ## A file that depends on itself -/

namespace Loop

def file : Path := .ofText "a"

def target : Path := .ofText "d/b"

def target' : Path := .ofText "d//b"

/-- A file that is gone. -/
def gone : Path := .ofText "e"

def files : FileTree :=
  ((FileTree.empty.set [[0x61]] (.file [1])).set [[0x64]] .directory).set [[0x64], [0x62]]
    (.file [2])

def graph : DependencyGraph :=
  (PathMap.empty.insert file [file, target, target', file]).insert gone [target]

def rows : List (Path × List Path) := [(gone, [target']), (file, [target', file])]

def inverse : DependentGraph :=
  (PathMap.empty.insert file ⟨.ofSource [1], [file]⟩).insert target ⟨.ofSource [2], [file, gone]⟩

theorem openAlike : OpenAlike files.isFile files.read
    (graph.named ++ DependencyGraph.named (PathMap.ofList rows)) := by
  have hAddressable : ∀ p ∈ graph.named ++ DependencyGraph.named (PathMap.ofList rows),
      FileTree.Addressable p := by decide +kernel
  exact openAlike_of_plain fun p hp => FileTree.plain_of_addressable (hAddressable p hp)

theorem listedBy : graph.ListedBy rows where
  apart := by decide +kernel
  contains_iff p := by
    have hKeys : PathMap.keys graph = [file, gone] := by decide +kernel
    rw [PathMap.contains_iff, hKeys]
    simp [rows, Path.among_cons_iff, or_comm]
  targets := by
    have hFile : graph.targetsAt file = [file, target, target', file] := by decide +kernel
    have hGone : graph.targetsAt gone = [target] := by decide +kernel
    have hSame : ∀ p, target'.same p = target.same p := Path.same_congr_left (by decide +kernel)
    intro row hRow p
    simp only [rows, List.mem_cons, List.not_mem_nil, or_false] at hRow
    rcases hRow with rfl | rfl
    · rw [hGone]
      simp [Path.among_cons_iff, hSame]
    · rw [hFile]
      simp only [Path.among_cons_iff, Path.not_among_nil, hSame]
      tauto

/-- As `files`, but the file that is gone is there, and still cannot be read. -/
def isFile (p : Path) : Bool := files.isFile p || p.same gone

/-- The graph and the rows are turned into the same, and into nothing if there is a file that cannot
be read, although nothing depends on it. The error is about that file. -/
theorem dependentsFrom_outcome_loop :
    OpenAlike files.isFile files.read graph.named ∧ graph.ListedBy rows ∧
      (graph.dependentsFrom files.isFile files.read .empty).2 = .ok inverse ∧
      inverse.isNormalized = true ∧
      (∃ d, (dependentsFrom files.isFile files.read .empty (PathMap.ofList rows)).2 = .ok d ∧
        inverse.Same d) ∧
      OpenAlike isFile files.read graph.named ∧
      ∃ m, graph.dependentsFrom isFile files.read .empty = (m, .error (.files gone .notFound)) := by
  have hAlike : OpenAlike files.isFile files.read graph.named :=
    openAlike.mono fun _ => List.mem_append_left _
  have hOk : (graph.dependentsFrom files.isFile files.read .empty).2 = .ok inverse := by
    decide +kernel
  have hSealed : OpenAlike isFile files.read graph.named := ⟨by decide +kernel, hAlike.read⟩
  obtain ⟨-, -, hSuccess, hRows⟩ := dependentsFrom_outcome .empty hAlike
  obtain ⟨-, -, -, hNormalized⟩ := hSuccess _ inverse (Prod.ext rfl hOk)
  obtain ⟨hFails, -, -, hSame, -⟩ := hRows rows listedBy openAlike
  refine ⟨hAlike, listedBy, hOk, hNormalized, ?_, hSealed, ?_⟩
  · cases hBoth : dependentsFrom files.isFile files.read .empty (PathMap.ofList rows) with
    | mk m outcome =>
    cases outcome with
    | error x =>
      obtain ⟨m', y, hError⟩ := hFails.2 ⟨m, x, hBoth⟩
      rw [hError] at hOk
      cases hOk
    | ok d => exact ⟨d, rfl, hSame _ m inverse d (Prod.ext rfl hOk) hBoth⟩
  · obtain ⟨hIff, hFirst, -, -⟩ := dependentsFrom_outcome .empty hSealed
    have hBlocks : graph.Blocks isFile files.read .empty gone :=
      ⟨.inr ⟨by decide +kernel, by decide +kernel⟩, .files gone .notFound, by decide +kernel⟩
    obtain ⟨m, x, hError⟩ := hIff.2 ⟨gone, hBlocks⟩
    obtain ⟨p, cause, hBlocker, -, hRead, rfl⟩ := hFirst m x hError
    have hGone : graph.blocker? isFile files.read .empty = some gone := by decide +kernel
    obtain rfl : gone = p := Option.some.inj (hGone.symm.trans hBlocker)
    obtain rfl : FileError.notFound = cause :=
      Except.error.inj ((show files.read gone = .error .notFound by decide +kernel).symm.trans hRead)
    exact ⟨m, hError⟩

/-- Another file that is gone. -/
def lost : Path := .ofText "f"

/-- Of two files that are gone, the error is about the one that is listed first. -/
theorem dependentsFrom_swapped :
    OpenAlike files.isFile files.read
        (DependencyGraph.named (PathMap.empty.insert file [gone, lost]) ++
          DependencyGraph.named (PathMap.ofList [(file, [lost, gone])])) ∧
      [gone, lost].Perm [lost, gone] ∧
      (dependentsFrom files.isFile files.read .empty (PathMap.empty.insert file [gone, lost])).2 =
        .error (.files gone .notFound) ∧
      (dependentsFrom files.isFile files.read .empty (PathMap.ofList [(file, [lost, gone])])).2 =
        .error (.files lost .notFound) ∧
      gone.same lost = false := by
  refine ⟨openAlike_of_plain fun p hp => FileTree.plain_of_addressable ?_, .swap lost gone [],
    by decide +kernel, by decide +kernel, by decide +kernel⟩
  have hAddressable : ∀ p ∈ DependencyGraph.named (PathMap.empty.insert file [gone, lost]) ++
      DependencyGraph.named (PathMap.ofList [(file, [lost, gone])]), FileTree.Addressable p := by
    decide +kernel
  exact hAddressable p hp

end Loop

end DependencyGraph

end AnalysisCache
