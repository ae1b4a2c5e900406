import AnalysisCache.Dependencies.Basic
import AnalysisCache.Proofs.Path.Map
import Mathlib.Data.List.Destutter

/-!
# Paths in order

Each path of a list once, in increasing order. This is what sorting makes of the list, once each
path is dropped that is the same as the one before it. Only neighbours are compared, but a sorted
list has all spellings of a path next to each other, in the order in which they were.

* `pairwise_sortedPaths`, `among_sortedPaths_iff`: what is listed, and in which order.
* `sortedPaths_eq_destutter`: the list by sorting.
-/

namespace AnalysisCache

theorem mem_of_mem_sortedPaths {ps : List Path} {p : Path} (h : p ∈ sortedPaths ps) : p ∈ ps := by
  have hKey := PathMap.mem_keys_ofList h
  rw [List.map_map] at hKey
  obtain ⟨q, hq, rfl⟩ := List.mem_map.1 hKey
  exact hq

theorem pairwise_sortedPaths (ps : List Path) :
    (sortedPaths ps).Pairwise fun p q => compare p q = .lt := by
  rw [sortedPaths, PathMap.keys, List.pairwise_map]
  exact (PathMap.ofList _).sorted

theorem among_sortedPaths_iff {ps : List Path} {p : Path} :
    p.Among (sortedPaths ps) ↔ p.Among ps := by
  rw [sortedPaths, ← PathMap.contains_iff, PathMap.contains_ofList, List.map_map]
  show p.Among (ps.map fun q => q) ↔ _
  rw [List.map_id']

/-- A path is listed in the spelling that comes first. -/
theorem mem_sortedPaths_iff {ps : List Path} {p : Path} :
    p ∈ sortedPaths ps ↔ ps.find? (·.same p) = some p := by
  rw [sortedPaths, PathMap.mem_keys_ofList_iff, List.map_map]
  show (ps.map fun q => q).find? _ = _ ↔ _
  rw [List.map_id']

/-! ## Sorting -/

/-- The paths in order, those that are the same in the order in which they were. -/
def sorted (ps : List Path) : List Path := ps.mergeSort fun p q => (compare p q).isLE

theorem isLE_total (p q : Path) : ((compare p q).isLE || (compare q p).isLE) = true := by
  rw [Std.OrientedOrd.eq_swap (a := q)]
  cases compare p q <;> rfl

theorem pairwise_sorted (ps : List Path) :
    (sorted ps).Pairwise fun p q => (compare p q).isLE = true :=
  List.pairwise_mergeSort (fun _ _ _ => Std.TransCmp.isLE_trans) isLE_total ps

/-- The spelling that comes first is the same after sorting. -/
theorem find?_sorted (ps : List Path) (p : Path) :
    (sorted ps).find? (·.same p) = ps.find? (·.same p) := by
  have hPairwise : (ps.filter (·.same p)).Pairwise fun q r => (compare q r).isLE = true := by
    rw [List.pairwise_filter]
    refine List.pairwise_of_forall fun q r hq hr => ?_
    rw [Path.compare_eq_iff_same.2 (Path.same_trans hq (Path.same_symm hr))]
    rfl
  have hSublist : (ps.filter (·.same p)).Sublist ((sorted ps).filter (·.same p)) := by
    have h := (List.sublist_mergeSort (fun _ _ _ => Std.TransCmp.isLE_trans) isLE_total
      hPairwise List.filter_sublist).filter (·.same p)
    rwa [List.filter_filter, List.filter_congr fun q _ => Bool.and_self _] at h
  have hPerm : ((sorted ps).filter (·.same p)).Perm (ps.filter (·.same p)) :=
    (List.mergeSort_perm ps _).filter _
  rw [← List.head?_filter, ← List.head?_filter, hSublist.eq_of_length hPerm.length_eq.symm]

section

variable {q r : Path} {rest : List Path}

theorem lt_of_not_same (h : (q :: r :: rest).Pairwise fun p q => (compare p q).isLE = true)
    (hNext : q.same r = false) {p : Path} (hp : p ∈ r :: rest) : compare q p = .lt := by
  rw [List.pairwise_cons, List.pairwise_cons] at h
  obtain ⟨hFirst, hSecond, _⟩ := h
  have hLt : compare q r = .lt := by
    rcases Ordering.isLE_iff_eq_lt_or_eq_eq.1 (hFirst r List.mem_cons_self) with hLt | hEq
    · exact hLt
    · rw [Path.compare_eq_iff_same, hNext] at hEq
      cases hEq
  rcases List.mem_cons.1 hp with rfl | hp
  · exact hLt
  · exact Std.TransCmp.lt_of_lt_of_isLE hLt (hSecond p hp)

/-- Where paths are in order, those stay before which no other spelling comes, and what stays is in
strict order. -/
theorem destutter'_spec (h : (q :: rest).Pairwise fun p q => (compare p q).isLE = true) :
    ((rest.destutter' (fun p q => p.same q = false) q).Pairwise fun p q => compare p q = .lt) ∧
      ∀ p, p ∈ rest.destutter' (fun p q => p.same q = false) q ↔
        (q :: rest).find? (·.same p) = some p := by
  induction rest generalizing q with
  | nil =>
    refine ⟨List.pairwise_singleton _ q, fun p => ?_⟩
    rw [List.destutter'_nil, List.mem_singleton, List.find?_cons, List.find?_nil]
    constructor
    · rintro rfl
      rw [Path.same_self]
    · intro hFind
      cases hSame : q.same p <;> simp_all
  | cons r rest ih =>
    cases hNext : q.same r with
    | true =>
      obtain ⟨hOrder, hMem⟩ := ih (h.sublist ((List.sublist_cons_self r rest).cons_cons q))
      rw [List.destutter'_cons, if_neg (by simp [hNext])]
      refine ⟨hOrder, fun p => ?_⟩
      rw [hMem, List.find?_cons, List.find?_cons, List.find?_cons, Path.same_congr_left hNext]
      cases r.same p <;> rfl
    | false =>
      obtain ⟨hOrder, hMem⟩ := ih (List.pairwise_cons.1 h).2
      rw [List.destutter'_cons, if_pos hNext]
      refine ⟨List.pairwise_cons.2 ⟨fun p hp => ?_, hOrder⟩, fun p => ?_⟩
      · exact lt_of_not_same h hNext ((List.destutter'_sublist _ _ r).subset hp)
      · rw [List.mem_cons, hMem, List.find?_cons (a := q)]
        cases hSame : q.same p with
        | true =>
          rw [Option.some.injEq, eq_comm (a := q)]
          refine or_iff_left fun hFind => ?_
          rw [Path.not_same_of_lt (lt_of_not_same h hNext (List.mem_of_find?_eq_some hFind))]
            at hSame
          cases hSame
        | false =>
          refine or_iff_right ?_
          rintro rfl
          rw [Path.same_self] at hSame
          cases hSame

end

/-- What is listed is what is left of the sorted paths when each one goes that is the same as the
one kept before it. -/
theorem sortedPaths_eq_destutter (ps : List Path) :
    sortedPaths ps = (sorted ps).destutter fun p q => p.same q = false := by
  have hSpec : (((sorted ps).destutter fun p q => p.same q = false).Pairwise
      fun p q => compare p q = .lt) ∧ ∀ p, p ∈ (sorted ps).destutter (fun p q => p.same q = false) ↔
        (sorted ps).find? (·.same p) = some p := by
    have hOrder := pairwise_sorted ps
    cases hSorted : sorted ps with
    | nil => simp
    | cons q rest =>
      rw [hSorted] at hOrder
      exact destutter'_spec hOrder
  refine PathMap.eq_of_pairwise_lt (f := id) (pairwise_sortedPaths ps) hSpec.1 fun p => ?_
  rw [hSpec.2, find?_sorted, mem_sortedPaths_iff]

end AnalysisCache
