import AnalysisCache.Diagnostic.Partition
import AnalysisCache.Proofs.Path.Map

/-!
# The errors of a file

Of the diagnostics of a run, those that count for one file are the errors with a path that names it.
Sorting them file by file keeps them all, and laying the files end to end gives them back.

* `Partition.get?_errors`: what is sorted out for a file.
* `Partition.isUnstable_iff`: which runs are unstable.
* `errorsAt_flatten`: errors kept under their files are the errors of these files.
-/

namespace AnalysisCache

namespace Diagnostic

/-- Whether a diagnostic is an error of the given file. -/
def isErrorOf (d : Diagnostic) (p : Path) : Bool :=
  match d.kind with
  | .file f => f.same p
  | _ => false

theorem isErrorOf_iff {d : Diagnostic} {p : Path} :
    d.isErrorOf p = true ↔ ∃ f, d.kind = .file f ∧ f.same p = true := by
  rw [isErrorOf]
  cases hKind : d.kind with
  | file f => simp
  | _ => simp

/-- An error of a file is an error that names the file. -/
theorem isErrorOf_iff_severity {d : Diagnostic} {p : Path} :
    d.isErrorOf p = true ↔
      d.severity = .error ∧ ∃ f, d.file = some f ∧ f.same p = true := by
  rw [isErrorOf_iff, kind]
  cases d.severity <;> cases d.file <;> simp

theorem isErrorOf_congr (d : Diagnostic) {p q : Path} (h : p.same q = true) :
    d.isErrorOf p = d.isErrorOf q := by
  rw [isErrorOf, isErrorOf]
  cases d.kind with
  | file f => exact Path.same_congr_right h f
  | _ => rfl

/-- An error is one of no other file than its own. -/
theorem isErrorOf_eq_same {d : Diagnostic} {k : Path} (h : d.isErrorOf k = true) (p : Path) :
    d.isErrorOf p = k.same p := by
  obtain ⟨f, hKind, hf⟩ := isErrorOf_iff.1 h
  rw [isErrorOf, hKind]
  exact Path.same_congr_left hf p

end Diagnostic

/-- The errors of a file among some diagnostics, in their order. -/
def errorsAt (ds : List Diagnostic) (p : Path) : List Diagnostic := ds.filter (·.isErrorOf p)

theorem errorsAt_congr (ds : List Diagnostic) {p q : Path} (h : p.same q = true) :
    errorsAt ds p = errorsAt ds q :=
  List.filter_congr fun d _ => d.isErrorOf_congr h

theorem errorsAt_append (ds es : List Diagnostic) (p : Path) :
    errorsAt (ds ++ es) p = errorsAt ds p ++ errorsAt es p := List.filter_append ..

theorem errorsAt_eq_nil {ds : List Diagnostic} {p : Path}
    (h : ∀ d ∈ ds, d.isErrorOf p = false) : errorsAt ds p = [] := by
  rw [errorsAt, List.filter_eq_nil_iff]
  intro d hd hError
  rw [h d hd] at hError
  cases hError

theorem mem_errorsAt {ds : List Diagnostic} {p : Path} {d : Diagnostic} :
    d ∈ errorsAt ds p ↔ d ∈ ds ∧ d.isErrorOf p = true := List.mem_filter

theorem count_filter_kind (ds : List Diagnostic) (d : Diagnostic) (k : Diagnostic.Kind) :
    (ds.filter fun e => e.kind = k).count d = if d.kind = k then ds.count d else 0 := by
  by_cases hKind : d.kind = k
  · rw [if_pos hKind]
    exact List.count_filter (p := fun e : Diagnostic => decide (e.kind = k)) (decide_eq_true hKind)
  · rw [if_neg hKind, List.count_eq_zero]
    intro hd
    exact hKind (of_decide_eq_true (List.mem_filter.1 hd).2)

theorem count_errorsAt (ds : List Diagnostic) {d : Diagnostic} {p : Path}
    (h : d.isErrorOf p = true) : (errorsAt ds p).count d = ds.count d :=
  List.count_filter (p := fun e : Diagnostic => e.isErrorOf p) h

namespace Partition

/-- A diagnostic with the file that it is an error of. -/
def row? (d : Diagnostic) : Option (Path × Diagnostic) :=
  match d.kind with
  | .file f => some (f, d)
  | _ => none

theorem errors_foldl_add (ds : List Diagnostic) (p : Partition) :
    (ds.foldl add p).errors =
      (ds.filterMap row?).foldl (fun m row => m.push row.1 row.2) p.errors := by
  induction ds generalizing p with
  | nil => rfl
  | cons d rest ih =>
    rw [List.foldl_cons, ih, List.filterMap_cons, add, row?]
    cases d.kind <;> rfl

theorem valuesAt_filterMap_row? (ds : List Diagnostic) (p : Path) :
    PathMap.valuesAt p (ds.filterMap row?) = errorsAt ds p := by
  induction ds with
  | nil => rfl
  | cons d rest ih =>
    rw [List.filterMap_cons, errorsAt, List.filter_cons, ← errorsAt, ← ih, Diagnostic.isErrorOf,
      row?]
    cases d.kind with
    | file f => exact PathMap.valuesAt_cons p (f, d) _
    | _ => rfl

theorem get?_errors (ds : List Diagnostic) (p : Path) :
    (ofList ds).errors.get? p = if errorsAt ds p = [] then none else some (errorsAt ds p) := by
  rw [ofList, errors_foldl_add, ← valuesAt_filterMap_row? ds p]
  exact PathMap.get?_collect _ p

theorem getD_errors (ds : List Diagnostic) (p : Path) :
    ((ofList ds).errors.get? p).getD [] = errorsAt ds p := by
  rw [get?_errors]
  split
  · rename_i hNil
    rw [hNil]
    rfl
  · rfl

/-- Neither a warning nor an error of no file is an error of a file. -/
theorem not_isErrorOf {ds : List Diagnostic} {d : Diagnostic}
    (h : d ∈ (ofList ds).warnings ∨ d ∈ (ofList ds).global) (p : Path) : d.isErrorOf p = false := by
  have aux : ∀ (rows : List Diagnostic) (parts : Partition),
      d ∈ (rows.foldl add parts).warnings ∨ d ∈ (rows.foldl add parts).global →
        (∀ e, e ∈ parts.warnings ∨ e ∈ parts.global → e.isErrorOf p = false) →
          d.isErrorOf p = false := by
    intro rows
    induction rows with
    | nil => exact fun parts hd hParts => hParts d hd
    | cons e rest ih =>
      intro parts hd hParts
      refine ih (parts.add e) hd fun x hx => ?_
      rw [add] at hx
      cases hKind : e.kind with
      | file f =>
        rw [hKind] at hx
        exact hParts x hx
      | warning =>
        rw [hKind] at hx
        simp only [List.mem_append, List.mem_singleton] at hx
        rcases hx with (hx | rfl) | hx
        · exact hParts x (.inl hx)
        · rw [Diagnostic.isErrorOf, hKind]
        · exact hParts x (.inr hx)
      | global =>
        rw [hKind] at hx
        simp only [List.mem_append, List.mem_singleton] at hx
        rcases hx with hx | hx | rfl
        · exact hParts x (.inl hx)
        · exact hParts x (.inr hx)
        · rw [Diagnostic.isErrorOf, hKind]
  exact aux ds empty h fun e he => by rcases he with he | he <;> cases he

theorem global_foldl_add (ds : List Diagnostic) (p : Partition) :
    (ds.foldl add p).global = p.global ++ ds.filter fun d => d.kind = .global := by
  induction ds generalizing p with
  | nil => exact (List.append_nil _).symm
  | cons d rest ih =>
    rw [List.foldl_cons, ih, add, List.filter_cons]
    cases d.kind <;> simp

theorem warnings_foldl_add (ds : List Diagnostic) (p : Partition) :
    (ds.foldl add p).warnings = p.warnings ++ ds.filter fun d => d.kind = .warning := by
  induction ds generalizing p with
  | nil => exact (List.append_nil _).symm
  | cons d rest ih =>
    rw [List.foldl_cons, ih, add, List.filter_cons]
    cases d.kind <;> simp

/-- A run is stable exactly if there is nothing to report but errors of single files. -/
theorem isUnstable_iff {ds : List Diagnostic} :
    (ofList ds).isUnstable = true ↔ ∃ d ∈ ds, d.kind = .global ∨ d.kind = .warning := by
  have hGlobal : (ofList ds).global = ds.filter fun d => d.kind = .global :=
    global_foldl_add ds empty
  have hWarnings : (ofList ds).warnings = ds.filter fun d => d.kind = .warning :=
    warnings_foldl_add ds empty
  rw [isUnstable, hGlobal, hWarnings, Bool.or_eq_true, Bool.not_eq_true', Bool.not_eq_true',
    List.isEmpty_eq_false_iff_exists_mem, List.isEmpty_eq_false_iff_exists_mem]
  simp only [List.mem_filter, decide_eq_true_eq, and_or_left, exists_or]

end Partition

/-! ## Errors kept by file -/

namespace ErrorsByFile

/-- Whether all that is kept for a file are errors of that file. -/
def Filed (errors : ErrorsByFile) : Prop :=
  ∀ p ds, errors.get? p = some ds → ∀ d ∈ ds, d.isErrorOf p = true

theorem filed_empty : Filed .empty := fun _ _ h => by cases h

end ErrorsByFile

theorem Partition.filed_errors (ds : List Diagnostic) : (ofList ds).errors.Filed := by
  intro p es h d hd
  rw [get?_errors] at h
  split at h
  · cases h
  · cases h
    exact (mem_errorsAt.1 hd).2

theorem mem_flatten_values {errors : ErrorsByFile} {d : Diagnostic} :
    d ∈ errors.values.flatten ↔ ∃ k ds, errors.get? k = some ds ∧ d ∈ ds := by
  rw [List.mem_flatten]
  constructor
  · rintro ⟨ds, hds, hd⟩
    obtain ⟨⟨k, _⟩, he, rfl⟩ := List.mem_map.1 hds
    exact ⟨k, _, PathMap.get?_of_mem he (Path.same_self k), hd⟩
  · rintro ⟨k, ds, hGet, hd⟩
    obtain ⟨k', he, _⟩ := PathMap.mem_of_get? hGet
    exact ⟨ds, List.mem_map.2 ⟨_, he, rfl⟩, hd⟩

/-- Errors kept under their files are, laid end to end, the errors of these files. -/
theorem errorsAt_flatten {errors : ErrorsByFile} (h : errors.Filed) (p : Path) :
    errorsAt errors.values.flatten p = (errors.get? p).getD [] := by
  have aux : ∀ l : List (Path × List Diagnostic), l.Pairwise (fun x y => x.1.same y.1 = false) →
      (∀ e ∈ l, ∀ d ∈ e.2, d.isErrorOf e.1 = true) →
        errorsAt (l.map (·.2)).flatten p =
          ((l.find? fun e => e.1.same p).map (·.2)).getD [] := by
    intro l
    induction l with
    | nil => exact fun _ _ => rfl
    | cons e rest ih =>
      intro hApart hFiled
      rw [List.pairwise_cons] at hApart
      have hFiledRest : ∀ e ∈ rest, ∀ d ∈ e.2, d.isErrorOf e.1 = true :=
        fun x hx => hFiled x (List.mem_cons_of_mem e hx)
      have hFirst : ∀ d ∈ e.2, d.isErrorOf p = e.1.same p :=
        fun d hd => Diagnostic.isErrorOf_eq_same (hFiled e List.mem_cons_self d hd) p
      rw [List.map_cons, List.flatten_cons, errorsAt_append]
      cases hSame : e.1.same p with
      | true =>
        have hAll : errorsAt e.2 p = e.2 := by
          rw [errorsAt, List.filter_eq_self]
          intro d hd
          rw [hFirst d hd, hSame]
        have hNone : errorsAt (rest.map (·.2)).flatten p = [] := by
          refine errorsAt_eq_nil fun d hd => ?_
          obtain ⟨ds, hds, hd⟩ := List.mem_flatten.1 hd
          obtain ⟨e', he', rfl⟩ := List.mem_map.1 hds
          rw [Diagnostic.isErrorOf_eq_same (hFiledRest e' he' d hd) p, Path.same_comm,
            ← Path.same_congr_left hSame]
          exact hApart.1 e' he'
        simp only [hAll, hNone, List.append_nil, List.find?_cons, hSame, Option.map_some,
          Option.getD_some]
      | false =>
        have hNone : errorsAt e.2 p = [] := errorsAt_eq_nil fun d hd => (hFirst d hd).trans hSame
        simp only [hNone, List.nil_append, ih hApart.2 hFiledRest, List.find?_cons, hSame]
  exact aux errors.entries (errors.sorted.imp fun hLt => Path.not_same_of_lt hLt)
    fun e he => h e.1 e.2 (PathMap.get?_of_mem he (Path.same_self e.1))

end AnalysisCache
