import AnalysisCache.Proofs.Diagnostic.Partition

/-!
# The parts of a run

Every diagnostic of a run falls into just one part: it is a warning, an error of no file, or an
error of the file that it names. Each part keeps the order of the run, and nothing is left out or
doubled. What is sorted and laid end to end is sorted the same way again, down to how the files are
spelled, since a file is spelled as in its first error.

* `Partition.mem_keys_errors`: how the files are spelled.
* `Partition.perm_toList`: all parts together are the run in another order.
* `Partition.ofList_splits`: what is in each part.
-/

namespace AnalysisCache

namespace Diagnostic

theorem kind_eq_warning_iff {d : Diagnostic} : d.kind = .warning ↔ d.severity = .warning := by
  rw [kind]
  cases d.severity <;> cases d.file <;> simp

theorem kind_eq_global_iff {d : Diagnostic} :
    d.kind = .global ↔ d.severity = .error ∧ d.file = none := by
  rw [kind]
  cases d.severity <;> cases d.file <;> simp

theorem isErrorOf_of_kind_eq_file {d : Diagnostic} {f : Path} (h : d.kind = .file f) :
    d.isErrorOf f = true := isErrorOf_iff.2 ⟨f, h, Path.same_self f⟩

theorem isErrorOf_eq_false {d : Diagnostic} {k : Kind} (h : d.kind = k) (hk : ∀ f, k ≠ .file f)
    (p : Path) : d.isErrorOf p = false := by
  rw [← Bool.not_eq_true, isErrorOf_iff]
  rintro ⟨f, hFile, _⟩
  exact hk f (h.symm.trans hFile)

end Diagnostic

namespace Partition

variable (ds : List Diagnostic)

/-- All parts laid end to end, the errors in the order of their files. -/
def toList (p : Partition) : List Diagnostic := p.errors.values.flatten ++ p.warnings ++ p.global

theorem eq_of_parts {p q : Partition} (hGlobal : p.global = q.global)
    (hErrors : p.errors = q.errors)
    (hWarnings : p.warnings = q.warnings) : p = q := by
  obtain ⟨_, _, _⟩ := p
  obtain ⟨_, _, _⟩ := q
  cases hGlobal
  cases hErrors
  cases hWarnings
  rfl

theorem warnings_ofList : (ofList ds).warnings = ds.filter fun d => d.kind = .warning :=
  warnings_foldl_add ds empty

theorem global_ofList : (ofList ds).global = ds.filter fun d => d.kind = .global :=
  global_foldl_add ds empty

/-! ## Errors laid end to end -/

theorem errorsAt_flatten_errors (p : Path) :
    errorsAt (ofList ds).errors.values.flatten p = errorsAt ds p := by
  rw [errorsAt_flatten (filed_errors ds), getD_errors]

theorem exists_file_of_mem_flatten {d : Diagnostic}
    (h : d ∈ (ofList ds).errors.values.flatten) : ∃ f, d.kind = .file f := by
  obtain ⟨k, es, hGet, hd⟩ := mem_flatten_values.1 h
  obtain ⟨f, hKind, _⟩ := Diagnostic.isErrorOf_iff.1 (filed_errors ds k es hGet d hd)
  exact ⟨f, hKind⟩

theorem errorsAt_toList (p : Path) : errorsAt (ofList ds).toList p = errorsAt ds p := by
  have hWarnings : errorsAt (ofList ds).warnings p = [] :=
    errorsAt_eq_nil fun d hd => not_isErrorOf (.inl hd) p
  have hGlobal : errorsAt (ofList ds).global p = [] :=
    errorsAt_eq_nil fun d hd => not_isErrorOf (.inr hd) p
  rw [toList, errorsAt_append, errorsAt_append, errorsAt_flatten_errors, hWarnings, hGlobal,
    List.append_nil, List.append_nil]

/-- A kind that is that of no file is not among the errors of files. -/
theorem filter_flatten_errors {k : Diagnostic.Kind} (hk : ∀ f, k ≠ .file f) :
    ((ofList ds).errors.values.flatten.filter fun d => d.kind = k) = [] := by
  rw [List.filter_eq_nil_iff]
  intro d hd hKind
  obtain ⟨f, hFile⟩ := exists_file_of_mem_flatten ds hd
  exact hk f ((of_decide_eq_true hKind).symm.trans hFile)

theorem filter_filter_kind (k l : Diagnostic.Kind) :
    ((ds.filter fun d => d.kind = l).filter fun d => d.kind = k) =
      if l = k then ds.filter fun d => d.kind = k else [] := by
  by_cases h : l = k
  · rw [if_pos h, h, List.filter_filter]
    simp
  · rw [if_neg h, List.filter_eq_nil_iff]
    intro d hd hKind
    have hOther := of_decide_eq_true (List.mem_filter.1 hd).2
    exact h (hOther.symm.trans (of_decide_eq_true hKind))

theorem filter_toList {k : Diagnostic.Kind} (hk : ∀ f, k ≠ .file f) :
    ((ofList ds).toList.filter fun d => d.kind = k) = ds.filter fun d => d.kind = k := by
  rw [toList, List.filter_append, List.filter_append, filter_flatten_errors ds hk, warnings_ofList,
    global_ofList, filter_filter_kind, filter_filter_kind]
  cases k with
  | file f => exact absurd rfl (hk f)
  | warning => simp
  | global => simp

/-! ## Nothing is left out or doubled -/

theorem count_flatten_errors (d : Diagnostic) : (ofList ds).errors.values.flatten.count d =
    match d.kind with
    | .file _ => ds.count d
    | _ => 0 := by
  have hNone : (∀ f, d.kind ≠ .file f) → (ofList ds).errors.values.flatten.count d = 0 := by
    intro hKind
    rw [List.count_eq_zero]
    intro hd
    obtain ⟨f, hFile⟩ := exists_file_of_mem_flatten ds hd
    exact hKind f hFile
  cases hKind : d.kind with
  | file f =>
    have hError := Diagnostic.isErrorOf_of_kind_eq_file hKind
    rw [← count_errorsAt _ hError, errorsAt_flatten_errors, count_errorsAt _ hError]
  | warning => exact hNone fun f => by rw [hKind]; exact Diagnostic.Kind.noConfusion
  | global => exact hNone fun f => by rw [hKind]; exact Diagnostic.Kind.noConfusion

theorem perm_toList : (ofList ds).toList.Perm ds := by
  rw [List.perm_iff_count]
  intro d
  rw [toList, List.count_append, List.count_append, count_flatten_errors, warnings_ofList,
    global_ofList, count_filter_kind, count_filter_kind]
  cases d.kind <;> simp

/-! ## Sorting again -/

/-- The file of an error, as it is spelled there. -/
theorem find?_filterMap_row? (k : Path) : ((ds.filterMap row?).map (·.1)).find? (·.same k) =
    (errorsAt ds k).head?.bind Diagnostic.file := by
  induction ds with
  | nil => rfl
  | cons d rest ih =>
    rw [errorsAt, List.filter_cons, ← errorsAt, List.filterMap_cons, row?]
    cases hKind : d.kind with
    | file f =>
      have hFile : d.file = some f := by
        rw [Diagnostic.kind] at hKind
        split at hKind
        · cases hKind
        · rename_i hFile
          cases hKind
          exact hFile
        · cases hKind
      rw [Diagnostic.isErrorOf, hKind]
      dsimp only
      by_cases hSame : f.same k = true
      · rw [List.map_cons, List.find?_cons_of_pos (by exact hSame), if_pos hSame]
        exact hFile.symm
      · rw [List.map_cons, List.find?_cons_of_neg (by exact hSame), if_neg hSame]
        exact ih
    | warning =>
      rw [Diagnostic.isErrorOf_eq_false hKind (fun _ => Diagnostic.Kind.noConfusion)]
      exact ih
    | global =>
      rw [Diagnostic.isErrorOf_eq_false hKind (fun _ => Diagnostic.Kind.noConfusion)]
      exact ih

/-- A file is spelled as in its first error. -/
theorem mem_keys_errors {k : Path} :
    k ∈ (ofList ds).errors.keys ↔ (errorsAt ds k).head?.bind Diagnostic.file = some k := by
  rw [ofList, errors_foldl_add, ← find?_filterMap_row?]
  exact PathMap.mem_keys_collect_iff

theorem ofList_toList : ofList (ofList ds).toList = ofList ds := by
  have hErrors : (ofList (ofList ds).toList).errors = (ofList ds).errors := by
    refine PathMap.eq_of_get? (fun k => ?_) fun k _ => ?_
    · rw [mem_keys_errors, mem_keys_errors, errorsAt_toList]
    · rw [get?_errors, get?_errors, errorsAt_toList]
  have hWarnings : (ofList (ofList ds).toList).warnings = (ofList ds).warnings := by
    rw [warnings_ofList, filter_toList ds fun _ => Diagnostic.Kind.noConfusion, warnings_ofList]
  have hGlobal : (ofList (ofList ds).toList).global = (ofList ds).global := by
    rw [global_ofList, filter_toList ds fun _ => Diagnostic.Kind.noConfusion, global_ofList]
  exact eq_of_parts hGlobal hErrors hWarnings

theorem contains_errors_iff {p : Path} :
    (ofList ds).errors.contains p = true ↔ ∃ d ∈ ds, d.isErrorOf p = true := by
  rw [PathMap.contains_eq_isSome, get?_errors]
  split
  · rename_i hNil
    rw [errorsAt, List.filter_eq_nil_iff] at hNil
    simpa using hNil
  · rename_i hSome
    obtain ⟨d, hd⟩ := List.exists_mem_of_ne_nil _ hSome
    exact iff_of_true rfl ⟨d, mem_errorsAt.1 hd⟩

/-- The warnings are the diagnostics that are warnings, the errors of no file are those that name
none, and the files with errors are those that errors name, each with the errors that name it, all
in the order of the run. Together they are the run in another order, and sorting them again changes
nothing. The run is unstable exactly if there is anything in it but errors that name files. -/
theorem ofList_splits :
    (ofList ds).warnings = ds.filter (fun d => d.severity = .warning) ∧
    (ofList ds).global = ds.filter (fun d => d.severity = .error ∧ d.file = none) ∧
    (∀ p, (ofList ds).errors.contains p = true ↔
      ∃ d ∈ ds, d.severity = .error ∧ ∃ f, d.file = some f ∧ f.same p = true) ∧
    (∀ p es, (ofList ds).errors.get? p = some es ↔ es ≠ [] ∧
      es = ds.filter fun d => d.severity = .error ∧ d.file.any (·.same p) = true) ∧
    (ofList ds).toList.Perm ds ∧
    ofList (ofList ds).toList = ofList ds ∧
    ((ofList ds).isUnstable = true ↔
      ∃ d ∈ ds, ¬ (d.severity = .error ∧ d.file.isSome = true)) := by
  refine ⟨?_, ?_, fun p => ?_, fun p es => ?_, perm_toList ds, ofList_toList ds, ?_⟩
  · rw [warnings_ofList]
    simp only [Diagnostic.kind_eq_warning_iff]
  · rw [global_ofList]
    simp only [Diagnostic.kind_eq_global_iff]
  · simp only [contains_errors_iff, Diagnostic.isErrorOf_iff_severity]
  · have hErrors : errorsAt ds p =
        ds.filter fun d => d.severity = .error ∧ d.file.any (·.same p) = true := by
      refine List.filter_congr fun d _ => ?_
      rw [Bool.eq_iff_iff, Diagnostic.isErrorOf_iff_severity, decide_eq_true_eq, Option.any_eq_true]
    rw [get?_errors, ← hErrors]
    split
    · rename_i hNil
      simp [hNil]
    · rename_i hSome
      rw [Option.some.injEq, eq_comm]
      exact (and_iff_right_of_imp fun h => h ▸ hSome).symm
  · rw [isUnstable_iff]
    refine exists_congr fun d => and_congr_right fun _ => ?_
    rw [Diagnostic.kind]
    cases d.severity <;> cases d.file <;> simp

end Partition

end AnalysisCache
