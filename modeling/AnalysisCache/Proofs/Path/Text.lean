import AnalysisCache.Proofs.Files.Directories
import AnalysisCache.Proofs.Text.Bytes

/-!
# Paths that are text

A path is text exactly if its steps are, so that either all spellings of it are text or none is.

* `Path.isText_iff_spine`: a path is text if its steps are.
* `Path.isText_congr`: this does not depend on the spelling.
-/

namespace AnalysisCache

namespace Path

def IsText (p : Path) : Prop := ∃ s, p.text? = some s

instance (p : Path) : Decidable p.IsText := decidable_of_iff _ Option.isSome_iff_exists

theorem not_isText_iff {p : Path} : ¬ p.IsText ↔ p.text? = none := by
  rw [IsText, ← Option.isSome_iff_exists, Bool.not_eq_true, Option.isSome_eq_false_iff,
    Option.isNone_iff_eq_none]

theorem isText_joinParts_iff {parts : List Bytes} :
    Bytes.IsText (joinParts parts) ↔ ∀ part ∈ parts, Bytes.IsText part := by
  induction parts with
  | nil => exact iff_of_true (Bytes.isText_ofText "") (List.forall_mem_nil _)
  | cons part rest ih =>
    cases rest with
    | nil => rw [List.forall_mem_singleton, joinParts]
    | cons next more =>
      rw [joinParts_cons_cons, List.forall_mem_cons, ← ih]
      exact Bytes.isText_append_slash

/-- A part that stays in place is text. -/
theorem isText_of_not_isStep {part : Bytes} (h : isStep part = false) : Bytes.IsText part := by
  rw [isStep, Bool.not_eq_false', Bool.or_eq_true, beq_iff_eq, beq_iff_eq] at h
  rcases h with rfl | rfl
  · exact Bytes.isText_ofText ""
  · exact Bytes.isText_ofText "."

theorem isText_iff_spine {p : Path} : p.IsText ↔ ∀ part ∈ p.spine, Bytes.IsText part := by
  have hParts : p.IsText ↔ ∀ part ∈ parts p.bytes, Bytes.IsText part := by
    rw [← isText_joinParts_iff, joinParts_parts]
    rfl
  rw [hParts, ← filter_parts_eq_spine]
  constructor
  · intro h part hPart
    exact h part (List.mem_filter.1 hPart).1
  · intro h part hPart
    cases hStep : isStep part with
    | true => exact h part (List.mem_filter.2 ⟨hPart, hStep⟩)
    | false => exact isText_of_not_isStep hStep

theorem isText_congr {p q : Path} (h : p.same q = true) : p.IsText ↔ q.IsText := by
  rw [isText_iff_spine, isText_iff_spine, spine, spine, same_iff.1 h]

end Path

end AnalysisCache
