/-!
# Reading characters

Small steps that take characters from the front of a text.

* `Chars.after?_eq_some_iff`: what follows an expected beginning.
-/

namespace AnalysisCache

namespace Chars

/-- What follows the given characters. -/
def after? : List Char → List Char → Option (List Char)
  | [], cs => some cs
  | _ :: _, [] => none
  | e :: expected, c :: cs => if c = e then after? expected cs else none

theorem after?_eq_some_iff {expected cs rest : List Char} :
    after? expected cs = some rest ↔ cs = expected ++ rest := by
  induction expected generalizing cs with
  | nil => simp [after?]
  | cons e expected ih =>
    cases cs with
    | nil => simp [after?]
    | cons c cs =>
      by_cases h : c = e <;> simp [after?, h, ih]

end Chars

end AnalysisCache
