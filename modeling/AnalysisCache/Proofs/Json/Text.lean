import AnalysisCache.Json.Parser
import AnalysisCache.Json.Printer

/-!
# Strings and numbers read back

A string and a natural number below `2 ^ 64` are read as what they were written for, and reading
stops right behind them.

* `Json.stringBody?_flatMap_escapeChar`: a string, up to its closing quote.
* `Json.number?_decimal`: a number, if nothing follows that could go on with it.
-/

namespace AnalysisCache

namespace Digits

theorem le_valueFrom (n : Nat) (cs : List Char) : n ≤ valueFrom n cs := by
  induction cs generalizing n with
  | nil => exact Nat.le_refl n
  | cons c rest ih =>
    have hNext := ih (10 * n + digitValue c)
    rw [show valueFrom n (c :: rest) = valueFrom (10 * n + digitValue c) rest from rfl]
    omega

theorem digit_ne_zero {n : Nat} (h : n < 10) (hPos : 0 < n) : digit n ≠ '0' := by
  have key : ∀ m : Fin 10, 0 < m.val → digit m.val ≠ '0' := by decide
  exact key ⟨n, h⟩ hPos

/-- Digits are written without needless zeros. -/
theorem decimalOnto_eq_cons {fuel n : Nat} (tail : List Char) (h : n < fuel) :
    ∃ c cs, decimalOnto fuel n tail = c :: cs ∧ isDigit c = true ∧ (0 < n → c ≠ '0') ∧
      (n = 0 → cs = tail) := by
  induction fuel generalizing n tail with
  | zero => omega
  | succ fuel ih =>
    rw [decimalOnto]
    split
    · rename_i hn
      exact ⟨digit n, tail, rfl, (digit_facts hn).1, digit_ne_zero hn, fun _ => rfl⟩
    · rename_i hn
      obtain ⟨c, cs, hEq, hDigit, hNonzero, _⟩ := ih (n := n / 10) (digit (n % 10) :: tail) (by omega)
      exact ⟨c, cs, hEq, hDigit, fun _ => hNonzero (by omega), fun hZero => by omega⟩

theorem decimal_eq_cons (n : Nat) :
    ∃ c cs, decimal n = c :: cs ∧ isDigit c = true ∧ (0 < n → c ≠ '0') ∧ (n = 0 → cs = []) :=
  decimalOnto_eq_cons [] (Nat.lt_succ_self n)

end Digits

namespace Json

/-! ## Numbers -/

/-- Whether a number ends where some text begins. -/
def EndsNumber (rest : List Char) : Prop :=
  ∀ c more, rest = c :: more → Digits.isDigit c = false ∧ c ≠ '.' ∧ c ≠ 'e' ∧ c ≠ 'E'

theorem endsNumber_nil : EndsNumber [] := by
  intro c more h
  cases h

theorem endsNumber_cons {c : Char} {more : List Char}
    (h : Digits.isDigit c = false ∧ c ≠ '.' ∧ c ≠ 'e' ∧ c ≠ 'E') : EndsNumber (c :: more) := by
  intro d rest hEq
  cases hEq
  exact h

theorem takeDigits_append {digits rest : List Char} (h : ∀ c ∈ digits, Digits.isDigit c = true)
    (hRest : EndsNumber rest) : takeDigits (digits ++ rest) = (digits, rest) := by
  induction digits with
  | nil =>
    cases rest with
    | nil => rfl
    | cons c more =>
      have hc := (hRest c more rfl).1
      simp [takeDigits, hc]
  | cons c more ih =>
    have hc := h c List.mem_cons_self
    have hMore := ih fun d hd => h d (List.mem_cons_of_mem c hd)
    simp only [takeDigits, Prod.mk.injEq] at hMore
    simp only [takeDigits, List.cons_append, List.takeWhile_cons, List.dropWhile_cons, hc, if_true,
      hMore.1, hMore.2]

theorem gather_eq {n : Nat} {cs : List Char} (h : Digits.valueFrom n cs < UInt64.size) :
    gather n cs = (Digits.valueFrom n cs, 0) := by
  induction cs generalizing n with
  | nil => rfl
  | cons c rest ih =>
    have hLe := Digits.le_valueFrom (10 * n + Digits.digitValue c) rest
    have hEq : Digits.valueFrom n (c :: rest) =
        Digits.valueFrom (10 * n + Digits.digitValue c) rest := rfl
    rw [hEq] at h ⊢
    rw [gather, if_pos (Nat.lt_of_le_of_lt hLe h)]
    exact ih h

theorem fraction?_of_endsNumber {rest : List Char} (h : EndsNumber rest) :
    fraction? rest = some ([], rest) := by
  cases rest with
  | nil => rfl
  | cons c more =>
    have hc := (h c more rfl).2.1
    rw [fraction?]
    intro cs hEq
    cases hEq
    exact hc rfl

theorem exponent?_of_endsNumber {rest : List Char} (h : EndsNumber rest) :
    exponent? rest = some (none, rest) := by
  cases rest with
  | nil => rfl
  | cons c more =>
    have hc := (h c more rfl).2.2
    simp only [exponent?, hc.1, hc.2, or_self, if_false]

theorem integer?_decimal (n : Nat) {rest : List Char} (hRest : EndsNumber rest) :
    integer? (Digits.decimal n ++ rest) = some (Digits.decimal n, rest) := by
  rw [integer?, takeDigits_append (fun c hc => Digits.isDigit_of_mem_decimal hc) hRest]
  obtain ⟨c, cs, hEq, _, hNonzero, hZero⟩ := Digits.decimal_eq_cons n
  rw [hEq]
  split
  · rename_i h
    cases h
  · rename_i h
    cases h
    rcases Nat.eq_zero_or_pos n with hn | hn
    · cases hZero hn
    · exact absurd rfl (hNonzero hn)
  · rfl

theorem number?_decimal {n : Nat} (h : n < UInt64.size) {rest : List Char}
    (hRest : EndsNumber rest) :
    number? (Digits.decimal n ++ rest) = some (.natural n, rest) := by
  have hValue : Digits.valueFrom 0 (Digits.decimal n) = n := Digits.value_decimal n
  have hUnsigned : unsignedNumber? false (Digits.decimal n ++ rest) = some (.natural n, rest) := by
    have hGather : gather 0 (Digits.decimal n) = (Digits.valueFrom 0 (Digits.decimal n), 0) :=
      gather_eq (by rw [hValue]; exact h)
    simp only [unsignedNumber?, integer?_decimal n hRest, fraction?_of_endsNumber hRest,
      exponent?_of_endsNumber hRest, numberOf, hGather, hValue, Option.bind_eq_bind,
      Option.bind_some]
    rfl
  obtain ⟨c, cs, hEq, hDigit, _, _⟩ := Digits.decimal_eq_cons n
  rw [hEq] at hUnsigned ⊢
  rw [List.cons_append] at hUnsigned ⊢
  rw [number?]
  · exact hUnsigned
  · intro more hMore
    cases hMore
    cases hDigit

/-! ## Strings -/

/-- The characters that are written as four hexadecimal digits. -/
theorem hexUnit?_control {n : Nat} (h : n < 0x20) :
    hexUnit? '0' '0' (Hex.digit (n / 16)) (Hex.digit (n % 16)) = some n := by
  have key : ∀ m : Fin 0x20,
      hexUnit? '0' '0' (Hex.digit (m.val / 16)) (Hex.digit (m.val % 16)) = some m.val := by decide
  exact key ⟨n, h⟩

theorem stringBody?_escapeChar (c : Char) (rest : List Char) :
    stringBody? (escapeChar c ++ rest) =
      (stringBody? rest).map fun read => (c :: read.1, read.2) := by
  rw [escapeChar]
  split
  · rename_i hc
    subst hc
    rfl
  split
  · rename_i hc
    subst hc
    rfl
  split
  · rename_i hc
    subst hc
    rfl
  split
  · rename_i hc
    subst hc
    rfl
  split
  · rename_i hc
    subst hc
    rfl
  split
  · rename_i hc
    subst hc
    rfl
  split
  · rename_i hc
    subst hc
    rfl
  split
  · rename_i hControl
    have hUnit := hexUnit?_control hControl
    simp only [List.cons_append, List.nil_append]
    rw [stringBody?, if_neg (by decide), if_pos rfl]
    dsimp only
    rw [hUnit]
    dsimp only
    rw [if_neg (by omega), if_neg (by omega), Char.ofNat_toNat]
  · rename_i hQuote hSlash _ _ _ _ _ hControl
    rw [List.singleton_append, stringBody?.eq_def]
    dsimp only
    rw [if_neg hQuote, if_neg hSlash, if_neg hControl]

theorem stringBody?_flatMap_escapeChar (cs rest : List Char) :
    stringBody? (cs.flatMap escapeChar ++ '"' :: rest) = some (cs, rest) := by
  induction cs with
  | nil =>
    rw [List.flatMap_nil, List.nil_append, stringBody?.eq_def]
    rfl
  | cons c more ih =>
    rw [List.flatMap_cons, List.append_assoc, stringBody?_escapeChar, ih]
    rfl

end Json

end AnalysisCache
