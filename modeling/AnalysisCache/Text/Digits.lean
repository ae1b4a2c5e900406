/-!
# Decimal digits

The decimal digits of a natural number, the most significant first.

* `Digits.value_decimal`: the digits of a number stand for it.
* `Digits.isDigit_of_mem_decimal`: they are digits.
-/

namespace AnalysisCache

namespace Digits

def isDigit (c : Char) : Bool := '0' ≤ c && c ≤ '9'

def digitValue (c : Char) : Nat := c.toNat - 48

/-- The digit that stands for a value below ten. -/
def digit (n : Nat) : Char := Char.ofNat (48 + n)

/-- The number that digits stand for, going on from a number already read. -/
def valueFrom (n : Nat) (cs : List Char) : Nat := cs.foldl (fun v c => 10 * v + digitValue c) n

def value (cs : List Char) : Nat := valueFrom 0 cs

/-- The digits of `n`, before those of `tail`. -/
def decimalOnto : Nat → Nat → List Char → List Char
  | 0, _, tail => tail
  | fuel + 1, n, tail =>
    if n < 10 then digit n :: tail else decimalOnto fuel (n / 10) (digit (n % 10) :: tail)

def decimal (n : Nat) : List Char := decimalOnto (n + 1) n []

/-- The decimal text of a number. -/
def text (n : Nat) : String := String.ofList (decimal n)

theorem digit_facts {n : Nat} (h : n < 10) :
    isDigit (digit n) = true ∧ digitValue (digit n) = n := by
  have key : ∀ m : Fin 10,
      isDigit (digit m.val) = true ∧ digitValue (digit m.val) = m.val := by decide
  exact key ⟨n, h⟩

theorem value_decimalOnto (fuel n : Nat) (tail : List Char) (h : n < fuel) :
    value (decimalOnto fuel n tail) = valueFrom n tail := by
  induction fuel generalizing n tail with
  | zero => omega
  | succ fuel ih =>
    simp only [decimalOnto]
    split
    · rename_i hn
      simp [value, valueFrom, (digit_facts hn).2]
    · rw [ih _ _ (by omega)]
      simp only [valueFrom, List.foldl_cons, (digit_facts (Nat.mod_lt n (by omega))).2]
      rw [show 10 * (n / 10) + n % 10 = n by omega]

@[simp] theorem value_decimal (n : Nat) : value (decimal n) = n := by
  rw [decimal, value_decimalOnto _ _ _ (by omega)]
  rfl

theorem isDigit_of_mem_decimalOnto {fuel n : Nat} {tail : List Char} {c : Char}
    (h : c ∈ decimalOnto fuel n tail) (hTail : ∀ d ∈ tail, isDigit d = true) :
    isDigit c = true := by
  induction fuel generalizing n tail with
  | zero => exact hTail c h
  | succ fuel ih =>
    simp only [decimalOnto] at h
    split at h
    · rename_i hn
      rcases List.mem_cons.1 h with rfl | h
      · exact (digit_facts hn).1
      · exact hTail c h
    · refine ih h fun d hd => ?_
      rcases List.mem_cons.1 hd with rfl | hd
      · exact (digit_facts (Nat.mod_lt n (by omega))).1
      · exact hTail d hd

theorem isDigit_of_mem_decimal {n : Nat} {c : Char} (h : c ∈ decimal n) : isDigit c = true :=
  isDigit_of_mem_decimalOnto h (by simp)

end Digits

end AnalysisCache
