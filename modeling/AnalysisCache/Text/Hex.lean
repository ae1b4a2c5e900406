import AnalysisCache.Text.Bytes

/-!
# Hexadecimal text

Each byte is written as two digits, the high one first, in lower case. Both cases are read.

* `Hex.decode?_encode`: reading undoes writing.
* `Hex.length_of_decode?`: what is read has twice as many digits as bytes.
-/

namespace AnalysisCache

namespace Hex

/-- The lower-case digit of a value below sixteen. -/
def digit (n : Nat) : Char := if n < 10 then Char.ofNat (48 + n) else Char.ofNat (87 + n)

def digitValue? (c : Char) : Option Nat :=
  if '0' ≤ c ∧ c ≤ '9' then some (c.toNat - 48)
  else if 'a' ≤ c ∧ c ≤ 'f' then some (c.toNat - 87)
  else if 'A' ≤ c ∧ c ≤ 'F' then some (c.toNat - 55)
  else none

def encodeByte (b : UInt8) : List Char := [digit (b.toNat / 16), digit (b.toNat % 16)]

def encode (b : Bytes) : List Char := b.flatMap encodeByte

def decode? : List Char → Option Bytes
  | [] => some []
  | [_] => none
  | h :: l :: rest => do
    let high ← digitValue? h
    let low ← digitValue? l
    let more ← decode? rest
    return UInt8.ofNat (16 * high + low) :: more

theorem digitValue?_digit {n : Nat} (h : n < 16) : digitValue? (digit n) = some n := by
  have key : ∀ m : Fin 16, digitValue? (digit m.val) = some m.val := by decide
  exact key ⟨n, h⟩

@[simp] theorem decode?_encode (b : Bytes) : decode? (encode b) = some b := by
  induction b with
  | nil => rfl
  | cons x rest ih =>
    have hx := x.toNat_lt
    have hHigh : digitValue? (digit (x.toNat / 16)) = some (x.toNat / 16) :=
      digitValue?_digit (by omega)
    have hLow : digitValue? (digit (x.toNat % 16)) = some (x.toNat % 16) :=
      digitValue?_digit (by omega)
    have hRest : decode? (rest.flatMap encodeByte) = some rest := ih
    have hByte : UInt8.ofNat (16 * (x.toNat / 16) + x.toNat % 16) = x := by
      rw [Nat.div_add_mod]
      exact UInt8.ofNat_toNat
    simp only [encode, encodeByte, List.flatMap_cons, List.cons_append, List.nil_append, decode?,
      hHigh, hLow, hRest, Option.bind_eq_bind, Option.bind_some, Option.pure_def, hByte]

@[simp] theorem length_encode (b : Bytes) : (encode b).length = 2 * b.length := by
  induction b with
  | nil => rfl
  | cons x rest ih =>
    have hRest : (rest.flatMap encodeByte).length = 2 * rest.length := ih
    simp only [encode, List.flatMap_cons, List.length_append, hRest, List.length_cons]
    show 2 + 2 * rest.length = 2 * (rest.length + 1)
    omega

theorem length_of_decode? {cs : List Char} {b : Bytes} (h : decode? cs = some b) :
    cs.length = 2 * b.length := by
  fun_induction decode? cs generalizing b with
  | case1 => simp_all
  | case2 => simp at h
  | case3 x y rest ih =>
    simp only [Option.bind_eq_bind, Option.bind_eq_some_iff, Option.pure_def,
      Option.some.injEq] at h
    obtain ⟨_, _, _, _, more, hMore, rfl⟩ := h
    have := ih hMore
    simp only [List.length_cons]
    omega

end Hex

end AnalysisCache
