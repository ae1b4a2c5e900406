import AnalysisCache.Double
import AnalysisCache.Json.Basic
import AnalysisCache.Text.Digits

/-!
# Reading JSON numbers

A number is an integer without needless zeros, then perhaps a fraction, then perhaps an exponent.
An integer below `2 ^ 64`, or from `-2 ^ 63` up to `-1`, is kept as such. Any other number is read
in double precision, from as many leading digits as fit into 64 bits, and is refused if that makes
it infinite.
-/

namespace AnalysisCache

namespace Json

/-- Whether a number overflows in double precision. Its factors are rounded, and then the product:
half a unit above the largest double is where that reaches infinity. -/
def isInfinite (significand : Nat) (exponent : Int) : Bool :=
  if significand = 0 ∨ exponent < 0 then false
  else if 308 < exponent then true
  else
    decide (Double.overflow ≤
      Double.round significand * Double.round (Double.powerOfTen exponent.toNat))

/-- Appends digits to a number for as long as it stays below `2 ^ 64`, and returns how many are
left. -/
def gather (n : Nat) : List Char → Nat × Nat
  | [] => (n, 0)
  | c :: rest =>
    let next := 10 * n + Digits.digitValue c
    if next < UInt64.size then gather next rest else (n, rest.length + 1)

/-- Some digits, and what follows them. -/
def takeDigits (cs : List Char) : List Char × List Char :=
  (cs.takeWhile Digits.isDigit, cs.dropWhile Digits.isDigit)

/-- The digits of an integer: a zero alone, or digits that do not begin with a zero. -/
def integer? (cs : List Char) : Option (List Char × List Char) :=
  match takeDigits cs with
  | ([], _) => none
  | ('0' :: _ :: _, _) => none
  | read => some read

/-- The digits after a point, if there is one. A point must be followed by a digit. -/
def fraction? : List Char → Option (List Char × List Char)
  | '.' :: cs =>
    match takeDigits cs with
    | ([], _) => none
    | read => some read
  | cs => some ([], cs)

/-- The digits of an exponent without its sign. -/
def unsignedExponent? (cs : List Char) : Option (Nat × List Char) :=
  match takeDigits cs with
  | ([], _) => none
  | (digits, rest) => some (Digits.value digits, rest)

/-- The value of an exponent, if there is one. -/
def exponent? : List Char → Option (Option Int × List Char)
  | [] => some (none, [])
  | c :: cs =>
    if c = 'e' ∨ c = 'E' then
      match cs with
      | '-' :: cs => (unsignedExponent? cs).map fun (n, rest) => (some (-(n : Int)), rest)
      | '+' :: cs => (unsignedExponent? cs).map fun (n, rest) => (some (n : Int), rest)
      | cs => (unsignedExponent? cs).map fun (n, rest) => (some (n : Int), rest)
    else some (none, c :: cs)

/-- The number with the given digits before and after the point and the given exponent. -/
def numberOf (negative : Bool) (whole fraction : List Char) (exponent : Option Int) :
    Option JsonNumber :=
  let (high, dropped) := gather 0 whole
  let isInteger := fraction.isEmpty && exponent.isNone && dropped == 0
  if isInteger && !negative then some (.natural high)
  else if isInteger && negative && 0 < high && high ≤ 1 <<< 63 then some (.negative high)
  else
    let (significand, unread) := gather high fraction
    let power : Int := dropped - (fraction.length - unread : Nat) + exponent.getD 0
    if isInfinite significand power then none else some (.decimal ⟨negative, significand, power⟩)

/-- A number without its sign, and what follows it. -/
def unsignedNumber? (negative : Bool) (cs : List Char) : Option (JsonNumber × List Char) := do
  let (whole, rest) ← integer? cs
  let (fraction, rest) ← fraction? rest
  let (exponent, rest) ← exponent? rest
  let n ← numberOf negative whole fraction exponent
  return (n, rest)

/-- A number, and what follows it. -/
def number? : List Char → Option (JsonNumber × List Char)
  | '-' :: cs => unsignedNumber? true cs
  | cs => unsignedNumber? false cs

end Json

end AnalysisCache
