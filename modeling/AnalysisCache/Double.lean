/-!
# Double precision

What numbers in double precision can hold: 53 significant bits, and nothing from half a unit above
the largest finite one on. Powers of two are written as shifts.
-/

namespace AnalysisCache

namespace Double

/-- The nearest number with 53 significant bits, the even one of two. -/
def round (n : Nat) : Nat :=
  if n < 1 <<< 53 then n
  else
    let shift := n.log2 - 52
    let high := n >>> shift
    let low := n - high <<< shift
    let half := 1 <<< (shift - 1)
    if half < low ∨ (low = half ∧ high % 2 = 1) then (high + 1) <<< shift else high <<< shift

/-- The least number that is rounded to infinity. -/
def overflow : Nat := 1 <<< 1024 - 1 <<< 970

def powerOfTen (n : Nat) : Nat := Nat.pow 10 n

end Double

end AnalysisCache
