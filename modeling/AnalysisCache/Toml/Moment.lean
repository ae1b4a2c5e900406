import AnalysisCache.Toml.Number

/-!
# Dates and times of TOML

A moment is a date, a time of day, or a date and a time with perhaps an offset. Seconds are always
given, and may be sixty.
-/

namespace AnalysisCache

namespace Toml

/-- A number of exactly the given count of digits. -/
def fixedNumber? (count : Nat) (cs : List Char) : Option (Nat × List Char) :=
  let ds := cs.take count
  if ds.length = count ∧ ds.all Digits.isDigit then some (Digits.value ds, cs.drop count) else none

/-- A number of two digits, not below `low` and not above `high`. -/
def pair? (low high : Nat) (cs : List Char) : Option (Nat × List Char) := do
  let (n, rest) ← fixedNumber? 2 cs
  if low ≤ n ∧ n ≤ high then some (n, rest) else none

def isLeapYear (year : Nat) : Bool := year % 4 = 0 && (year % 100 != 0 || year % 400 = 0)

def daysInMonth (year month : Nat) : Nat :=
  if month = 2 then if isLeapYear year then 29 else 28
  else if month = 4 ∨ month = 6 ∨ month = 9 ∨ month = 11 then 30
  else 31

/-- What follows a date. -/
def afterDate? (cs : List Char) : Option (List Char) := do
  let (year, rest) ← fixedNumber? 4 cs
  let rest ← Chars.after? ['-'] rest
  let (month, rest) ← pair? 1 12 rest
  let rest ← Chars.after? ['-'] rest
  let (_, rest) ← pair? 1 (daysInMonth year month) rest
  return rest

/-- What follows the hours and minutes of a time. -/
def afterMinutes? (cs : List Char) : Option (List Char) := do
  let (_, rest) ← pair? 0 23 cs
  let rest ← Chars.after? [':'] rest
  let (_, rest) ← pair? 0 59 rest
  return rest

/-- What follows a fraction of a second. A point without digits is none. -/
def afterFraction (cs : List Char) : List Char :=
  match cs with
  | '.' :: rest =>
    match rest.takeWhile Digits.isDigit with
    | [] => cs
    | _ => rest.dropWhile Digits.isDigit
  | _ => cs

/-- What follows a time of day. -/
def afterTime? (cs : List Char) : Option (List Char) := do
  let rest ← afterMinutes? cs
  let rest ← Chars.after? [':'] rest
  let (_, rest) ← pair? 0 60 rest
  return afterFraction rest

/-- What follows an offset, if there is one. -/
def afterOffset? (cs : List Char) : Option (List Char) :=
  match cs with
  | [] => some []
  | c :: rest =>
    if c = 'Z' ∨ c = 'z' then some rest
    else if c = '+' ∨ c = '-' then afterMinutes? rest
    else some cs

/-- What follows the time after a date, if there is one. -/
def afterDelimitedTime? (cs : List Char) : Option (List Char) :=
  match cs with
  | [] => none
  | c :: rest =>
    if c = 'T' ∨ c = 't' ∨ c = ' ' then (afterTime? rest).bind afterOffset? else none

/-- A moment, and what follows it. -/
def moment? (cs : List Char) : Option (Toml × List Char) :=
  let rest? :=
    match afterDate? cs with
    | some rest => some ((afterDelimitedTime? rest).getD rest)
    | none => afterTime? cs
  rest?.map fun rest => (.moment (writtenBefore cs rest), rest)

end Toml

end AnalysisCache
