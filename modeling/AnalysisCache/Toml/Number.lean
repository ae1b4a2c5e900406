import AnalysisCache.Double
import AnalysisCache.Toml.Basic
import AnalysisCache.Text.Chars
import AnalysisCache.Text.Digits
import AnalysisCache.Text.Hex

/-!
# Numbers of TOML

An integer has 64 bits with its sign, and may be written in base sixteen, eight or two without one.
Single underscores may stand between digits. A number with a fraction or an exponent is read in
double precision, and a positive one must not be too large for that.
-/

namespace AnalysisCache

namespace Toml

/-- One or more digits with single underscores between them, and what follows. -/
def digits? (isDigit : Char → Bool) : List Char → Option (List Char × List Char)
  | [] => none
  | c :: rest =>
    if !isDigit c then none
    else if rest.head?.any isDigit then
      (digits? isDigit rest).map fun (ds, rest) => (c :: ds, rest)
    else
      match rest with
      | '_' :: rest => (digits? isDigit rest).map fun (ds, rest) => (c :: ds, rest)
      | rest => some ([c], rest)

/-- The digits of a number before its point: a zero alone, or digits that do not begin with a
zero. -/
def whole? : List Char → Option (List Char × List Char)
  | '0' :: rest => some (['0'], rest)
  | cs => digits? Digits.isDigit cs

/-- The digits after a point, if there is one. -/
def fraction? : List Char → Option (List Char × List Char)
  | '.' :: rest => digits? Digits.isDigit rest
  | cs => some ([], cs)

/-- Takes a sign, and tells whether it is a minus. -/
def takeSign : List Char → Bool × List Char
  | '-' :: rest => (true, rest)
  | '+' :: rest => (false, rest)
  | cs => (false, cs)

/-- The value of an exponent, if there is one. -/
def exponent? : List Char → Option (Option Int × List Char)
  | [] => some (none, [])
  | c :: cs =>
    if c = 'e' ∨ c = 'E' then
      let (negative, rest) := takeSign cs
      (digits? Digits.isDigit rest).map fun (ds, rest) =>
        let n : Int := Digits.value ds
        (some (if negative then -n else n), rest)
    else some (none, c :: cs)

/-- Whether `significand * 10 ^ exponent` rounds to infinity in double precision. Where the number
of digits before the point does not tell, the powers are worked out. -/
def isTooLarge (significand : Nat) (exponent : Int) : Bool :=
  let length : Int := (Digits.decimal significand).length + exponent
  if significand = 0 ∨ length < 309 then false
  else if 309 < length then true
  else
    if exponent < 0 then
      decide (Double.overflow * Double.powerOfTen (-exponent).toNat ≤ significand)
    else decide (Double.overflow ≤ significand * Double.powerOfTen exponent.toNat)

/-- The characters before `rest`, which is the end of `cs`. -/
def writtenBefore (cs rest : List Char) : String :=
  String.ofList (cs.take (cs.length - rest.length))

/-- An integer in the given base. -/
def basedInteger? (base : Nat) (cs : List Char) : Option (Toml × List Char) := do
  let isDigit (c : Char) : Bool := (Hex.digitValue? c).any fun d => d < base
  let (ds, rest) ← digits? isDigit cs
  let n := ds.foldl (fun n c => base * n + (Hex.digitValue? c).getD 0) 0
  if n < 1 <<< 63 then some (.integer n, rest) else none

/-- Infinity or not a number, after its sign. -/
def special? (cs : List Char) : Option (List Char) :=
  (Chars.after? ['i', 'n', 'f'] cs).orElse fun _ => Chars.after? ['n', 'a', 'n'] cs

/-- The number with the given sign and parts. -/
def decimal? (negative : Bool) (whole fraction : List Char) (exponent : Option Int)
    (written : String) : Option Toml :=
  if fraction.isEmpty && exponent.isNone then
    let n := Digits.value whole
    if negative then if n ≤ 1 <<< 63 then some (.integer (-(n : Int))) else none
    else if n < 1 <<< 63 then some (.integer n)
    else none
  else if !negative &&
      isTooLarge (Digits.value (whole ++ fraction)) (exponent.getD 0 - fraction.length) then none
  else some (.float written)

/-- A number, and what follows it. -/
def number? (cs : List Char) : Option (Toml × List Char) :=
  match cs with
  | '0' :: 'x' :: rest => basedInteger? 16 rest
  | '0' :: 'o' :: rest => basedInteger? 8 rest
  | '0' :: 'b' :: rest => basedInteger? 2 rest
  | _ =>
    let (negative, unsigned) := takeSign cs
    match special? unsigned with
    | some rest => some (.float (writtenBefore cs rest), rest)
    | none => do
      let (whole, rest) ← whole? unsigned
      let (fraction, rest) ← fraction? rest
      let (exponent, rest) ← exponent? rest
      let v ← decimal? negative whole fraction exponent (writtenBefore cs rest)
      return (v, rest)

end Toml

end AnalysisCache
