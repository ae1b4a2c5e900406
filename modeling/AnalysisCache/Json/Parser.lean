import AnalysisCache.Json.Number
import AnalysisCache.Text.Chars
import AnalysisCache.Text.Hex

/-!
# Reading JSON

A document is one value with blanks around it. Arrays and objects may be nested 127 levels deep.
Strings hold no unescaped control character, and an escaped surrogate must be half of a pair.
-/

namespace AnalysisCache

namespace Json

def isBlank (c : Char) : Bool := c = ' ' || c = '\n' || c = '\t' || c = '\r'

def skipBlanks (cs : List Char) : List Char := cs.dropWhile isBlank

/-- The value of four hexadecimal digits. -/
def hexUnit? (a b c d : Char) : Option Nat := do
  let a ← Hex.digitValue? a
  let b ← Hex.digitValue? b
  let c ← Hex.digitValue? c
  let d ← Hex.digitValue? d
  return ((a * 16 + b) * 16 + c) * 16 + d

/-- The character that a backslash and the given character stand for. -/
def simpleEscape? (c : Char) : Option Char :=
  if c = '"' then some '"'
  else if c = '\\' then some '\\'
  else if c = '/' then some '/'
  else if c = 'b' then some '\x08'
  else if c = 'f' then some '\x0c'
  else if c = 'n' then some '\n'
  else if c = 'r' then some '\r'
  else if c = 't' then some '\t'
  else none

/-- The characters of a string up to its closing quote, and what follows it. -/
def stringBody? : List Char → Option (List Char × List Char)
  | [] => none
  | c :: rest =>
    if c = '"' then some ([], rest)
    else if c = '\\' then
      match rest with
      | 'u' :: p :: q :: r :: s :: rest =>
        match hexUnit? p q r s with
        | none => none
        | some unit =>
          if 0xDC00 ≤ unit ∧ unit ≤ 0xDFFF then none
          else if 0xD800 ≤ unit ∧ unit ≤ 0xDBFF then
            match rest with
            | '\\' :: 'u' :: p :: q :: r :: s :: rest =>
              match hexUnit? p q r s with
              | none => none
              | some low =>
                if 0xDC00 ≤ low ∧ low ≤ 0xDFFF then
                  let c := Char.ofNat (0x10000 + (unit - 0xD800) * 0x400 + (low - 0xDC00))
                  (stringBody? rest).map fun (cs, rest) => (c :: cs, rest)
                else none
            | _ => none
          else (stringBody? rest).map fun (cs, rest) => (Char.ofNat unit :: cs, rest)
      | e :: rest =>
        match simpleEscape? e with
        | none => none
        | some c => (stringBody? rest).map fun (cs, rest) => (c :: cs, rest)
      | [] => none
    else if c.toNat < 0x20 then none
    else (stringBody? rest).map fun (cs, rest) => (c :: cs, rest)

/-- A string after blanks. -/
def string? (cs : List Char) : Option (String × List Char) :=
  match skipBlanks cs with
  | '"' :: rest => (stringBody? rest).map fun (s, rest) => (String.ofList s, rest)
  | _ => none

mutual

/-- A value after blanks, nested at most `depth` levels deep, and what follows it. -/
def value? : Nat → Nat → List Char → Option (Json × List Char)
  | 0, _, _ => none
  | fuel + 1, depth, cs =>
    match skipBlanks cs with
    | [] => none
    | c :: rest =>
      if c = 'n' then
        (Chars.after? ['u', 'l', 'l'] rest).map fun rest => (.null, rest)
      else if c = 't' then
        (Chars.after? ['r', 'u', 'e'] rest).map fun rest => (.bool true, rest)
      else if c = 'f' then
        (Chars.after? ['a', 'l', 's', 'e'] rest).map fun rest => (.bool false, rest)
      else if c = '"' then
        (stringBody? rest).map fun (s, rest) => (.string (String.ofList s), rest)
      else if c = '[' then
        match depth with
        | 0 => none
        | depth + 1 =>
          match skipBlanks rest with
          | ']' :: rest => some (.array [], rest)
          | rest => (items? fuel depth rest).map fun (vs, rest) => (.array vs, rest)
      else if c = '{' then
        match depth with
        | 0 => none
        | depth + 1 =>
          match skipBlanks rest with
          | '}' :: rest => some (.object [], rest)
          | rest => (members? fuel depth rest).map fun (ms, rest) => (.object ms, rest)
      else (number? (c :: rest)).map fun (n, rest) => (.number n, rest)

/-- One or more items and the bracket that closes them. -/
def items? : Nat → Nat → List Char → Option (List Json × List Char)
  | 0, _, _ => none
  | fuel + 1, depth, cs =>
    match value? fuel depth cs with
    | none => none
    | some (v, rest) =>
      match skipBlanks rest with
      | ']' :: rest => some ([v], rest)
      | ',' :: rest => (items? fuel depth rest).map fun (vs, rest) => (v :: vs, rest)
      | _ => none

/-- One or more members and the brace that closes them. -/
def members? : Nat → Nat → List Char → Option (List (String × Json) × List Char)
  | 0, _, _ => none
  | fuel + 1, depth, cs =>
    match string? cs with
    | none => none
    | some (name, rest) =>
      match skipBlanks rest with
      | ':' :: rest =>
        match value? fuel depth rest with
        | none => none
        | some (v, rest) =>
          match skipBlanks rest with
          | '}' :: rest => some ([(name, v)], rest)
          | ',' :: rest => (members? fuel depth rest).map fun (ms, rest) => ((name, v) :: ms, rest)
          | _ => none
      | _ => none

end

/-- How many levels of arrays and objects may be nested. -/
def maxDepth : Nat := 127

/-- The value that a document consists of. Every second call takes a character, so the fuel is
enough for any value. -/
def parse? (s : String) : Option Json :=
  let cs := s.toList
  match value? (2 * cs.length + 2) maxDepth cs with
  | some (v, rest) => if (skipBlanks rest).isEmpty then some v else none
  | none => none

end Json

end AnalysisCache
