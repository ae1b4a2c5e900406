import AnalysisCache.Toml.Text
import AnalysisCache.Toml.Moment

/-!
# Values of TOML

Arrays and tables may be nested 79 levels deep as values. An array may go on over several lines with
comments and end in a comma; a table stands in one line and does not.
-/

namespace AnalysisCache

namespace Toml

/-- Leaves out blanks, line ends and comments, starting in a comment or not. -/
def skipLinesFrom : Bool → List Char → List Char
  | _, [] => []
  | inComment, c :: rest =>
    if c = '\n' then skipLinesFrom false rest
    else if inComment then if isPlain c then skipLinesFrom true rest else c :: rest
    else if isBlank c then skipLinesFrom false rest
    else if c = '#' then skipLinesFrom true rest
    else c :: rest

/-- Leaves out blanks, line ends and comments. -/
def skipLines (cs : List Char) : List Char := skipLinesFrom false cs

mutual

/-- A value nested at most `depth` levels deep, and what follows it. -/
def valueOf? : Nat → Nat → List Char → Option (Toml × List Char)
  | 0, _, _ => none
  | _, _, [] => none
  | fuel + 1, depth, c :: rest =>
    if c = '"' ∨ c = '\x27' then (string? (c :: rest)).map fun (s, rest) => (.string s, rest)
    else if c = 't' then
      (Chars.after? ['r', 'u', 'e'] rest).map fun rest => (.boolean true, rest)
    else if c = 'f' then
      (Chars.after? ['a', 'l', 's', 'e'] rest).map fun rest => (.boolean false, rest)
    else if c = '[' then
      match depth with
      | 0 => none
      | depth + 1 =>
        match skipLines rest with
        | ']' :: rest => some (.array [], rest)
        | rest => (items? fuel depth rest).map fun (vs, rest) => (.array vs, rest)
    else if c = '{' then
      match depth with
      | 0 => none
      | depth + 1 =>
        match skipBlanks rest with
        | '}' :: rest => some (.table .complete [], rest)
        | rest => (members? fuel depth [] rest).map fun (t, rest) => (.table .complete t, rest)
    else (moment? (c :: rest)).orElse fun _ => number? (c :: rest)

/-- One or more items and the bracket that closes them. -/
def items? : Nat → Nat → List Char → Option (List Toml × List Char)
  | 0, _, _ => none
  | fuel + 1, depth, cs =>
    match valueOf? fuel depth cs with
    | none => none
    | some (v, rest) =>
      match skipLines rest with
      | ']' :: rest => some ([v], rest)
      | ',' :: rest =>
        match skipLines rest with
        | ']' :: rest => some ([v], rest)
        | rest => (items? fuel depth rest).map fun (vs, rest) => (v :: vs, rest)
      | _ => none

/-- One or more members put into a table, and the brace that closes them. -/
def members? : Nat → Nat → TomlTable → List Char → Option (TomlTable × List Char)
  | 0, _, _, _ => none
  | fuel + 1, depth, t, cs =>
    match key? cs with
    | some (key, '=' :: rest) =>
      match valueOf? fuel depth (skipBlanks rest) with
      | none => none
      | some (v, rest) =>
        match t.assign key v with
        | none => none
        | some t =>
          match skipBlanks rest with
          | '}' :: rest => some (t, rest)
          | ',' :: rest => members? fuel depth t rest
          | _ => none
    | _ => none

end

/-- How many levels of arrays and tables may be nested. -/
def maxDepth : Nat := 79

/-- A value, and what follows it. Every second call takes a character, so the fuel is enough for any
value. -/
def value? (cs : List Char) : Option (Toml × List Char) :=
  valueOf? (2 * cs.length + 2) maxDepth cs

end Toml

end AnalysisCache
