import AnalysisCache.Toml.Basic
import AnalysisCache.Text.Hex

/-!
# Strings and keys of TOML

A string stands between quotes, in which a backslash begins an escape, or between apostrophes, in
which it does not. Three of either enclose a text of several lines, and up to two more of them in a
row are part of the text. A line feed right after the opening three is not. Between quotes, a
backslash at the end of a line leaves out all blanks and line ends that follow.

A key has up to 79 parts with dots between them, each of them a bare name or a string on one line.
-/

namespace AnalysisCache

namespace Toml

def isBlank (c : Char) : Bool := c = ' ' || c = '\t'

def skipBlanks (cs : List Char) : List Char := cs.dropWhile isBlank

/-- Whether a character can stand in a line: of the control characters only the tab can. -/
def isPlain (c : Char) : Bool := c = '\t' || (0x20 ≤ c.toNat && c.toNat != 0x7F)

/-- The character that a backslash and the given character stand for. -/
def simpleEscape? (c : Char) : Option Char :=
  if c = '"' then some '"'
  else if c = '\\' then some '\\'
  else if c = 'b' then some '\x08'
  else if c = 'f' then some '\x0c'
  else if c = 'n' then some '\n'
  else if c = 'r' then some '\r'
  else if c = 't' then some '\t'
  else none

/-- The character with the given number in hexadecimal digits. A surrogate is no character. -/
def escapedChar? (digits : List Char) : Option Char := do
  let values ← digits.mapM Hex.digitValue?
  let n := values.foldl (fun n d => 16 * n + d) 0
  if n < 0xD800 ∨ (0xDFFF < n ∧ n < 0x110000) then some (Char.ofNat n) else none

/-- What a quote closes, if it closes a string: the quotes that are still part of the text, and what
follows the string. -/
def close? (lines : Bool) (quote : Char) (rest : List Char) : Option (List Char × List Char) :=
  if !lines then some ([], rest)
  else
    let more := (rest.takeWhile (· = quote)).length
    if more < 2 then none
    else
      let kept := min (more - 2) 2
      some (List.replicate kept quote, rest.drop (kept + 2))

/-- Whether nothing but blanks comes before the next line end. -/
def isLineEnd (cs : List Char) : Bool := (skipBlanks cs).head? == some '\n'

/-- The text up to the closing quotes, and what follows them. Blanks and line ends that come next
are left out if `trim` holds. -/
def quotedBody? (lines : Bool) : Bool → List Char → Option (List Char × List Char)
  | _, [] => none
  | trim, c :: rest =>
    if trim && (isBlank c || c = '\n') then quotedBody? lines true rest
    else if c = '"' then
      match close? lines '"' rest with
      | some closed => some closed
      | none => (quotedBody? lines false rest).map fun (cs, rest) => (c :: cs, rest)
    else if c = '\\' then
      match rest with
      | 'u' :: p :: q :: r :: s :: rest =>
        match escapedChar? [p, q, r, s] with
        | none => none
        | some c => (quotedBody? lines false rest).map fun (cs, rest) => (c :: cs, rest)
      | 'U' :: k :: l :: m :: n :: p :: q :: r :: s :: rest =>
        match escapedChar? [k, l, m, n, p, q, r, s] with
        | none => none
        | some c => (quotedBody? lines false rest).map fun (cs, rest) => (c :: cs, rest)
      | e :: rest =>
        match simpleEscape? e with
        | some c => (quotedBody? lines false rest).map fun (cs, rest) => (c :: cs, rest)
        | none =>
          if lines && isLineEnd (e :: rest) then quotedBody? lines true rest else none
      | [] => none
    else if isPlain c || (lines && c = '\n') then
      (quotedBody? lines false rest).map fun (cs, rest) => (c :: cs, rest)
    else none

/-- The text up to the closing apostrophes, and what follows them. -/
def literalBody? (lines : Bool) : List Char → Option (List Char × List Char)
  | [] => none
  | c :: rest =>
    if c = '\x27' then
      match close? lines '\x27' rest with
      | some closed => some closed
      | none => (literalBody? lines rest).map fun (cs, rest) => (c :: cs, rest)
    else if isPlain c || (lines && c = '\n') then
      (literalBody? lines rest).map fun (cs, rest) => (c :: cs, rest)
    else none

/-- Leaves out one line feed. -/
def skipLineFeed : List Char → List Char
  | '\n' :: rest => rest
  | cs => cs

def asString (read : Option (List Char × List Char)) : Option (String × List Char) :=
  read.map fun (cs, rest) => (String.ofList cs, rest)

/-- A string, and what follows it. -/
def string? : List Char → Option (String × List Char)
  | '"' :: '"' :: '"' :: rest => asString (quotedBody? true false (skipLineFeed rest))
  | '"' :: rest => asString (quotedBody? false false rest)
  | '\x27' :: '\x27' :: '\x27' :: rest => asString (literalBody? true (skipLineFeed rest))
  | '\x27' :: rest => asString (literalBody? false rest)
  | _ => none

/-- Whether a character can stand in a key without quotes: an ASCII letter or digit, a `_` or a
`-`. -/
def isBare (c : Char) : Bool := c.isAlphanum || c = '_' || c = '-'

/-- One part of a key, and what follows it. -/
def keyPart? : List Char → Option (String × List Char)
  | '"' :: rest => asString (quotedBody? false false rest)
  | '\x27' :: rest => asString (literalBody? false rest)
  | cs =>
    match cs.takeWhile isBare with
    | [] => none
    | part => some (String.ofList part, cs.dropWhile isBare)

/-- A key of at most the given number of parts, with blanks around it, and what follows it. -/
def keyOf? : Nat → List Char → Option (TomlKey × List Char)
  | 0, _ => none
  | parts + 1, cs => do
    let (part, rest) ← keyPart? (skipBlanks cs)
    match skipBlanks rest with
    | '.' :: rest =>
      let (key, rest) ← keyOf? parts rest
      return (⟨part :: key.path, key.name⟩, rest)
    | rest => return (⟨[], part⟩, rest)

/-- How many parts a key may have. -/
def maxKeyParts : Nat := 79

/-- A key with blanks around it, and what follows it. -/
def key? (cs : List Char) : Option (TomlKey × List Char) := keyOf? maxKeyParts cs

end Toml

end AnalysisCache
