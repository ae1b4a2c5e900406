import AnalysisCache.Toml.Value

/-!
# TOML documents

A document consists of statements, each in a line of its own: headers and assignments. An assignment
is made in the table of the last header before it, or in the root. A line ends with a line feed, or
with a carriage return and a line feed. A byte order mark may come first.

* `TomlTable.ofStatements`: what the statements add up to, if each of them is allowed.
-/

namespace AnalysisCache

inductive TomlStatement where
  /-- A header. -/
  | table (key : TomlKey)
  /-- The header of an element of an array of tables. -/
  | element (key : TomlKey)
  | assignment (key : TomlKey) (v : Toml)

namespace TomlKey

/-- The path to the table that the key names. -/
def fullPath (key : TomlKey) : List String := key.path ++ [key.name]

end TomlKey

namespace TomlTable

/-- Adds what the statements say to a table, of which the last header led to the given path. -/
def extend : List String → TomlTable → List TomlStatement → Option TomlTable
  | _, t, [] => some t
  | _, t, .table key :: rest =>
    match t.openTable key with
    | none => none
    | some t => extend key.fullPath t rest
  | _, t, .element key :: rest =>
    match t.openElement key with
    | none => none
    | some t => extend key.fullPath t rest
  | path, t, .assignment key v :: rest =>
    match t.change .implied (fun _ t => t.assign key v) path .header with
    | none => none
    | some t => extend path t rest

def ofStatements (statements : List TomlStatement) : Option TomlTable := extend [] [] statements

end TomlTable

namespace Toml

/-- Writes each line end as a line feed. -/
def unifyLines : List Char → List Char
  | '\r' :: '\n' :: rest => '\n' :: unifyLines rest
  | c :: rest => c :: unifyLines rest
  | [] => []

/-- What follows the end of a line, before which there may be blanks and a comment. -/
def afterLine? (cs : List Char) : Option (List Char) :=
  let unread :=
    match skipBlanks cs with
    | '#' :: rest => rest.dropWhile isPlain
    | rest => rest
  match unread with
  | [] => some []
  | '\n' :: rest => some rest
  | _ => none

/-- A statement, and what follows its line. -/
def statement? (cs : List Char) : Option (TomlStatement × List Char) :=
  match cs with
  | '[' :: '[' :: rest => do
    let (key, rest) ← key? rest
    let rest ← Chars.after? [']', ']'] rest
    return (.element key, ← afterLine? rest)
  | '[' :: rest => do
    let (key, rest) ← key? rest
    let rest ← Chars.after? [']'] rest
    return (.table key, ← afterLine? rest)
  | _ => do
    let (key, rest) ← key? cs
    let rest ← Chars.after? ['='] rest
    let (v, rest) ← value? (skipBlanks rest)
    return (.assignment key v, ← afterLine? rest)

/-- The statements in some lines. Each line takes a character, so the number of characters is fuel
enough. -/
def statements? : Nat → List Char → Option (List TomlStatement)
  | 0, _ => some []
  | fuel + 1, cs =>
    match skipBlanks cs with
    | [] => some []
    | c :: rest =>
      if c = '\n' ∨ c = '#' then (afterLine? (c :: rest)).bind (statements? fuel)
      else
        match statement? (c :: rest) with
        | none => none
        | some (s, rest) => (statements? fuel rest).map (s :: ·)

/-- Leaves out a byte order mark. -/
def skipMark : List Char → List Char
  | '\ufeff' :: rest => rest
  | cs => cs

/-- The table that a document describes. -/
def parse? (s : String) : Option TomlTable :=
  let cs := unifyLines (skipMark s.toList)
  (statements? (cs.length + 1) cs).bind TomlTable.ofStatements

end Toml

end AnalysisCache
