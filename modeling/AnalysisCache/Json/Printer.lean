import AnalysisCache.Json.Basic
import AnalysisCache.Text.Digits
import AnalysisCache.Text.Hex

/-!
# Writing JSON

There are two layouts. The compact one has no blanks. The other puts each item and each member on a
line of its own, indented by two blanks for each level, and a blank after each colon.

In strings, quotes, backslashes and control characters are escaped, and nothing else is.
-/

namespace AnalysisCache

namespace Json

inductive Layout where
  | compact
  | indented
deriving DecidableEq

namespace Layout

/-- What stands before an item, a member or a closing bracket at the given level. -/
def lineBreak : Layout → Nat → List Char
  | .compact, _ => []
  | .indented, level => '\n' :: List.replicate (2 * level) ' '

def colon : Layout → List Char
  | .compact => [':']
  | .indented => [':', ' ']

end Layout

/-- How a character stands in a string. -/
def escapeChar (c : Char) : List Char :=
  if c = '"' then ['\\', '"']
  else if c = '\\' then ['\\', '\\']
  else if c = '\x08' then ['\\', 'b']
  else if c = '\x0c' then ['\\', 'f']
  else if c = '\n' then ['\\', 'n']
  else if c = '\r' then ['\\', 'r']
  else if c = '\t' then ['\\', 't']
  else if c.toNat < 0x20 then
    ['\\', 'u', '0', '0', Hex.digit (c.toNat / 16), Hex.digit (c.toNat % 16)]
  else [c]

def renderString (s : String) : List Char := '"' :: (s.toList.flatMap escapeChar ++ ['"'])

def renderInt : Int → List Char
  | .ofNat n => Digits.decimal n
  | .negSucc n => '-' :: Digits.decimal (n + 1)

def renderNumber : JsonNumber → List Char
  | .natural n => Digits.decimal n
  | .negative n => '-' :: Digits.decimal n
  | .decimal d =>
    (if d.negative then ['-'] else []) ++ Digits.decimal d.significand ++ 'e' ::
      renderInt d.exponent

mutual

/-- The text of a value that stands at the given level. -/
def render (layout : Layout) (level : Nat) : Json → List Char
  | .null => ['n', 'u', 'l', 'l']
  | .bool true => ['t', 'r', 'u', 'e']
  | .bool false => ['f', 'a', 'l', 's', 'e']
  | .number n => renderNumber n
  | .string s => renderString s
  | .array [] => ['[', ']']
  | .array (v :: rest) =>
    '[' :: (layout.lineBreak (level + 1) ++ render layout (level + 1) v ++
      renderItems layout (level + 1) rest ++ layout.lineBreak level ++ [']'])
  | .object [] => ['{', '}']
  | .object ((name, v) :: rest) =>
    '{' :: (layout.lineBreak (level + 1) ++ renderString name ++ layout.colon ++
      render layout (level + 1) v ++ renderMembers layout (level + 1) rest ++
      layout.lineBreak level ++ ['}'])

/-- The text of the items after the first. -/
def renderItems (layout : Layout) (level : Nat) : List Json → List Char
  | [] => []
  | v :: rest =>
    ',' :: (layout.lineBreak level ++ render layout level v ++ renderItems layout level rest)

/-- The text of the members after the first. -/
def renderMembers (layout : Layout) (level : Nat) : List (String × Json) → List Char
  | [] => []
  | (name, v) :: rest =>
    ',' :: (layout.lineBreak level ++ renderString name ++ layout.colon ++ render layout level v ++
      renderMembers layout level rest)

end

/-- The text of a document. -/
def text (layout : Layout) (v : Json) : String := String.ofList (render layout 0 v)

end Json

end AnalysisCache
