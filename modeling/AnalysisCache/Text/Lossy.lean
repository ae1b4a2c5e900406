import AnalysisCache.Text.Bytes

/-!
# Showing bytes that need not be text

A file name is shown as text even if it is no UTF-8. Well-formed characters are shown as they are,
and each longest run of bytes that begins a character without completing one is shown as U+FFFD.
-/

namespace AnalysisCache

namespace Bytes

/-- The first piece of a non-empty sequence of bytes: a whole character, or a broken one. -/
inductive Piece where
  | char (c : Char) (rest : Bytes)
  | broken (rest : Bytes)

/-- The value of a continuation byte, which is `10xxxxxx`. -/
def continuation? (b : UInt8) : Option Nat :=
  if 0x80 ≤ b ∧ b ≤ 0xBF then some (b.toNat - 0x80) else none

/-- The bytes that may follow a first byte. The narrow ranges after `E0`, `ED`, `F0` and `F4` leave
out longer spellings than needed, surrogates, and values past the last code point. -/
def mayFollow (first second : UInt8) : Bool :=
  if first = 0xE0 then 0xA0 ≤ second && second ≤ 0xBF
  else if first = 0xED then 0x80 ≤ second && second ≤ 0x9F
  else if first = 0xF0 then 0x90 ≤ second && second ≤ 0xBF
  else if first = 0xF4 then 0x80 ≤ second && second ≤ 0x8F
  else 0x80 ≤ second && second ≤ 0xBF

/-- Goes on with a character of which `value` is known and `more` bytes are missing. -/
def finishPiece : Nat → Nat → Bytes → Piece
  | 0, value, rest => .char (Char.ofNat value) rest
  | _ + 1, _, [] => .broken []
  | more + 1, value, b :: rest =>
    match continuation? b with
    | some low => finishPiece more (value * 64 + low) rest
    | none => .broken (b :: rest)

/-- A character of `more + 2` bytes of which the first byte is given. -/
def longPiece (more : Nat) (first : UInt8) (value : Nat) : Bytes → Piece
  | [] => .broken []
  | b :: rest =>
    if mayFollow first b then finishPiece more (value * 64 + (b.toNat - 0x80)) rest
    else .broken (b :: rest)

/-- The piece that starts with the given byte. -/
def piece (first : UInt8) (rest : Bytes) : Piece :=
  if first < 0x80 then .char (Char.ofNat first.toNat) rest
  else if 0xC2 ≤ first ∧ first ≤ 0xDF then longPiece 0 first (first.toNat - 0xC0) rest
  else if 0xE0 ≤ first ∧ first ≤ 0xEF then longPiece 1 first (first.toNat - 0xE0) rest
  else if 0xF0 ≤ first ∧ first ≤ 0xF4 then longPiece 2 first (first.toNat - 0xF0) rest
  else .broken rest

/-- Each piece takes at least one byte, so as many steps as there are bytes suffice. -/
def lossyChars : Nat → Bytes → List Char
  | 0, _ => []
  | _ + 1, [] => []
  | fuel + 1, b :: r =>
    match piece b r with
    | .char c rest => c :: lossyChars fuel rest
    | .broken rest => '\uFFFD' :: lossyChars fuel rest

/-- The bytes as text, with U+FFFD for what is no UTF-8. -/
def lossy (b : Bytes) : String :=
  match b.text? with
  | some s => s
  | none => String.ofList (lossyChars b.length b)

@[simp] theorem lossy_ofText (s : String) : lossy (ofText s) = s := by
  simp [lossy]

end Bytes

end AnalysisCache
