import AnalysisCache.Digest.Sha256
import AnalysisCache.Text.Hex

/-!
# Content digests

A file's content is identified by its SHA-256 digest. The digest of a source text does not see
whether a line ends in `\r\n` or in `\n`: each `\r` right before a `\n` is left out.

A digest is written as 64 lower-case hexadecimal digits, and exactly the texts of 64 hexadecimal
digits of either case are read as one.

* `Digest.parse_toText`: reading undoes writing.
-/

namespace AnalysisCache

/-- A SHA-256 digest. -/
structure Digest where
  bytes : Bytes
  length_eq : bytes.length = 32
deriving DecidableEq

namespace Digest

instance : Inhabited Digest := ⟨⟨List.replicate 32 0, rfl⟩⟩

/-- Digests are ordered as their bytes, the first byte counting most. -/
instance : Ord Digest := ⟨fun d e => compare d.bytes e.bytes⟩

/-- The digest of a content that arrives in chunks, which is that of the chunks laid end to end. -/
def ofChunks (chunks : List Bytes) : Digest := ⟨Sha256.digest chunks.flatten, by simp⟩

def ofBytes (content : Bytes) : Digest := ofChunks [content]

/-- Cuts a content before each `\n` that a `\r` precedes, and drops that `\r`. The first argument
is the current chunk so far, in reverse. -/
def lineChunks : Bytes → Bytes → List Bytes
  | chunk, [] => [chunk.reverse]
  | chunk, [b] => [(b :: chunk).reverse]
  | chunk, b :: c :: rest =>
    if b = 0x0D ∧ c = 0x0A then chunk.reverse :: lineChunks [] (c :: rest)
    else lineChunks (b :: chunk) (c :: rest)

/-- The digest of a source text, which counts `\r\n` as `\n`. -/
def ofSource (content : Bytes) : Digest := ofChunks (lineChunks [] content)

def toText (d : Digest) : String := String.ofList (Hex.encode d.bytes)

/-- The digest with its first two bytes alone. -/
def abbreviated (d : Digest) : String :=
  "ContentHash(" ++ String.ofList (Hex.encode (d.bytes.take 2)) ++ "..)"

/-- The text that is not a digest. -/
structure ParseError where
  text : String
deriving DecidableEq

def ParseError.message (e : ParseError) : String := "invalid content hash '" ++ e.text ++ "'"

/-- Reads 64 hexadecimal digits of either case. -/
def parse (s : String) : Except ParseError Digest :=
  match Hex.decode? s.toList with
  | some b => if h : b.length = 32 then .ok ⟨b, h⟩ else .error ⟨s⟩
  | none => .error ⟨s⟩

@[simp] theorem parse_toText (d : Digest) : parse d.toText = .ok d := by
  simp [parse, toText, d.length_eq]

end Digest

end AnalysisCache
