import AnalysisCache.Digest.Basic

/-!
# Line ends and digests

The digest of a source text is that of the text with its line ends as `\n`, so that it does not tell
`\r\n` from `\n`. The text is never built: chunk after chunk is cut out of the content between two
positions, which are in range every time.

* `Digest.ofSource_eq`: of what the digest is taken.
* `Bytes.unixLines_eq`: which bytes that are.
* `Digest.cut?_range`: the chunks, cut out at positions.
* `Digest.ofSource_normalizes`: the digest of a content, and of one with other line ends.
-/

namespace AnalysisCache

/-- A content with `\n` in the place of each `\r\n`. -/
def Bytes.unixLines : Bytes → Bytes
  | 0x0D :: 0x0A :: rest => 0x0A :: unixLines rest
  | b :: rest => b :: unixLines rest
  | [] => []

open Bytes (unixLines)

theorem unixLines_cons {b : UInt8} {rest : Bytes} (h : ¬ (b = 0x0D ∧ rest.head? = some 0x0A)) :
    unixLines (b :: rest) = b :: unixLines rest := by
  rw [unixLines]
  rintro more rfl rfl
  exact h ⟨rfl, rfl⟩

/-! ## The bytes that stay -/

namespace Bytes

/-- A `\r` that is followed by a `\n` is left out. -/
theorem unixLines_return {rest : Bytes} (h : rest.head? = some 0x0A) :
    unixLines (0x0D :: rest) = unixLines rest := by
  obtain ⟨more, rfl⟩ := List.head?_eq_some_iff.1 h
  rw [unixLines, unixLines_cons (by simp)]

/-- Whether the byte at a position is a `\r` that a `\n` follows right away. -/
def IsReturn (content : Bytes) (i : Nat) : Prop :=
  content[i]? = some 0x0D ∧ content[i + 1]? = some 0x0A

instance (content : Bytes) (i : Nat) : Decidable (content.IsReturn i) :=
  inferInstanceAs (Decidable (_ ∧ _))

/-- The bytes of a content in their order, without each `\r` that a `\n` follows right away. -/
def withoutReturns (content : Bytes) : Bytes :=
  ((List.range content.length).filter fun i => ¬ content.IsReturn i).filterMap (content[·]?)

theorem withoutReturns_cons (b : UInt8) (rest : Bytes) :
    withoutReturns (b :: rest) =
      if b = 0x0D ∧ rest.head? = some 0x0A then withoutReturns rest
      else b :: withoutReturns rest := by
  have hFirst : IsReturn (b :: rest) 0 ↔ b = 0x0D ∧ rest.head? = some 0x0A := by
    rw [IsReturn, List.head?_eq_getElem?]
    simp
  have hRest : ∀ i, IsReturn (b :: rest) (i + 1) ↔ IsReturn rest i := fun i => by
    rw [IsReturn, IsReturn, List.getElem?_cons_succ, List.getElem?_cons_succ]
  rw [withoutReturns, withoutReturns, List.length_cons, List.range_succ_eq_map, List.filter_cons,
    List.filter_map]
  simp only [Function.comp_def, hRest, hFirst]
  by_cases hReturn : b = 0x0D ∧ rest.head? = some 0x0A
  · rw [if_neg (by simpa using hReturn), if_pos hReturn, List.filterMap_map]
    rfl
  · rw [if_pos (decide_eq_true hReturn), if_neg hReturn, List.filterMap_cons, List.filterMap_map]
    rfl

theorem unixLines_eq (content : Bytes) : unixLines content = withoutReturns content := by
  induction content with
  | nil => rfl
  | cons b rest ih =>
    rw [withoutReturns_cons, ← ih]
    split
    · rename_i h
      rw [h.1, unixLines_return h.2]
    · rename_i h
      exact unixLines_cons h

/-- A lone `\r` stays, at the end as well, and of two of them before a `\n` the first one does. -/
example : unixLines [0x0D, 0x61, 0x0D, 0x0D, 0x0A, 0x0D] = [0x0D, 0x61, 0x0D, 0x0A, 0x0D] := by
  decide

/-! ## Contents with either line end -/

/-- Two contents can be dealt with one after the other, unless a line end is cut in two. -/
theorem unixLines_append {x y : Bytes} (h : ¬ (x.getLast? = some 0x0D ∧ y.head? = some 0x0A)) :
    unixLines (x ++ y) = unixLines x ++ unixLines y := by
  induction x with
  | nil => rfl
  | cons b rest ih =>
    cases rest with
    | nil =>
      have hKept : ¬ (b = 0x0D ∧ y.head? = some 0x0A) := by simpa using h
      rw [List.cons_append, List.nil_append, unixLines_cons hKept, unixLines_cons (by simp)]
      rfl
    | cons c rest =>
      rw [List.getLast?_cons_cons] at h
      by_cases hReturn : b = 0x0D ∧ c = 0x0A
      · obtain ⟨rfl, rfl⟩ := hReturn
        rw [List.cons_append, unixLines_return rfl, unixLines_return rfl, ih h]
      · rw [List.cons_append, unixLines_cons (by simpa using hReturn),
          unixLines_cons (by simpa using hReturn), ih h, List.cons_append]

end Bytes

/-- A line of a text with its end, which is `\r\n` or `\n`. What ends in `\n` alone does not have a
`\r` right before it. -/
structure Line where
  text : Bytes
  hasReturn : Bool
  plain : hasReturn = false → text.getLast? ≠ some 0x0D

namespace Line

def bytes (l : Line) : Bytes := l.text ++ if l.hasReturn then [0x0D, 0x0A] else [0x0A]

theorem unixLines_bytes_append (l : Line) (rest : Bytes) :
    unixLines (l.bytes ++ rest) = unixLines l.text ++ 0x0A :: unixLines rest := by
  have hEnd : unixLines (0x0A :: rest) = 0x0A :: unixLines rest := unixLines_cons (by simp)
  rw [bytes, List.append_assoc]
  cases hReturn : l.hasReturn with
  | true =>
    rw [if_pos rfl, Bytes.unixLines_append (by simp), List.cons_append, List.cons_append,
      Bytes.unixLines_return rfl, List.nil_append, hEnd]
  | false =>
    rw [if_neg (by decide), Bytes.unixLines_append fun h => l.plain hReturn h.1, List.cons_append,
      List.nil_append, hEnd]

/-- Lines one after another, and what comes after the last line end. -/
def join (lines : List Line) (rest : Bytes) : Bytes := lines.flatMap bytes ++ rest

theorem unixLines_join (lines : List Line) (rest : Bytes) :
    unixLines (join lines rest) =
      ((lines.map text).flatMap fun x => unixLines x ++ [0x0A]) ++ unixLines rest := by
  induction lines with
  | nil => rfl
  | cons l more ih =>
    rw [join, List.flatMap_cons, List.append_assoc, unixLines_bytes_append, ← join, ih]
    simp

end Line

namespace Digest

theorem lineChunks_cons (chunk : Bytes) (b : UInt8) (rest : Bytes) :
    lineChunks chunk (b :: rest) =
      if b = 0x0D ∧ rest.head? = some 0x0A then chunk.reverse :: lineChunks [] rest
      else lineChunks (b :: chunk) rest := by
  cases rest with
  | nil =>
    rw [if_neg (by simp)]
    rfl
  | cons c rest => simp only [lineChunks, List.head?_cons, Option.some.injEq]

theorem flatten_lineChunks (chunk content : Bytes) :
    (lineChunks chunk content).flatten = chunk.reverse ++ unixLines content := by
  induction content generalizing chunk with
  | nil => simp [lineChunks, unixLines]
  | cons b rest ih =>
    rw [lineChunks_cons]
    split
    · rename_i h
      rw [List.flatten_cons, ih, h.1, Bytes.unixLines_return h.2]
      rfl
    · rename_i h
      rw [ih, unixLines_cons h, List.reverse_cons, List.append_assoc]
      rfl

/-- The digest of a source text is that of its bytes once all its lines end in `\n`. -/
theorem ofSource_eq (content : Bytes) : ofSource content = ofBytes (unixLines content) := by
  simp [ofSource, ofBytes, ofChunks, flatten_lineChunks]

/-! ## Chunks between positions -/

/-- The bytes from one position up to another one, if there are such positions. -/
def slice? (content : Bytes) (start stop : Nat) : Option Bytes :=
  if start ≤ stop ∧ stop ≤ content.length then some ((content.drop start).take (stop - start))
  else none

/-- Goes through some positions, and at each `\r` that a `\n` follows cuts out the chunk that ends
there. The current chunk begins at `start`. There is nothing if a position is out of range. -/
def cut? (content : Bytes) : Nat → List Nat → Option (List Bytes)
  | start, [] => do return [← slice? content start content.length]
  | start, i :: rest => do
    let b ← content[i]?
    if b = 0x0D ∧ content[i + 1]? = some 0x0A then
      let chunk ← slice? content start i
      return chunk :: (← cut? content (i + 1) rest)
    else cut? content start rest

theorem slice?_append {before : Bytes} {start : Nat} (h : start ≤ before.length) (rest : Bytes) :
    slice? (before ++ rest) start before.length = some (before.drop start) := by
  rw [slice?, if_pos ⟨h, by simp⟩, List.drop_append_of_le_length h, ← List.length_drop,
    List.take_left]

/-- The bytes before a position are dealt with, and the last of them are the current chunk. -/
theorem cut?_range' (before rest : Bytes) {start : Nat} (h : start ≤ before.length) :
    cut? (before ++ rest) start (List.range' before.length rest.length) =
      some (lineChunks (before.drop start).reverse rest) := by
  induction rest generalizing before start with
  | nil =>
    have hSlice := slice?_append h []
    rw [List.append_nil] at hSlice ⊢
    rw [List.length_nil, List.range'_zero, cut?, hSlice, lineChunks, List.reverse_reverse]
    rfl
  | cons b rest ih =>
    have hHere : (before ++ b :: rest)[before.length]? = some b := by simp
    have hNext : (before ++ b :: rest)[before.length + 1]? = rest.head? := by
      rw [List.getElem?_append_right (by omega), List.head?_eq_getElem?]
      simp
    have hRest : ∀ {start}, start ≤ before.length + 1 →
        cut? (before ++ b :: rest) start (List.range' (before.length + 1) rest.length) =
          some (lineChunks ((before ++ [b]).drop start).reverse rest) := by
      intro start hStart
      have hLength : (before ++ [b]).length = before.length + 1 := by simp
      rw [List.append_cons, ← hLength]
      exact ih (before ++ [b]) (hLength ▸ hStart)
    rw [List.length_cons, List.range'_succ, cut?, hHere, hNext, lineChunks_cons]
    dsimp only [Option.bind_eq_bind, Option.bind_some]
    split
    · rw [slice?_append h, hRest (Nat.le_refl _)]
      simp
    · rw [hRest (Nat.le_succ_of_le h), List.drop_append_of_le_length h]
      simp

/-- Every position is in range, and so is every slice. -/
theorem cut?_range (content : Bytes) :
    cut? content 0 (List.range content.length) = some (lineChunks [] content) := by
  rw [List.range_eq_range']
  exact cut?_range' [] content (Nat.le_refl 0)

/-- The digest of a source text is that of its bytes without each `\r` right before a `\n`. It is
taken of chunks that can be cut out of the content. For a content in lines it is that of all
contents in which the lines are the same, whichever way each of them ends. -/
theorem ofSource_normalizes (content : Bytes) :
    ofSource content = ofBytes content.withoutReturns ∧
    (∃ chunks, cut? content 0 (List.range content.length) = some chunks ∧
      ofSource content = ofChunks chunks) ∧
    ∀ (lines others : List Line) (rest : Bytes), content = Line.join lines rest →
      others.map Line.text = lines.map Line.text →
        ofSource (Line.join others rest) = ofSource content := by
  refine ⟨by rw [ofSource_eq, Bytes.unixLines_eq], ⟨_, cut?_range content, rfl⟩, ?_⟩
  rintro lines others rest rfl hText
  rw [ofSource_eq, ofSource_eq, Line.unixLines_join, Line.unixLines_join, hText]

/-- Two lines, of which the second one begins with a lone `\r`, and what follows them. -/
theorem ofSource_normalizes_mixed :
    ofSource [0x61, 0x0D, 0x0A, 0x0D, 0x62, 0x0A, 0x0D] =
      ofSource [0x61, 0x0A, 0x0D, 0x62, 0x0D, 0x0A, 0x0D] := by
  have hFirst : [(0x61 : UInt8)].getLast? ≠ some 0x0D := by decide
  have hSecond : [0x0D, (0x62 : UInt8)].getLast? ≠ some 0x0D := by decide
  obtain ⟨-, -, hLines⟩ := ofSource_normalizes [0x61, 0x0A, 0x0D, 0x62, 0x0D, 0x0A, 0x0D]
  exact hLines [⟨[0x61], false, fun _ => hFirst⟩, ⟨[0x0D, 0x62], true, fun _ => hSecond⟩]
    [⟨[0x61], true, fun _ => hFirst⟩, ⟨[0x0D, 0x62], false, fun _ => hSecond⟩] [0x0D] rfl rfl

end Digest

end AnalysisCache
