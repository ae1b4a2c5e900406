import AnalysisCache.Digest.Basic
import AnalysisCache.Proofs.Text.Bytes

/-!
# Digests as text

A digest and its text say the same. What is read is what is written, apart from the case of letters,
and the order of digests is that of the bytes of their texts, since the sixteen digits stand in the
order of their values.

* `Hex.decode?_eq_some_iff`: digits are read as the bytes that are written as they are, in lower
  case.
* `Hex.compare_ofText_encode`: bytes are ordered as their hexadecimal texts.
* `Digest.parse_eq_ok_iff_spells`: exactly the spellings of digests are read.
-/

namespace AnalysisCache

namespace Hex

/-- The hexadecimal digits, with the letters in both cases. -/
def digits : List Char := "0123456789abcdefABCDEF".toList

/-! ## What is read -/

theorem digitValue?_of_mem : ∀ c ∈ digits, ∃ n : Fin 16,
    digitValue? c = some n.val ∧ digit n.val = c.toLower := by
  have hAll : digits.all fun c => decide (∃ n : Fin 16,
    digitValue? c = some n.val ∧ digit n.val = c.toLower) := by decide
  exact fun c hc => of_decide_eq_true (List.all_eq_true.1 hAll c hc)

theorem digitValue?_toLower : ∀ c ∈ digits, digitValue? c.toLower = digitValue? c := by
  have hAll : digits.all fun c => decide (digitValue? c.toLower = digitValue? c) := by decide
  exact fun c hc => of_decide_eq_true (List.all_eq_true.1 hAll c hc)

theorem mem_digits_of_le {c : Char} (low count : Nat)
    (hRange : low ≤ c.toNat ∧ c.toNat < low + count)
    (hDigits : ∀ i : Fin count, Char.ofNat (low + i.val) ∈ digits) : c ∈ digits := by
  have hDigit := hDigits ⟨c.toNat - low, by omega⟩
  rwa [show low + (c.toNat - low) = c.toNat by omega, Char.ofNat_toNat] at hDigit

theorem mem_digits_of_digitValue? {c : Char} {n : Nat} (h : digitValue? c = some n) :
    c ∈ digits := by
  have hRange : ∀ {a b : Char}, a ≤ c → c ≤ b → a.toNat ≤ c.toNat ∧ c.toNat ≤ b.toNat :=
    fun ha hb => ⟨UInt32.le_iff_toNat_le.1 ha, UInt32.le_iff_toNat_le.1 hb⟩
  rw [digitValue?] at h
  split at h
  · rename_i hc
    obtain ⟨hLow, hHigh⟩ := hRange hc.1 hc.2
    exact mem_digits_of_le 48 10 ⟨hLow, Nat.lt_succ_of_le hHigh⟩ (by decide)
  · split at h
    · rename_i hc
      obtain ⟨hLow, hHigh⟩ := hRange hc.1 hc.2
      exact mem_digits_of_le 97 6 ⟨hLow, Nat.lt_succ_of_le hHigh⟩ (by decide)
    · split at h
      · rename_i hc
        obtain ⟨hLow, hHigh⟩ := hRange hc.1 hc.2
        exact mem_digits_of_le 65 6 ⟨hLow, Nat.lt_succ_of_le hHigh⟩ (by decide)
      · cases h

theorem mem_digits_of_decode? {cs : List Char} {b : Bytes} (h : decode? cs = some b) :
    ∀ c ∈ cs, c ∈ digits := by
  fun_induction decode? cs generalizing b with
  | case1 => exact List.forall_mem_nil _
  | case2 => cases h
  | case3 x y rest ih =>
    simp only [Option.bind_eq_bind, Option.bind_eq_some_iff] at h
    obtain ⟨_, hHigh, _, hLow, _, hRest, _⟩ := h
    rw [List.forall_mem_cons, List.forall_mem_cons]
    exact ⟨mem_digits_of_digitValue? hHigh, mem_digits_of_digitValue? hLow, ih hRest⟩

/-- Letters of both cases are read alike. -/
theorem decode?_map_toLower {cs : List Char} (h : ∀ c ∈ cs, c ∈ digits) :
    decode? (cs.map Char.toLower) = decode? cs := by
  fun_induction decode? cs with
  | case1 => rfl
  | case2 => rfl
  | case3 x y rest ih =>
    rw [List.forall_mem_cons, List.forall_mem_cons] at h
    obtain ⟨hx, hy, hRest⟩ := h
    rw [List.map_cons, List.map_cons, decode?, digitValue?_toLower x hx, digitValue?_toLower y hy,
      ih hRest]

/-- Digits of two to a byte are read. -/
theorem exists_decode? {cs : List Char} {n : Nat} (h : ∀ c ∈ cs, c ∈ digits)
    (hLength : cs.length = 2 * n) : ∃ b, decode? cs = some b := by
  fun_induction decode? cs generalizing n with
  | case1 => exact ⟨[], rfl⟩
  | case2 => simp only [List.length_singleton] at hLength; omega
  | case3 x y rest ih =>
    rw [List.forall_mem_cons, List.forall_mem_cons] at h
    obtain ⟨hx, hy, hRest⟩ := h
    obtain ⟨high, hHigh, _⟩ := digitValue?_of_mem x hx
    obtain ⟨low, hLow, _⟩ := digitValue?_of_mem y hy
    simp only [List.length_cons] at hLength
    obtain ⟨b, hb⟩ := ih (n := n - 1) hRest (by omega)
    exact ⟨_, by rw [hHigh, hLow, hb]; rfl⟩

theorem encodeByte_ofNat {high low : Nat} (hHigh : high < 16) (hLow : low < 16) :
    encodeByte (UInt8.ofNat (16 * high + low)) = [digit high, digit low] := by
  have hByte : (UInt8.ofNat (16 * high + low)).toNat = 16 * high + low :=
    Nat.mod_eq_of_lt (by omega)
  rw [encodeByte, hByte, show (16 * high + low) / 16 = high by omega,
    show (16 * high + low) % 16 = low by omega]

theorem encode_of_decode? {cs : List Char} {b : Bytes} (h : decode? cs = some b) :
    encode b = cs.map Char.toLower := by
  have hDigits := mem_digits_of_decode? h
  fun_induction decode? cs generalizing b with
  | case1 =>
    cases h
    rfl
  | case2 => cases h
  | case3 x y rest ih =>
    rw [List.forall_mem_cons, List.forall_mem_cons] at hDigits
    obtain ⟨high, hHigh, hx⟩ := digitValue?_of_mem x hDigits.1
    obtain ⟨low, hLow, hy⟩ := digitValue?_of_mem y hDigits.2.1
    simp only [hHigh, hLow, Option.bind_eq_bind, Option.bind_some, Option.bind_eq_some_iff,
      Option.pure_def, Option.some.injEq] at h
    obtain ⟨more, hMore, rfl⟩ := h
    have hRest : more.flatMap encodeByte = rest.map Char.toLower := ih hMore hDigits.2.2
    rw [encode, List.flatMap_cons, encodeByte_ofNat high.isLt low.isLt, hRest, hx, hy]
    rfl

/-- What is read of some digits is what they are the text of, once they are in lower case. -/
theorem decode?_eq_some_iff {cs : List Char} {b : Bytes} :
    decode? cs = some b ↔ (∀ c ∈ cs, c ∈ digits) ∧ encode b = cs.map Char.toLower := by
  constructor
  · intro h
    exact ⟨mem_digits_of_decode? h, encode_of_decode? h⟩
  · rintro ⟨hDigits, hText⟩
    rw [← decode?_map_toLower hDigits, ← hText, decode?_encode]

/-! ## The order of texts -/

/-- The byte that the digit of a value is written as. -/
def digitByte (n : Nat) : UInt8 := if n < 10 then UInt8.ofNat (48 + n) else UInt8.ofNat (87 + n)

theorem utf8EncodeChar_digit : ∀ n : Fin 16,
    String.utf8EncodeChar (digit n.val) = [digitByte n.val] := by
  decide

theorem compare_digitByte : ∀ n m : Fin 16,
    compare (digitByte n.val) (digitByte m.val) = compare n.val m.val := by
  decide

theorem ofText_encode_cons (x : UInt8) (rest : Bytes) :
    Bytes.ofText (String.ofList (encode (x :: rest))) = digitByte (x.toNat / 16) ::
      digitByte (x.toNat % 16) :: Bytes.ofText (String.ofList (encode rest)) := by
  have hx := x.toNat_lt
  have hHigh := utf8EncodeChar_digit ⟨x.toNat / 16, by omega⟩
  have hLow := utf8EncodeChar_digit ⟨x.toNat % 16, by omega⟩
  rw [Bytes.ofText_ofList, Bytes.ofText_ofList, encode, List.flatMap_cons, List.flatMap_append,
    encodeByte, List.flatMap_cons, List.flatMap_singleton, hHigh, hLow]
  rfl

/-- Bytes are compared by their high halves and then by their low ones. -/
theorem compare_byte (x y : UInt8) : compare x y =
    (compare (x.toNat / 16) (y.toNat / 16)).then (compare (x.toNat % 16) (y.toNat % 16)) := by
  have hByte : compare x y = compare x.toNat y.toNat := by
    rw [show compare x y = compareOfLessAndEq x y from rfl,
      show compare x.toNat y.toNat = compareOfLessAndEq x.toNat y.toNat from rfl,
      compareOfLessAndEq, compareOfLessAndEq]
    simp only [UInt8.lt_iff_toNat_lt, ← UInt8.toNat_inj]
  rw [hByte, Nat.compare_eq_ite_lt, Nat.compare_eq_ite_lt, Nat.compare_eq_ite_lt]
  rcases Nat.lt_trichotomy (x.toNat / 16) (y.toNat / 16) with hHigh | hHigh | hHigh
  · rw [if_pos (by omega), if_pos hHigh]
    rfl
  · rw [if_neg (by omega : ¬ x.toNat / 16 < y.toNat / 16),
      if_neg (by omega : ¬ y.toNat / 16 < x.toNat / 16)]
    have hLess : x.toNat < y.toNat ↔ x.toNat % 16 < y.toNat % 16 := by omega
    have hMore : y.toNat < x.toNat ↔ y.toNat % 16 < x.toNat % 16 := by omega
    simp only [hLess, hMore, Ordering.then]
  · rw [if_neg (by omega), if_pos (by omega), if_neg (by omega : ¬ x.toNat / 16 < y.toNat / 16),
      if_pos hHigh]
    rfl

/-- Bytes stand in the order of their hexadecimal texts. -/
theorem compare_ofText_encode (a b : Bytes) :
    compare (Bytes.ofText (String.ofList (encode a))) (Bytes.ofText (String.ofList (encode b))) =
      compare a b := by
  induction a generalizing b with
  | nil =>
    cases b with
    | nil => rfl
    | cons y rest =>
      rw [ofText_encode_cons]
      rfl
  | cons x more ih =>
    cases b with
    | nil =>
      rw [ofText_encode_cons]
      rfl
    | cons y rest =>
      have hx := x.toNat_lt
      have hy := y.toNat_lt
      have hHigh := compare_digitByte ⟨x.toNat / 16, by omega⟩ ⟨y.toNat / 16, by omega⟩
      have hLow := compare_digitByte ⟨x.toNat % 16, by omega⟩ ⟨y.toNat % 16, by omega⟩
      rw [ofText_encode_cons, ofText_encode_cons, List.compare_cons_cons, List.compare_cons_cons,
        List.compare_cons_cons, ih, hHigh, hLow, compare_byte, Ordering.then_assoc]

end Hex

namespace Digest

/-- Whether a text is 64 hexadecimal digits, in whatever case. -/
structure Spells (s : String) : Prop where
  length : s.toList.length = 64
  digits : ∀ c ∈ s.toList, c ∈ Hex.digits

theorem parse_eq_ok_iff {s : String} {d : Digest} :
    parse s = .ok d ↔ Hex.decode? s.toList = some d.bytes := by
  obtain ⟨b, hb⟩ := d
  rw [parse]
  cases hDecode : Hex.decode? s.toList with
  | none => simp
  | some c =>
    dsimp only
    split
    · simp only [Except.ok.injEq, mk.injEq, Option.some.injEq]
    · rename_i hLength
      simp only [reduceCtorEq, false_iff, Option.some.injEq]
      rintro rfl
      exact hLength hb

/-- What is read is spelled as the text of the digest, but for the case. -/
theorem parse_eq_ok_iff_spells {s : String} {d : Digest} :
    parse s = .ok d ↔ Spells s ∧ d.toText = s.toLower := by
  have hText : d.toText = s.toLower ↔ Hex.encode d.bytes = s.toList.map Char.toLower := by
    rw [toText, show s.toLower = s.map Char.toLower from rfl, ← String.toList_inj,
      String.toList_ofList, String.toList_map]
  rw [parse_eq_ok_iff, hText]
  constructor
  · intro h
    obtain ⟨hDigits, hEncode⟩ := Hex.decode?_eq_some_iff.1 h
    refine ⟨⟨?_, hDigits⟩, hEncode⟩
    rw [Hex.length_of_decode? h, d.length_eq]
  · rintro ⟨hSpells, hEncode⟩
    exact Hex.decode?_eq_some_iff.2 ⟨hSpells.digits, hEncode⟩

theorem exists_parse_iff {s : String} : (∃ d, parse s = .ok d) ↔ Spells s := by
  constructor
  · rintro ⟨d, h⟩
    exact (parse_eq_ok_iff_spells.1 h).1
  · intro h
    obtain ⟨b, hb⟩ := Hex.exists_decode? (n := 32) h.digits h.length
    have hLength : b.length = 32 := by
      have hTwice := Hex.length_of_decode? hb
      rw [h.length] at hTwice
      omega
    exact ⟨⟨b, hLength⟩, parse_eq_ok_iff.2 hb⟩

/-- What is not read is named by the error. -/
theorem eq_of_parse_error {s : String} {e : ParseError} (h : parse s = .error e) : e = ⟨s⟩ := by
  rw [parse] at h
  split at h
  · split at h
    · cases h
    · cases h
      rfl
  · cases h
    rfl

theorem parse_eq_error_iff {s : String} {e : ParseError} :
    parse s = .error e ↔ ¬ Spells s ∧ e = ⟨s⟩ := by
  constructor
  · intro h
    refine ⟨fun hSpells => ?_, eq_of_parse_error h⟩
    obtain ⟨d, hd⟩ := exists_parse_iff.2 hSpells
    rw [h] at hd
    cases hd
  · rintro ⟨hNot, rfl⟩
    cases hParse : parse s with
    | ok d => exact absurd (exists_parse_iff.1 ⟨d, hParse⟩) hNot
    | error e => rw [eq_of_parse_error hParse]

theorem compare_eq_compare_toText (d e : Digest) :
    compare d e = compare (Bytes.ofText d.toText) (Bytes.ofText e.toText) :=
  (Hex.compare_ofText_encode d.bytes e.bytes).symm

/-- A digest is read from its text. Exactly the texts of 64 hexadecimal digits are read, each as the
digest of which it is the text in lower case, and any other text is named by the error. The order of
digests is that of the bytes of their texts, so that sorting either sorts the other. -/
theorem text_faithful :
    (∀ d : Digest, parse d.toText = .ok d) ∧
    (∀ s, (∃ d, parse s = .ok d) ↔ Spells s) ∧
    (∀ s d, parse s = .ok d ↔ Spells s ∧ d.toText = s.toLower) ∧
    (∀ s e, parse s = .error e ↔ ¬ Spells s ∧ e = ⟨s⟩) ∧
    (∀ d e : Digest, compare d e = compare (Bytes.ofText d.toText) (Bytes.ofText e.toText)) ∧
    ∀ ds : List Digest, (ds.mergeSort fun d e => (compare d e).isLE).map toText =
      (ds.map toText).mergeSort fun s u => (compare (Bytes.ofText s) (Bytes.ofText u)).isLE := by
  refine ⟨parse_toText, fun _ => exists_parse_iff, fun _ _ => parse_eq_ok_iff_spells,
    fun _ _ => parse_eq_error_iff, compare_eq_compare_toText, fun ds => ?_⟩
  refine List.map_mergeSort fun d _ e _ => ?_
  rw [compare_eq_compare_toText]

end Digest

end AnalysisCache
