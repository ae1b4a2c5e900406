import AnalysisCache.Text.Bytes
import Mathlib.Data.List.Basic

/-!
# Parts of texts

Text is written character by character, and no character's bytes begin those of another one. Nor is
a slash, or any other ASCII byte, part of a longer character.

* `Bytes.toList_prefix_of_ofText`: bytes that are text and begin those of a text begin that text.
* `Bytes.isText_append_slash`: bytes on both sides of a slash are text if the whole is.
-/

namespace AnalysisCache

namespace Bytes

@[simp] theorem ofText_append (s t : String) : ofText (s ++ t) = ofText s ++ ofText t := by
  simp [ofText]

theorem ofText_inj {s t : String} : ofText s = ofText t ↔ s = t := by
  rw [← text?_eq_some_iff, text?_ofText, Option.some.injEq]

theorem toList_prefix_of_ofText {s t : String} (h : ofText s <+: ofText t) :
    s.toList <+: t.toList := by
  obtain ⟨more, hMore⟩ := h
  refine List.isPrefix_of_utf8Encode_append_eq_utf8Encode more.toByteArray ?_
  rw [String.utf8Encode_toList, String.utf8Encode_toList]
  apply ByteArray.ext
  apply Array.ext'
  rw [← show ofText t = t.toByteArray.data.toList from rfl, ← hMore]
  simp [ofText]

/-! ## Texts with a slash -/

theorem ofText_ofList (cs : List Char) :
    ofText (String.ofList cs) = cs.flatMap String.utf8EncodeChar := by
  rw [ofText, String.toByteArray_ofList, List.utf8Encode]
  simp

/-- All bytes of a longer character have their highest bit set. -/
theorem eq_slash_of_mem {c : Char} (h : 0x2F ∈ String.utf8EncodeChar c) : c = '/' := by
  have hByte : ∀ n : Nat, (0x2F : UInt8) = UInt8.ofNat n → n % 256 = 47 := by
    intro n hn
    exact (congrArg UInt8.toNat hn).symm
  simp only [String.utf8EncodeChar] at h
  split at h
  · have hValue := hByte _ (List.mem_singleton.1 h)
    apply Char.ext
    apply UInt32.toNat_inj.1
    show c.val.toNat = 47
    omega
  · split at h
    · simp only [List.mem_cons, List.not_mem_nil, or_false] at h
      rcases h with h | h <;> have hValue := hByte _ h <;> omega
    · split at h
      · simp only [List.mem_cons, List.not_mem_nil, or_false] at h
        rcases h with h | h | h <;> have hValue := hByte _ h <;> omega
      · simp only [List.mem_cons, List.not_mem_nil, or_false] at h
        rcases h with h | h | h | h <;> have hValue := hByte _ h <;> omega

theorem slash_mem_ofText_iff {s : String} : 0x2F ∈ ofText s ↔ '/' ∈ s.toList := by
  rw [← String.ofList_toList (s := s), ofText_ofList, String.toList_ofList, List.mem_flatMap]
  constructor
  · rintro ⟨c, hc, hSlash⟩
    rwa [← eq_slash_of_mem hSlash]
  · intro h
    exact ⟨'/', h, by decide⟩

/-- A slash in the bytes of some characters is one of them. -/
theorem exists_slash_of_flatMap {cs : List Char} {b c : Bytes}
    (h : cs.flatMap String.utf8EncodeChar = b ++ 0x2F :: c) :
    ∃ ds es : List Char, b = ds.flatMap String.utf8EncodeChar ∧
      c = es.flatMap String.utf8EncodeChar := by
  induction cs generalizing b with
  | nil => cases b <;> cases h
  | cons x rest ih =>
    rw [List.flatMap_cons, List.append_eq_append_iff] at h
    rcases h with ⟨b', rfl, hRest⟩ | ⟨tail, hFirst, hTail⟩
    · obtain ⟨ds, es, rfl, hc⟩ := ih hRest
      exact ⟨x :: ds, es, rfl, hc⟩
    · cases tail with
      | nil =>
        obtain ⟨ds, es, hds, hc⟩ := ih (b := []) hTail.symm
        refine ⟨x :: ds, es, ?_, hc⟩
        rw [List.flatMap_cons, ← hds, hFirst, List.append_nil, List.append_nil]
      | cons y tail =>
        obtain ⟨rfl, rfl⟩ := List.cons.inj hTail
        have hx : x = '/' := by
          apply eq_slash_of_mem
          rw [hFirst]
          exact List.mem_append_right b List.mem_cons_self
        subst hx
        obtain ⟨rfl, rfl⟩ : b = [] ∧ tail = [] := by
          have hLength := congrArg List.length hFirst
          rw [List.length_append, List.length_cons] at hLength
          have hOne : (String.utf8EncodeChar '/').length = 1 := rfl
          constructor
          · exact List.eq_nil_of_length_eq_zero (by omega)
          · exact List.eq_nil_of_length_eq_zero (by omega)
        exact ⟨[], rest, rfl, rfl⟩

def IsText (b : Bytes) : Prop := ∃ s, b.text? = some s

theorem isText_ofText (s : String) : IsText (ofText s) := ⟨s, text?_ofText s⟩

theorem isText_append_slash {b c : Bytes} : IsText (b ++ 0x2F :: c) ↔ b.IsText ∧ c.IsText := by
  constructor
  · rintro ⟨s, hs⟩
    rw [text?_eq_some_iff, ← String.ofList_toList (s := s), ofText_ofList] at hs
    obtain ⟨ds, es, rfl, rfl⟩ := exists_slash_of_flatMap hs.symm
    rw [← ofText_ofList, ← ofText_ofList]
    exact ⟨isText_ofText _, isText_ofText _⟩
  · rintro ⟨⟨s, hs⟩, u, hu⟩
    rw [text?_eq_some_iff] at hs hu
    have hWhole : b ++ 0x2F :: c = ofText (s ++ "/" ++ u) := by
      rw [ofText_append, ofText_append, hs, hu, List.append_assoc]
      rfl
    rw [hWhole]
    exact isText_ofText _

end Bytes

end AnalysisCache
