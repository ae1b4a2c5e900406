/-!
# Bytes and text

File contents and file names are finite sequences of bytes. A text stands for its UTF-8 bytes, and
a sequence of bytes is a text exactly if it is well-formed UTF-8.

* `Bytes.text?_ofText`: reading back what a text was written as gives the text.
* `Bytes.ofText_of_text?`: only the written form of a text reads as that text.
-/

namespace AnalysisCache

abbrev Bytes := List UInt8

namespace Bytes

/-- The UTF-8 bytes of a text. -/
def ofText (s : String) : Bytes := s.toByteArray.data.toList

/-- The text that the bytes are the UTF-8 form of, if there is one. -/
def text? (b : Bytes) : Option String := String.fromUTF8? b.toByteArray

theorem toByteArray_ofText (s : String) : (ofText s).toByteArray = s.toByteArray := by
  apply ByteArray.ext
  simp [ofText]

@[simp] theorem text?_ofText (s : String) : text? (ofText s) = some s := by
  simp only [text?, toByteArray_ofText, String.fromUTF8?, s.isValidUTF8, dite_true]
  rfl

theorem ofText_of_text? {b : Bytes} {s : String} (h : text? b = some s) : ofText s = b := by
  simp only [text?, String.fromUTF8?] at h
  split at h
  · simp only [Option.some.injEq] at h
    subst h
    show b.toByteArray.data.toList = b
    simp
  · simp at h

theorem text?_eq_some_iff {b : Bytes} {s : String} : text? b = some s ↔ b = ofText s :=
  ⟨fun h => (ofText_of_text? h).symm, fun h => h ▸ text?_ofText s⟩

end Bytes

end AnalysisCache
