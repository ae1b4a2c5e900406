import AnalysisCache.Proofs.Json.Prefix
import AnalysisCache.Proofs.Snapshot.Encoding
import AnalysisCache.Proofs.Text.Bytes

/-!
# Cache files cut short

Writing the cache file may be broken off, which leaves a beginning of its text, perhaps one that
ends within a character. Such a file is not taken for anything else: it is no document, unless all
that is missing is the line feed at the end, and then it holds the snapshot that was being saved. It
is not removed either, since only documents of another shape are.

* `Snapshot.document?_prefix`: which beginnings of the text are documents.
* `Snapshot.load_truncated`: what is loaded from a beginning of what a save writes.
-/

namespace AnalysisCache

namespace Snapshot

theorem exists_members_of_toJson {s : Snapshot} {v : Json} (h : s.toJson = .ok v) :
    ∃ members, v = .object members := by
  obtain ⟨_, _, _, _, _, _, rfl⟩ := toJson_eq_ok_iff h
  exact ⟨_, rfl⟩

/-- A beginning of the text that is a document lacks no more than the line feed at the end. -/
theorem eq_of_parse?_prefix {s : Snapshot} {v w : Json} (hWrite : s.toJson = .ok v) {text : String}
    (hPrefix : text.toList <+: (Json.text .indented v ++ "\n").toList)
    (hParse : Json.parse? text = some w) :
    text = Json.text .indented v ∨ text = Json.text .indented v ++ "\n" := by
  obtain ⟨members, rfl⟩ := exists_members_of_toJson hWrite
  have hFits : Json.Fits Json.maxDepth (.object members) := fits_toJson hWrite (Json.maxDepth - 4)
  have hRender : (Json.text .indented (.object members)).toList =
      Json.render .indented 0 (.object members) := by
    rw [Json.text, String.toList_ofList]
  rw [String.toList_append, hRender] at hPrefix
  rcases Json.eq_of_parse?_prefix hFits hParse hPrefix with h | h
  · exact .inl (String.toList_inj.1 (h.trans hRender.symm))
  · refine .inr (String.toList_inj.1 ?_)
    rw [h, String.toList_append, hRender]
    rfl

/-- A beginning of what is written, cut at any byte, is read as no document or as the whole. -/
theorem document?_prefix {s : Snapshot} {v : Json} (hWrite : s.toJson = .ok v) {content : Bytes}
    (hPrefix : content <+: Bytes.ofText (Json.text .indented v ++ "\n")) :
    content.text?.bind Json.parse? =
      if content = Bytes.ofText (Json.text .indented v) ∨
        content = Bytes.ofText (Json.text .indented v ++ "\n") then some v else none := by
  have hFits : Json.Fits Json.maxDepth v := fits_toJson hWrite (Json.maxDepth - 4)
  split
  · rename_i hWhole
    rcases hWhole with rfl | rfl
    · rw [Bytes.text?_ofText, Option.bind_some, Json.text, ← List.append_nil (Json.render _ _ _)]
      exact Json.parse?_render hFits fun c hc => by cases hc
    · rw [Bytes.text?_ofText, Option.bind_some, Json.text]
      show Json.parse? (_ ++ String.ofList ['\n']) = _
      rw [← String.ofList_append]
      refine Json.parse?_render hFits fun c hc => ?_
      rw [List.mem_singleton.1 hc]
      rfl
  · rename_i hPart
    rw [Option.bind_eq_none_iff]
    intro text hText
    cases hParse : Json.parse? text with
    | none => rfl
    | some w =>
      have hBytes := Bytes.ofText_of_text? hText
      rw [← hBytes] at hPrefix hPart
      have hBegins := Bytes.toList_prefix_of_ofText hPrefix
      rcases eq_of_parse?_prefix hWrite hBegins hParse with rfl | rfl
      · exact absurd (.inl rfl) hPart
      · exact absurd (.inr rfl) hPart

/-- The cache file may be cut short anywhere: it still holds the snapshot if no more than the line
feed at the end is missing, and else it holds none. It is never removed. -/
theorem load_prefix {s : Snapshot} {v : Json} (hWrite : s.toJson = .ok v) {content : Bytes}
    (hPrefix : content <+: Bytes.ofText (Json.text .indented v ++ "\n")) {t : FileTree} {p : Path}
    (hRead : t.read p = .ok content) :
    load t p = (t, if content = Bytes.ofText (Json.text .indented v) ∨
      content = Bytes.ofText (Json.text .indented v ++ "\n") then some s else none) := by
  have hDocument : document? t p = content.text?.bind Json.parse? := by
    rw [document?_eq, hRead]
  have hSnapshot : ofJson? v = some s := reads_toJson s v hWrite
  obtain ⟨members, rfl⟩ := exists_members_of_toJson hWrite
  rw [load, hDocument, document?_prefix hWrite hPrefix]
  split
  · rename_i hWhole
    split at hWhole
    · cases hWhole
    · rename_i hPart
      rw [if_neg hPart]
  · rename_i hNull
    split at hNull <;> cases hNull
  · rename_i hWhole
    split at hWhole
    · rename_i hAll
      cases hWhole
      rw [hSnapshot, if_pos hAll]
    · cases hWhole

/-- Every snapshot whose paths are text has a text, which is what a save writes, and of which no
beginning is taken for another snapshot. -/
theorem load_truncated (s : Snapshot) (hPaths : ∀ q ∈ s.paths, q.IsText) :
    ∃ text, s.text = .ok (text ++ "\n") ∧
      (∀ t p, (save t p s).2 = .ok () →
        (save t p s).1.read p = .ok (Bytes.ofText (text ++ "\n"))) ∧
      ∀ content, content <+: Bytes.ofText (text ++ "\n") → ∀ t p, t.read p = .ok content →
        load t p = (t, if content = Bytes.ofText text ∨ content = Bytes.ofText (text ++ "\n")
          then some s else none) := by
  obtain ⟨v, hWrite⟩ := (encodes_toJson s).2 hPaths
  have hText : s.text = .ok (Json.text .indented v ++ "\n") := text_eq_ok_iff.2 ⟨v, hWrite, rfl⟩
  refine ⟨Json.text .indented v, hText, fun t p hSave => ?_, fun content hPrefix t p hRead =>
    load_prefix hWrite hPrefix hRead⟩
  obtain ⟨text, hSaved, hRead⟩ := read_of_save (Prod.ext rfl hSave)
  rw [hText] at hSaved
  cases hSaved
  exact hRead

/-- Nothing but a file with some content. -/
def holding (content : Bytes) : FileTree := FileTree.empty.set [[0x63]] (.file content)

theorem read_holding (content : Bytes) : (holding content).read (.ofText "c") = .ok content := rfl

/-- Without the line feed at the end the cache file holds the snapshot, and without the brace before
that it holds none. -/
theorem load_truncated_odd :
    (∀ q ∈ (odd (.ofText "\"/é")).paths, q.IsText) ∧
      ∃ text, (odd (.ofText "\"/é")).text = .ok (text ++ "\n") ∧
        (let whole := holding (Bytes.ofText text)
        load whole (.ofText "c") = (whole, some (odd (.ofText "\"/é")))) ∧
        let part := holding (Bytes.ofText text).dropLast
        load part (.ofText "c") = (part, none) := by
  have hPaths : ∀ q ∈ (odd (.ofText "\"/é")).paths, q.IsText := by decide
  obtain ⟨text, hText, -, hCut⟩ := load_truncated (odd (.ofText "\"/é")) hPaths
  have hBegins : Bytes.ofText text <+: Bytes.ofText (text ++ "\n") := by
    rw [Bytes.ofText_append]
    exact List.prefix_append _ _
  have hWhole : load (holding (Bytes.ofText text)) (.ofText "c") =
      (holding (Bytes.ofText text), some (odd (.ofText "\"/é"))) := by
    rw [hCut _ hBegins _ _ (read_holding _), if_pos (.inl rfl)]
  have hLength : 0 < (Bytes.ofText text).length := by
    refine List.length_pos_iff.2 fun hEmpty => ?_
    have hNone : (load (holding []) (.ofText "c")).2 = none := by decide +kernel
    rw [hEmpty] at hWhole
    rw [hWhole] at hNone
    cases hNone
  refine ⟨hPaths, text, hText, hWhole, ?_⟩
  dsimp only
  rw [hCut _ ((List.dropLast_prefix _).trans hBegins) _ _ (read_holding _), if_neg]
  rintro (hSame | hSame) <;> have hEq := congrArg List.length hSame
  · rw [List.length_dropLast] at hEq
    omega
  · rw [List.length_dropLast, Bytes.ofText_append, List.length_append] at hEq
    omega

end Snapshot

end AnalysisCache
