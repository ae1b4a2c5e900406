import AnalysisCache.Proofs.Files.Directories
import Mathlib.Data.List.TakeWhile

/-!
# Names in directories

Joining a directory and a name gives a path with one component more, which is that name, whatever
the directory is spelled like. Its parent is the directory, perhaps in another spelling.

* `Path.components_join`: a name comes after the components of its directory.
* `Path.components_of_parent?`: the parent has all components but the last.
* `Path.isPlainName_iff`: what can be a name.
* `Path.extension?_eq_some_iff`: what a name ends in.
-/

namespace AnalysisCache

namespace Path

/-! ## Components by parts -/

/-- What a path starts with, told from its parts. -/
def leadOf : List Bytes → Lead
  | [] => .none
  | first :: more =>
    if first = [] ∧ more ≠ [] then .root else if first = [0x2E] then .here else .none

theorem ofPart?_eq_none_iff {part : Bytes} :
    Component.ofPart? part = none ↔ isStep part = false := by
  rw [← Option.isNone_iff_eq_none, ← isIdle, isIdle_eq_not_isStep, Bool.not_eq_true']

theorem filterMap_ofPart?_filter (body : List Bytes) :
    (body.filter isStep).filterMap Component.ofPart? = body.filterMap Component.ofPart? := by
  induction body with
  | nil => rfl
  | cons part rest ih =>
    cases hPart : isStep part with
    | true => rw [List.filter_cons_of_pos hPart, List.filterMap_cons, List.filterMap_cons, ih]
    | false =>
      rw [List.filter_cons_of_neg (by simp [hPart]), ih, List.filterMap_cons,
        ofPart?_eq_none_iff.2 hPart]

theorem filterMap_ofPart?_cons {part : Bytes} (h : isStep part = false) (body : List Bytes) :
    (part :: body).filterMap Component.ofPart? = body.filterMap Component.ofPart? := by
  rw [List.filterMap_cons, ofPart?_eq_none_iff.2 h]

theorem parts_cons_slash (c : Bytes) : parts (slash :: c) = [] :: parts c := by
  rw [parts, if_pos rfl]

/-- The first part begins with the first byte, if that is no slash. -/
theorem exists_parts_cons {x : UInt8} (hx : x ≠ slash) (rest : Bytes) :
    ∃ part more, parts rest = part :: more ∧ parts (x :: rest) = (x :: part) :: more := by
  rw [parts, if_neg hx]
  cases hParts : parts rest with
  | nil => exact absurd hParts (parts_ne_nil rest)
  | cons part more => exact ⟨part, more, rfl, rfl⟩

/-- A path starts as its parts say, and the rest of it are the components of its parts. -/
theorem split_eq_parts (p : Path) : p.split.1 = leadOf (parts p.bytes) ∧
    p.split.2.filterMap Component.ofPart? = (parts p.bytes).filterMap Component.ofPart? := by
  obtain ⟨b⟩ := p
  simp only [split]
  split
  · exact ⟨rfl, rfl⟩
  · rename_i x
    split
    · rename_i hx
      subst hx
      exact ⟨rfl, rfl⟩
    · rename_i hx
      obtain ⟨part, more, hNil, hParts⟩ := exists_parts_cons hx []
      obtain ⟨rfl, rfl⟩ := List.cons.inj hNil
      rw [hParts]
      split
      · rename_i hDot
        subst hDot
        exact ⟨rfl, rfl⟩
      · rename_i hDot
        exact ⟨by simp [leadOf, hDot], rfl⟩
  · rename_i x y rest
    split
    · rename_i hx
      subst hx
      rw [parts_cons_slash, filterMap_ofPart?_cons rfl, leadOf, if_pos ⟨rfl, parts_ne_nil _⟩]
      exact ⟨rfl, rfl⟩
    · rename_i hx
      obtain ⟨part, more, hRest, hParts⟩ := exists_parts_cons hx (y :: rest)
      rw [hParts]
      split
      · rename_i hBoth
        obtain ⟨rfl, rfl⟩ := hBoth
        rw [parts_cons_slash] at hRest
        obtain ⟨rfl, rfl⟩ := List.cons.inj hRest
        rw [parts_cons_slash, filterMap_ofPart?_cons rfl, filterMap_ofPart?_cons rfl]
        exact ⟨rfl, rfl⟩
      · rename_i hBoth
        refine ⟨?_, rfl⟩
        have hDot : ¬ x :: part = [0x2E] := by
          intro hEq
          obtain ⟨rfl, rfl⟩ := List.cons.inj hEq
          by_cases hy : y = slash
          · exact hBoth ⟨rfl, hy⟩
          · obtain ⟨_, _, _, hOther⟩ := exists_parts_cons hy rest
            rw [hOther] at hRest
            cases hRest
        rw [leadOf, if_neg (fun h => by cases h.1), if_neg hDot]

theorem components_eq_parts (p : Path) : p.components =
    (leadOf (parts p.bytes)).components ++ (parts p.bytes).filterMap Component.ofPart? := by
  rw [components, (split_eq_parts p).1, (split_eq_parts p).2]

/-- What follows a slash comes after the components of what is before it. -/
theorem components_append_slash {b : Bytes} (hb : b ≠ []) (c : Bytes) :
    components ⟨b ++ slash :: c⟩ =
      components ⟨b⟩ ++ (parts c).filterMap Component.ofPart? := by
  have hLead : leadOf (parts b ++ parts c) = leadOf (parts b) := by
    cases hParts : parts b with
    | nil => exact absurd hParts (parts_ne_nil b)
    | cons first more =>
      rw [List.cons_append, leadOf, leadOf]
      by_cases hEmpty : first = []
      · have hMore : more ≠ [] := by
          rintro rfl
          rw [hEmpty] at hParts
          apply hb
          rw [← joinParts_parts b, hParts]
          rfl
        rw [if_pos ⟨hEmpty, by simp [hMore]⟩, if_pos ⟨hEmpty, hMore⟩]
      · rw [if_neg (show ¬ (first = [] ∧ more ++ parts c ≠ []) from fun h => hEmpty h.1),
          if_neg (show ¬ (first = [] ∧ more ≠ []) from fun h => hEmpty h.1)]
  rw [components_eq_parts, components_eq_parts, parts_append_slash, hLead, List.filterMap_append,
    List.append_assoc]

/-! ## Joining a name -/

/-- Whether some bytes can be the name of what is in a directory. -/
structure IsName (name : Bytes) : Prop where
  slash_notMem : slash ∉ name
  isStep : isStep name = true
  not_up : name ≠ [0x2E, 0x2E]

instance (name : Bytes) : Decidable (IsName name) :=
  decidable_of_iff (slash ∉ name ∧ isStep name = true ∧ name ≠ [0x2E, 0x2E])
    ⟨fun h => ⟨h.1, h.2.1, h.2.2⟩, fun h => ⟨h.1, h.2, h.3⟩⟩

section

variable {name : Bytes}

theorem IsName.ne_nil (h : IsName name) : name ≠ [] := by
  rintro rfl
  cases h.isStep

theorem IsName.ofPart?_eq (h : IsName name) : Component.ofPart? name = some (.name name) := by
  have hIdle : ¬ (name = [] ∨ name = [0x2E]) := by
    intro hIdle
    have hStep := h.isStep
    rcases hIdle with rfl | rfl <;> cases hStep
  rw [Component.ofPart?, if_neg hIdle, if_neg h.not_up]

theorem IsName.filterMap_parts (h : IsName name) :
    (parts name).filterMap Component.ofPart? = [.name name] := by
  rw [parts_of_slash_notMem h.slash_notMem, List.filterMap_cons, h.ofPart?_eq]
  rfl

theorem IsName.isAbsolute_eq (h : IsName name) : isAbsolute ⟨name⟩ = false := by
  rw [isAbsolute, beq_eq_false_iff_ne]
  intro hHead
  exact h.slash_notMem (List.mem_of_head? hHead)

theorem IsName.components_eq (h : IsName name) : components ⟨name⟩ = [.name name] := by
  have hLead : leadOf [name] = .none := by
    have hDot : name ≠ [0x2E] := by
      rintro rfl
      cases h.isStep
    rw [leadOf, if_neg (fun hBoth => hBoth.2 rfl), if_neg hDot]
  rw [components_eq_parts, h.filterMap_parts, parts_of_slash_notMem h.slash_notMem, hLead]
  rfl

/-- A name comes at the end of the path of its directory, or after a slash there. -/
theorem join_cases (d : Path) (h : IsName name) :
    (d.bytes = [] ∧ d.join ⟨name⟩ = ⟨name⟩) ∨
    (∃ b, d.bytes = b ++ [slash] ∧ d.join ⟨name⟩ = ⟨b ++ slash :: name⟩) ∨
    (d.bytes ≠ [] ∧ d.join ⟨name⟩ = ⟨d.bytes ++ slash :: name⟩) := by
  rw [join, if_neg (by rw [h.isAbsolute_eq]; decide)]
  split
  · rename_i hEnd
    rcases hEnd with hEnd | hEnd
    · rw [List.getLast?_eq_none_iff] at hEnd
      exact .inl ⟨hEnd, by rw [hEnd]; rfl⟩
    · obtain ⟨b, hb⟩ := List.getLast?_eq_some_iff.1 hEnd
      refine .inr (.inl ⟨b, hb, ?_⟩)
      rw [hb, List.append_assoc]
      rfl
  · rename_i hEnd
    rw [not_or, List.getLast?_eq_none_iff] at hEnd
    exact .inr (.inr ⟨hEnd.1, rfl⟩)

theorem components_join (d : Path) (h : IsName name) :
    (d.join ⟨name⟩).components = d.components ++ [.name name] := by
  obtain ⟨bytes⟩ := d
  rcases join_cases ⟨bytes⟩ h with ⟨rfl, hJoin⟩ | ⟨b, rfl, hJoin⟩ | ⟨hBytes, hJoin⟩
  · rw [hJoin, h.components_eq]
    rfl
  · rw [hJoin]
    by_cases hb : b = []
    · subst hb
      rw [List.nil_append, components_eq_parts, parts_cons_slash, filterMap_ofPart?_cons rfl,
        h.filterMap_parts, leadOf, if_pos ⟨rfl, parts_ne_nil _⟩]
      rfl
    · rw [components_append_slash hb, components_append_slash hb, h.filterMap_parts]
      simp [parts, Component.ofPart?]
  · rw [hJoin, components_append_slash hBytes, h.filterMap_parts]

theorem spine_join (d : Path) (h : IsName name) :
    (d.join ⟨name⟩).spine = d.spine ++ [name] := by
  rw [spine, components_join d h, List.filterMap_append]
  rfl

theorem fileName?_join (d : Path) (h : IsName name) : (d.join ⟨name⟩).fileName? = some name := by
  rw [fileName?, components_join d h, List.getLast?_concat]

theorem prefix_bytes_join (d : Path) (h : IsName name) : d.bytes <+: (d.join ⟨name⟩).bytes := by
  rcases join_cases d h with ⟨hBytes, hJoin⟩ | ⟨b, hBytes, hJoin⟩ | ⟨_, hJoin⟩
  · rw [hBytes]
    exact List.nil_prefix
  · rw [hBytes, hJoin]
    exact ⟨name, by simp⟩
  · rw [hJoin]
    exact List.prefix_append _ _

theorem length_lt_join (d : Path) (h : IsName name) :
    d.bytes.length < (d.join ⟨name⟩).bytes.length := by
  have hName := List.length_pos_of_ne_nil h.ne_nil
  rcases join_cases d h with ⟨hBytes, hJoin⟩ | ⟨b, hBytes, hJoin⟩ | ⟨_, hJoin⟩
  · rw [hBytes, hJoin]
    exact hName
  · rw [hBytes, hJoin, List.length_append, List.length_append, List.length_cons]
    simpa using hName
  · rw [hJoin, List.length_append, List.length_cons]
    omega

theorem bytes_join_ne_nil (d : Path) (h : IsName name) : (d.join ⟨name⟩).bytes ≠ [] :=
  List.ne_nil_of_length_pos (Nat.zero_lt_of_lt (length_lt_join d h))

theorem mem_bytes_join {d : Path} (h : IsName name) {x : UInt8}
    (hx : x ∈ (d.join ⟨name⟩).bytes) : x ∈ d.bytes ∨ x = slash ∨ x ∈ name := by
  rcases join_cases d h with ⟨hBytes, hJoin⟩ | ⟨b, hBytes, hJoin⟩ | ⟨_, hJoin⟩
  · rw [hJoin] at hx
    exact .inr (.inr hx)
  · rw [hJoin, List.mem_append, List.mem_cons] at hx
    rw [hBytes, List.mem_append]
    exact hx.imp_left .inl
  · rw [hJoin, List.mem_append, List.mem_cons] at hx
    exact hx

theorem isAbsolute_join (d : Path) (h : IsName name) :
    (d.join ⟨name⟩).isAbsolute = d.isAbsolute := by
  by_cases hd : d.bytes = []
  · obtain ⟨_⟩ := d
    cases hd
    rw [join_empty, h.isAbsolute_eq]
    rfl
  · exact ( isAbsolute_of_prefix (prefix_bytes_join d h) hd).symm

/-- The last part of a joined path is the name. -/
theorem getLast?_parts_join (d : Path) (h : IsName name) :
    (parts (d.join ⟨name⟩).bytes).getLast? = some name := by
  have hName := parts_of_slash_notMem h.slash_notMem
  rcases join_cases d h with ⟨_, hJoin⟩ | ⟨b, _, hJoin⟩ | ⟨_, hJoin⟩
  · rw [hJoin, hName]
    rfl
  · rw [hJoin, parts_append_slash, hName, List.getLast?_concat]
  · rw [hJoin, parts_append_slash, hName, List.getLast?_concat]

theorem getLast?_bytes_join (d : Path) (h : IsName name) :
    (d.join ⟨name⟩).bytes.getLast? ≠ some slash := by
  have hName : name.getLast? ≠ some slash :=
    fun hLast => h.slash_notMem (List.mem_of_getLast? hLast)
  have hAfter : ∀ b : Bytes, (b ++ slash :: name).getLast? ≠ some slash := by
    intro b
    rw [List.append_cons, List.getLast?_append_of_ne_nil _ h.ne_nil]
    exact hName
  rcases join_cases d h with ⟨_, hJoin⟩ | ⟨b, _, hJoin⟩ | ⟨_, hJoin⟩
  · rw [hJoin]
    exact hName
  · rw [hJoin]
    exact hAfter b
  · rw [hJoin]
    exact hAfter d.bytes

end

/-! ## Parents -/

theorem parts_joinParts {y : Bytes} {more : List Bytes} (h : ∀ part ∈ y :: more, slash ∉ part) :
    parts (joinParts (y :: more)) = y :: more := by
  induction more generalizing y with
  | nil => exact parts_of_slash_notMem (h y List.mem_cons_self)
  | cons z rest ih =>
    rw [joinParts_cons_cons, parts_append_slash, parts_of_slash_notMem (h y List.mem_cons_self),
      ih fun part hPart => h part (List.mem_cons_of_mem y hPart)]
    rfl

theorem split_of_none {p : Path} (h : p.split.1 = .none) : p.split.2 = parts p.bytes := by
  obtain ⟨b⟩ := p
  simp only [split] at h ⊢
  split
  · rfl
  · rename_i x
    by_cases hx : x = slash
    · simp [hx] at h
    · by_cases hDot : x = 0x2E
      · simp [hDot, slash] at h
      · rw [if_neg hx, if_neg hDot]
  · rename_i x y rest
    by_cases hx : x = slash
    · simp [hx] at h
    · by_cases hBoth : x = 0x2E ∧ y = slash
      · simp [hBoth, slash] at h
      · rw [if_neg hx, if_neg hBoth]

theorem leadOf_eq_none_of_append {ys zs : List Bytes} (h : leadOf (ys ++ zs) = .none) :
    leadOf ys = .none := by
  cases ys with
  | nil => rfl
  | cons y more =>
    rw [List.cons_append, leadOf] at h
    rw [leadOf]
    split at h
    · cases h
    · rename_i hRoot
      rw [if_neg fun hBoth => hRoot ⟨hBoth.1, by simp [hBoth.2]⟩]
      exact h

/-- A path that begins like another one has the components of its own body. -/
theorem components_of_split {p : Path} {ys zs : List Bytes} (h : p.split.2 = ys ++ zs) :
    components ⟨p.split.1.bytes ++ joinParts ys⟩ =
      p.split.1.components ++ ys.filterMap Component.ofPart? := by
  obtain ⟨b, hParts, hHead⟩ := exists_split_eq_parts p
  have hSlash : ∀ part ∈ ys, slash ∉ part := fun part hPart =>
    slash_notMem_of_mem_parts (hParts ▸ h ▸ List.mem_append_left zs hPart)
  have hBody : ∀ {ys : List Bytes}, (∀ part ∈ ys, slash ∉ part) →
      (parts (joinParts ys)).filterMap Component.ofPart? = ys.filterMap Component.ofPart? := by
    intro ys hSlash
    rw [← filterMap_ofPart?_filter, filter_parts_joinParts hSlash, filterMap_ofPart?_filter]
  rw [components_eq_parts]
  cases hLead : p.split.1 with
  | root =>
    show (leadOf (parts (slash :: joinParts ys))).components ++
      (parts (slash :: joinParts ys)).filterMap Component.ofPart? = _
    rw [parts_cons_slash, filterMap_ofPart?_cons rfl, hBody hSlash, leadOf,
      if_pos ⟨rfl, parts_ne_nil _⟩]
  | here =>
    have hFirst := hHead hLead
    rw [← hParts, h] at hFirst
    cases ys with
    | nil => rfl
    | cons y more =>
      obtain rfl : y = [] := by simpa using hFirst
      cases more with
      | nil => rfl
      | cons z rest =>
        have hRest := hBody fun part hPart => hSlash part (List.mem_cons_of_mem [] hPart)
        have hWhole : parts ([0x2E] ++ slash :: joinParts (z :: rest)) =
            [0x2E] :: parts (joinParts (z :: rest)) := parts_append_slash [0x2E] _
        show (leadOf (parts ([0x2E] ++ slash :: joinParts (z :: rest)))).components ++
          (parts ([0x2E] ++ slash :: joinParts (z :: rest))).filterMap Component.ofPart? = _
        rw [hWhole, filterMap_ofPart?_cons rfl, hRest]
        rfl
  | none =>
    have hNone : leadOf (parts (joinParts ys)) = .none := by
      cases ys with
      | nil => rfl
      | cons y more =>
        rw [parts_joinParts hSlash]
        refine @leadOf_eq_none_of_append _ zs ?_
        rw [← h, split_of_none hLead, ← (split_eq_parts p).1, hLead]
    show (leadOf (parts (joinParts ys))).components ++
      (parts (joinParts ys)).filterMap Component.ofPart? = _
    rw [hNone, hBody hSlash]

theorem filterMap_reverse_dropWhile_isIdle (body : List Bytes) :
    (body.dropWhile isIdle).reverse.filterMap Component.ofPart? =
      body.reverse.filterMap Component.ofPart? := by
  have hIdle : (body.takeWhile isIdle).filterMap Component.ofPart? = [] := by
    rw [List.filterMap_eq_nil_iff]
    intro part hPart
    have hPartIdle : isIdle part = true := List.mem_takeWhile_imp hPart
    exact Option.isNone_iff_eq_none.1 hPartIdle
  rw [List.filterMap_reverse, List.filterMap_reverse]
  nth_rewrite 2 [← List.takeWhile_append_dropWhile (p := isIdle) (l := body)]
  rw [List.filterMap_append, hIdle, List.nil_append]

/-- The parent has all components but the last. -/
theorem components_of_parent? {p q : Path} (h : p.parent? = some q) :
    q.components = p.components.dropLast := by
  have hWhole := filterMap_reverse_dropWhile_isIdle p.split.2.reverse
  rw [List.reverse_reverse] at hWhole
  rw [show p.components = p.split.1.components ++ p.split.2.filterMap Component.ofPart? from rfl,
    ← hWhole]
  rw [parent?] at h
  split at h
  · rename_i last before hBody
    cases h
    have hLast : isStep last = true := by
      have hHead := List.head?_dropWhile_not isIdle p.split.2.reverse
      rw [hBody] at hHead
      simpa [isIdle_eq_not_isStep] using hHead
    obtain ⟨c, hc⟩ : ∃ c, Component.ofPart? last = some c := by
      rw [← Option.ne_none_iff_exists', Ne, ofPart?_eq_none_iff, hLast]
      decide
    obtain ⟨us, hUs⟩ := List.dropWhile_suffix isIdle (l := before)
    obtain ⟨vs, hVs⟩ := List.dropWhile_suffix isIdle (l := p.split.2.reverse)
    have hSplit : p.split.2 = (before.dropWhile isIdle).reverse ++
        (us.reverse ++ [last] ++ vs.reverse) := by
      rw [hBody] at hVs
      rw [← List.reverse_reverse p.split.2, ← hVs]
      nth_rewrite 1 [← hUs]
      simp
    rw [components_of_split hSplit, hBody, filterMap_reverse_dropWhile_isIdle, List.reverse_cons,
      List.filterMap_append, List.filterMap_cons, hc, ← List.append_assoc, List.filterMap_nil,
      List.dropLast_concat]
  · rename_i hBody hLead
    cases h
    rw [hBody, hLead]
    rfl
  · cases h

/-- The parent of a joined path is the directory, perhaps in another spelling. -/
theorem exists_parent?_join (d : Path) {name : Bytes} (h : IsName name) :
    ∃ q, (d.join ⟨name⟩).parent? = some q ∧ q.same d = true := by
  cases hParent : (d.join ⟨name⟩).parent? with
  | some q =>
    refine ⟨q, rfl, same_iff.2 ?_⟩
    rw [components_of_parent? hParent, components_join d h, List.dropLast_concat]
  | none =>
    -- Without a parent there would be no step in the path.
    have hSpine := spine_join d h
    rw [spine_eq_filter_split] at hSpine
    rw [parent?] at hParent
    split at hParent
    · cases hParent
    · cases hParent
    · rename_i hBody _
      have hIdle : ((d.join ⟨name⟩).split.2.filter isStep) = [] := by
        rw [List.dropWhile_eq_nil_iff] at hBody
        rw [List.filter_eq_nil_iff]
        intro part hPart
        have hPartIdle := hBody part (List.mem_reverse.2 hPart)
        rw [isIdle_eq_not_isStep, Bool.not_eq_true'] at hPartIdle
        simp [hPartIdle]
      rw [hIdle] at hSpine
      exact absurd hSpine.symm (by simp)

/-! ## Plain names -/

theorem isName_of_mem_components {p : Path} {name : Bytes}
    (h : Component.name name ∈ p.components) : IsName name := by
  rw [components, List.mem_append] at h
  rcases h with h | h
  · cases hLead : p.split.1 <;> rw [hLead] at h <;> simp [Lead.components] at h
  · obtain ⟨part, hPart, hName⟩ := List.mem_filterMap.1 h
    obtain ⟨b, hParts, _⟩ := exists_split_eq_parts p
    rw [Component.ofPart?] at hName
    split at hName
    · cases hName
    · rename_i hIdle
      split at hName
      · cases hName
      · rename_i hUp
        cases hName
        refine ⟨slash_notMem_of_mem_parts (hParts ▸ hPart), ?_, hUp⟩
        rw [not_or] at hIdle
        simp [isStep, hIdle.1, hIdle.2]

/-- A path is nothing but a name if it can be one. -/
theorem isPlainName_iff {p : Path} : p.isPlainName = true ↔ IsName p.bytes := by
  rw [isPlainName, beq_iff_eq]
  constructor
  · intro h
    rw [fileName?] at h
    split at h
    · rename_i name hLast
      cases h
      exact isName_of_mem_components (List.mem_of_getLast? hLast)
    · cases h
  · intro h
    rw [fileName?, show p = ⟨p.bytes⟩ from rfl, h.components_eq]
    rfl

/-! ## Extensions -/

theorem takeWhile_reverse_append {stem e : Bytes} (h : 0x2E ∉ e) :
    (stem ++ 0x2E :: e).reverse.takeWhile (fun b => decide (b ≠ 0x2E)) = e.reverse := by
  rw [List.reverse_append, List.reverse_cons, List.append_assoc, List.takeWhile_append_of_pos]
  · simp
  · intro b hb
    rw [List.mem_reverse] at hb
    exact decide_eq_true fun hEq => h (hEq ▸ hb)

/-- The extension is what follows the last dot, and something is before that dot. -/
theorem extension?_eq_some_iff {p : Path} {e : Bytes} : p.extension? = some e ↔
    ∃ stem, stem ≠ [] ∧ 0x2E ∉ e ∧ p.fileName? = some (stem ++ 0x2E :: e) := by
  rw [extension?]
  cases p.fileName? with
  | none => simp
  | some name =>
    dsimp only [bind, Option.bind]
    constructor
    · intro h
      by_cases hDot : 0x2E ∈ name
      · obtain ⟨after, before, hReverse, hAfter⟩ :=
          List.eq_append_cons_of_mem (List.mem_reverse.2 hDot)
        obtain rfl : name = before.reverse ++ 0x2E :: after.reverse := by
          rw [← List.reverse_reverse name, hReverse]
          simp
        have hAfter' : 0x2E ∉ after.reverse := by rwa [List.mem_reverse]
        rw [takeWhile_reverse_append hAfter', List.reverse_reverse] at h
        split at h
        · rename_i hLength
          cases h
          refine ⟨before.reverse, ?_, hAfter', rfl⟩
          intro hNil
          rw [hNil] at hLength
          simp at hLength
        · cases h
      · have hAll : name.reverse.takeWhile (fun b => decide (b ≠ 0x2E)) = name.reverse := by
          rw [List.takeWhile_eq_self_iff]
          intro b hb
          rw [List.mem_reverse] at hb
          exact decide_eq_true fun hEq => hDot (hEq ▸ hb)
        rw [hAll, List.length_reverse, if_neg (by omega)] at h
        cases h
    · rintro ⟨stem, hStem, hDot, hName⟩
      cases hName
      have hLength := List.length_pos_of_ne_nil hStem
      rw [takeWhile_reverse_append hDot, if_pos, List.reverse_reverse]
      rw [List.length_reverse, List.length_append, List.length_cons]
      omega

end Path

end AnalysisCache
