import AnalysisCache.Proofs.Json.Text

/-!
# Values read back

A value that holds no other numbers than natural ones in range, and is not nested too deep, is read
as what it was written for, in either layout and at any level.

* `Json.value?_render`: a value, and what follows it.
* `Json.parse?_render`: a document, with blanks after it.
-/

namespace AnalysisCache

namespace Json

mutual

/-- Whether a value is nested at most so many levels deep, with all numbers natural and in range. -/
def Fits : Nat → Json → Prop
  | _, .null => True
  | _, .bool _ => True
  | _, .number (.natural n) => n < UInt64.size
  | _, .number _ => False
  | _, .string _ => True
  | depth, .array items => ∃ inner, depth = inner + 1 ∧ FitsItems inner items
  | depth, .object members => ∃ inner, depth = inner + 1 ∧ FitsMembers inner members

def FitsItems : Nat → List Json → Prop
  | _, [] => True
  | depth, v :: rest => Fits depth v ∧ FitsItems depth rest

def FitsMembers : Nat → List (String × Json) → Prop
  | _, [] => True
  | depth, (_, v) :: rest => Fits depth v ∧ FitsMembers depth rest

end

/-! ## Blanks -/

theorem skipBlanks_append {blanks : List Char} (h : ∀ c ∈ blanks, isBlank c = true)
    (cs : List Char) : skipBlanks (blanks ++ cs) = skipBlanks cs := by
  induction blanks with
  | nil => rfl
  | cons c rest ih =>
    have hc := h c List.mem_cons_self
    rw [List.cons_append, skipBlanks, List.dropWhile_cons, if_pos hc]
    exact ih fun d hd => h d (List.mem_cons_of_mem c hd)

theorem skipBlanks_cons {c : Char} (h : isBlank c = false) (cs : List Char) :
    skipBlanks (c :: cs) = c :: cs := by
  rw [skipBlanks, List.dropWhile_cons, if_neg (by simp [h])]

theorem isBlank_of_mem_lineBreak {layout : Layout} {level : Nat} {c : Char}
    (h : c ∈ layout.lineBreak level) : isBlank c = true := by
  cases layout with
  | compact => cases h
  | indented =>
    rcases List.mem_cons.1 h with rfl | h
    · rfl
    · rw [(List.mem_replicate.1 h).2]
      rfl

theorem skipBlanks_lineBreak (layout : Layout) (level : Nat) {c : Char} (h : isBlank c = false)
    (cs : List Char) : skipBlanks (layout.lineBreak level ++ c :: cs) = c :: cs := by
  rw [skipBlanks_append fun _ hd => isBlank_of_mem_lineBreak hd, skipBlanks_cons h]

theorem value?_append {blanks : List Char} (h : ∀ c ∈ blanks, isBlank c = true) (fuel depth : Nat)
    (cs : List Char) : value? fuel depth (blanks ++ cs) = value? fuel depth cs := by
  cases fuel with
  | zero => simp only [value?]
  | succ fuel => rw [value?, value?, skipBlanks_append h]

theorem items?_append {blanks : List Char} (h : ∀ c ∈ blanks, isBlank c = true) (fuel depth : Nat)
    (cs : List Char) : items? fuel depth (blanks ++ cs) = items? fuel depth cs := by
  cases fuel with
  | zero => simp only [items?]
  | succ fuel => rw [items?, items?, value?_append h]

theorem members?_append {blanks : List Char} (h : ∀ c ∈ blanks, isBlank c = true)
    (fuel depth : Nat) (cs : List Char) :
    members? fuel depth (blanks ++ cs) = members? fuel depth cs := by
  cases fuel with
  | zero => simp only [members?]
  | succ fuel => rw [members?, members?, string?, string?, skipBlanks_append h]

/-! ## Beginnings and ends -/

theorem isBlank_of_isDigit {c : Char} (h : Digits.isDigit c = true) : isBlank c = false := by
  have hNot : ∀ d : Char, Digits.isDigit d = false → c ≠ d := by
    rintro d hd rfl
    rw [h] at hd
    cases hd
  simp [isBlank, hNot ' ' rfl, hNot '\n' rfl, hNot '\t' rfl, hNot '\r' rfl]

/-- A value does not begin with a blank, nor as an array ends. -/
theorem render_eq_cons (layout : Layout) (level : Nat) {depth : Nat} {v : Json} (h : Fits depth v) :
    ∃ c cs, render layout level v = c :: cs ∧ isBlank c = false ∧ c ≠ ']' := by
  cases v with
  | null => exact ⟨_, _, by rw [render], rfl, by decide⟩
  | bool b => cases b <;> exact ⟨_, _, by rw [render], rfl, by decide⟩
  | number n =>
    cases n with
    | natural n =>
      obtain ⟨c, cs, hEq, hDigit, _⟩ := Digits.decimal_eq_cons n
      refine ⟨c, cs, by rw [render, renderNumber, hEq], isBlank_of_isDigit hDigit, ?_⟩
      rintro rfl
      cases hDigit
    | negative n => rw [Fits] at h; exact h.elim; intro k hk; cases hk
    | decimal d => rw [Fits] at h; exact h.elim; intro k hk; cases hk
  | string s => exact ⟨_, _, by rw [render, renderString], rfl, by decide⟩
  | array items => cases items <;> exact ⟨_, _, by rw [render], rfl, by decide⟩
  | object members =>
    cases members with
    | nil => exact ⟨_, _, by rw [render], rfl, by decide⟩
    | cons m rest => exact ⟨_, _, by rw [render], rfl, by decide⟩

theorem endsNumber_lineBreak (layout : Layout) (level : Nat) {c : Char} {cs : List Char}
    (h : EndsNumber (c :: cs)) : EndsNumber (layout.lineBreak level ++ c :: cs) := by
  cases layout with
  | compact => exact h
  | indented => exact endsNumber_cons ⟨rfl, by decide, by decide, by decide⟩

/-! ## Reading back -/

theorem renderString_append (s : String) (rest : List Char) :
    renderString s ++ rest = '"' :: (s.toList.flatMap escapeChar ++ '"' :: rest) := by
  rw [renderString, List.cons_append, List.append_assoc]
  rfl

theorem string?_renderString (s : String) (rest : List Char) :
    string? (renderString s ++ rest) = some (s, rest) := by
  rw [renderString_append, string?, skipBlanks_cons rfl]
  show (stringBody? (s.toList.flatMap escapeChar ++ '"' :: rest)).map _ = _
  rw [stringBody?_flatMap_escapeChar, Option.map_some]
  dsimp only
  rw [String.ofList_toList]

/-- After a name comes a colon, and a value may be read right behind it. -/
theorem colon_append (layout : Layout) (fuel depth : Nat) (cs : List Char) :
    ∃ more, layout.colon ++ cs = ':' :: more ∧ value? fuel depth more = value? fuel depth cs := by
  cases layout with
  | compact => exact ⟨cs, rfl, rfl⟩
  | indented =>
    refine ⟨[' '] ++ cs, rfl, value?_append (fun c hc => ?_) fuel depth cs⟩
    rw [List.mem_singleton.1 hc]
    rfl

theorem value?_decimal {n : Nat} (hn : n < UInt64.size) {rest : List Char} (hRest : EndsNumber rest)
    (fuel depth : Nat) :
    value? (fuel + 1) depth (Digits.decimal n ++ rest) = some (.number (.natural n), rest) := by
  obtain ⟨c, cs, hEq, hDigit, _⟩ := Digits.decimal_eq_cons n
  have hNot : ∀ d : Char, Digits.isDigit d = false → ¬ c = d := by
    rintro d hd rfl
    rw [hDigit] at hd
    cases hd
  have hNumber := number?_decimal hn hRest
  rw [hEq, List.cons_append] at hNumber ⊢
  rw [value?, skipBlanks_cons (isBlank_of_isDigit hDigit)]
  dsimp only
  rw [if_neg (hNot _ rfl), if_neg (hNot _ rfl), if_neg (hNot _ rfl), if_neg (hNot _ rfl),
    if_neg (hNot _ rfl), if_neg (hNot _ rfl), hNumber]
  rfl

/-- A list is read item by item from behind its bracket. -/
theorem value?_bracket {layout : Layout} {level fuel depth : Nat} {c : Char} {text rest : List Char}
    {items : List Json} (hBlank : isBlank c = false) (hClose : c ≠ ']')
    (hRead : items? fuel depth (c :: text) = some (items, rest)) :
    value? (fuel + 1) (depth + 1) ('[' :: (layout.lineBreak level ++ c :: text)) =
      some (.array items, rest) := by
  rw [value?, skipBlanks_cons rfl]
  dsimp only
  rw [if_neg (by decide), if_neg (by decide), if_neg (by decide), if_neg (by decide), if_pos rfl,
    skipBlanks_lineBreak layout _ hBlank]
  split
  · rename_i hEnd
    cases hEnd
    exact absurd rfl hClose
  · rw [hRead]
    rfl

theorem value?_brace {layout : Layout} {level fuel depth : Nat} {text rest : List Char}
    {members : List (String × Json)}
    (hRead : members? fuel depth ('"' :: text) = some (members, rest)) :
    value? (fuel + 1) (depth + 1) ('{' :: (layout.lineBreak level ++ '"' :: text)) =
      some (.object members, rest) := by
  rw [value?, skipBlanks_cons rfl]
  dsimp only
  rw [if_neg (by decide), if_neg (by decide), if_neg (by decide), if_neg (by decide),
    if_neg (by decide), if_pos rfl, skipBlanks_lineBreak layout _ rfl]
  show (members? fuel depth _).map _ = _
  rw [hRead]
  rfl

mutual

/-- Reading takes a step for each bracket that opens, and one for the rest of each list. -/
theorem value?_render (layout : Layout) : ∀ (v : Json) (level : Nat) {fuel depth : Nat}
    {rest : List Char}, Fits depth v → 2 * (render layout level v).length ≤ fuel →
    EndsNumber rest → value? fuel depth (render layout level v ++ rest) = some (v, rest)
  | v, level, 0, depth, rest, hFits, hFuel, _ => by
    obtain ⟨c, cs, hEq, _⟩ := render_eq_cons layout level hFits
    rw [hEq, List.length_cons] at hFuel
    omega
  | .null, level, fuel + 1, depth, rest, _, _, _ => by
    rw [render, value?]
    rfl
  | .bool true, level, fuel + 1, depth, rest, _, _, _ => by
    rw [render, value?]
    rfl
  | .bool false, level, fuel + 1, depth, rest, _, _, _ => by
    rw [render, value?]
    rfl
  | .string s, level, fuel + 1, depth, rest, _, _, _ => by
    rw [render, renderString_append, value?, skipBlanks_cons rfl]
    dsimp only
    rw [if_neg (by decide), if_neg (by decide), if_neg (by decide), if_pos rfl,
      stringBody?_flatMap_escapeChar, Option.map_some, String.ofList_toList]
  | .number (.natural n), level, fuel + 1, depth, rest, hFits, _, hRest => by
    rw [Fits] at hFits
    rw [render, renderNumber]
    exact value?_decimal hFits hRest fuel depth
  | .number (.negative n), level, fuel + 1, depth, rest, hFits, _, _ => by
    rw [Fits] at hFits
    · exact hFits.elim
    · intro k hk
      cases hk
  | .number (.decimal d), level, fuel + 1, depth, rest, hFits, _, _ => by
    rw [Fits] at hFits
    · exact hFits.elim
    · intro k hk
      cases hk
  | .array [], level, fuel + 1, depth, rest, hFits, _, _ => by
    rw [Fits] at hFits
    obtain ⟨inner, rfl, _⟩ := hFits
    rw [render, value?]
    rfl
  | .array (v :: more), level, fuel + 1, depth, rest, hFits, hFuel, _ => by
    rw [Fits] at hFits
    obtain ⟨inner, rfl, hItems⟩ := hFits
    have hFirst : Fits inner v := by
      rw [FitsItems] at hItems
      exact hItems.1
    have hText : render layout level (.array (v :: more)) ++ rest =
        '[' :: (layout.lineBreak (level + 1) ++ (render layout (level + 1) v ++
          (renderItems layout (level + 1) more ++ (layout.lineBreak level ++ ']' :: rest)))) := by
      simp only [render, List.cons_append, List.append_assoc, List.nil_append]
    have hRead : items? fuel inner (render layout (level + 1) v ++
        (renderItems layout (level + 1) more ++ (layout.lineBreak level ++ ']' :: rest))) =
          some (v :: more, rest) := by
      refine items?_render layout v more (level + 1) level hItems ?_
      simp only [render, List.length_cons, List.length_append, List.length_nil] at hFuel
      omega
    obtain ⟨c, cs, hEq, hBlank, hClose⟩ := render_eq_cons layout (level + 1) hFirst
    rw [hEq, List.cons_append] at hText hRead
    rw [hText]
    exact value?_bracket hBlank hClose hRead
  | .object [], level, fuel + 1, depth, rest, hFits, _, _ => by
    rw [Fits] at hFits
    obtain ⟨inner, rfl, _⟩ := hFits
    rw [render, value?]
    rfl
  | .object ((name, v) :: more), level, fuel + 1, depth, rest, hFits, hFuel, _ => by
    rw [Fits] at hFits
    obtain ⟨inner, rfl, hMembers⟩ := hFits
    have hText : render layout level (.object ((name, v) :: more)) ++ rest =
        '{' :: (layout.lineBreak (level + 1) ++ (renderString name ++ (layout.colon ++
          (render layout (level + 1) v ++ (renderMembers layout (level + 1) more ++
            (layout.lineBreak level ++ '}' :: rest)))))) := by
      simp only [render, List.cons_append, List.append_assoc, List.nil_append]
    have hRead : members? fuel inner (renderString name ++ (layout.colon ++
        (render layout (level + 1) v ++ (renderMembers layout (level + 1) more ++
          (layout.lineBreak level ++ '}' :: rest))))) = some ((name, v) :: more, rest) := by
      refine members?_render layout name v more (level + 1) level hMembers ?_
      simp only [render, List.length_cons, List.length_append, List.length_nil] at hFuel
      omega
    rw [renderString_append] at hText hRead
    rw [hText]
    exact value?_brace hRead
termination_by structural _ _ fuel => fuel

theorem items?_render (layout : Layout) : ∀ (v : Json) (more : List Json) (level outer : Nat)
    {fuel depth : Nat} {rest : List Char}, FitsItems depth (v :: more) →
    2 * ((render layout level v).length + (renderItems layout level more).length) + 1 ≤ fuel →
    items? fuel depth (render layout level v ++ (renderItems layout level more ++
      (layout.lineBreak outer ++ ']' :: rest))) = some (v :: more, rest)
  | _, _, _, _, 0, _, _, _, hFuel => by omega
  | v, [], level, outer, fuel + 1, depth, rest, hFits, hFuel => by
    rw [FitsItems] at hFits
    have hEnd : EndsNumber (layout.lineBreak outer ++ ']' :: rest) :=
      endsNumber_lineBreak layout outer (endsNumber_cons ⟨rfl, by decide, by decide, by decide⟩)
    rw [renderItems, List.nil_append, items?, value?_render layout v level hFits.1 (by omega) hEnd]
    dsimp only
    rw [skipBlanks_lineBreak layout outer rfl]
    rfl
  | v, w :: more, level, outer, fuel + 1, depth, rest, hFits, hFuel => by
    rw [FitsItems] at hFits
    simp only [renderItems, List.length_cons, List.length_append] at hFuel
    have hRead : items? fuel depth (render layout level w ++ (renderItems layout level more ++
        (layout.lineBreak outer ++ ']' :: rest))) = some (w :: more, rest) :=
      items?_render layout w more level outer hFits.2 (by omega)
    have hText : renderItems layout level (w :: more) ++ (layout.lineBreak outer ++ ']' :: rest) =
        ',' :: (layout.lineBreak level ++ (render layout level w ++ (renderItems layout level more ++
          (layout.lineBreak outer ++ ']' :: rest)))) := by
      simp only [renderItems, List.cons_append, List.append_assoc]
    have hEnd : EndsNumber (',' :: (layout.lineBreak level ++ (render layout level w ++
        (renderItems layout level more ++ (layout.lineBreak outer ++ ']' :: rest))))) :=
      endsNumber_cons ⟨rfl, by decide, by decide, by decide⟩
    rw [hText, items?, value?_render layout v level hFits.1 (by omega) hEnd]
    dsimp only
    rw [skipBlanks_cons rfl]
    show (items? fuel depth _).map _ = _
    rw [items?_append fun _ hc => isBlank_of_mem_lineBreak hc, hRead]
    rfl
termination_by structural _ _ _ _ fuel => fuel

theorem members?_render (layout : Layout) : ∀ (name : String) (v : Json)
    (more : List (String × Json)) (level outer : Nat) {fuel depth : Nat} {rest : List Char},
    FitsMembers depth ((name, v) :: more) →
    2 * ((render layout level v).length + (renderMembers layout level more).length) + 1 ≤ fuel →
    members? fuel depth (renderString name ++ (layout.colon ++ (render layout level v ++
      (renderMembers layout level more ++ (layout.lineBreak outer ++ '}' :: rest))))) =
        some ((name, v) :: more, rest)
  | _, _, _, _, _, 0, _, _, _, hFuel => by omega
  | name, v, [], level, outer, fuel + 1, depth, rest, hFits, hFuel => by
    rw [FitsMembers] at hFits
    have hEnd : EndsNumber (layout.lineBreak outer ++ '}' :: rest) :=
      endsNumber_lineBreak layout outer (endsNumber_cons ⟨rfl, by decide, by decide, by decide⟩)
    have hRead := value?_render layout v level hFits.1
      (show 2 * (render layout level v).length ≤ fuel by omega) hEnd
    rw [renderMembers, List.nil_append]
    obtain ⟨after, hColon, hAfter⟩ := colon_append layout fuel depth
      (render layout level v ++ (layout.lineBreak outer ++ '}' :: rest))
    rw [members?, string?_renderString, hColon]
    dsimp only
    rw [skipBlanks_cons rfl]
    simp only [hAfter, hRead]
    rw [skipBlanks_lineBreak layout outer rfl]
    rfl
  | name, v, (next, w) :: more, level, outer, fuel + 1, depth, rest, hFits, hFuel => by
    rw [FitsMembers] at hFits
    simp only [renderMembers, List.length_cons, List.length_append] at hFuel
    have hMore : members? fuel depth (renderString next ++ (layout.colon ++
        (render layout level w ++ (renderMembers layout level more ++
          (layout.lineBreak outer ++ '}' :: rest))))) = some ((next, w) :: more, rest) :=
      members?_render layout next w more level outer hFits.2 (by omega)
    have hText : renderMembers layout level ((next, w) :: more) ++
        (layout.lineBreak outer ++ '}' :: rest) =
        ',' :: (layout.lineBreak level ++ (renderString next ++ (layout.colon ++
          (render layout level w ++ (renderMembers layout level more ++
            (layout.lineBreak outer ++ '}' :: rest)))))) := by
      simp only [renderMembers, List.cons_append, List.append_assoc]
    rw [hText]
    generalize renderString next ++ (layout.colon ++ (render layout level w ++
      (renderMembers layout level more ++ (layout.lineBreak outer ++ '}' :: rest)))) = tail at hMore
    have hEnd : EndsNumber (',' :: (layout.lineBreak level ++ tail)) :=
      endsNumber_cons ⟨rfl, by decide, by decide, by decide⟩
    have hRead := value?_render layout v level hFits.1
      (show 2 * (render layout level v).length ≤ fuel by omega) hEnd
    obtain ⟨after, hColon, hAfter⟩ := colon_append layout fuel depth
      (render layout level v ++ (',' :: (layout.lineBreak level ++ tail)))
    rw [members?, string?_renderString, hColon]
    dsimp only
    rw [skipBlanks_cons rfl]
    simp only [hAfter, hRead]
    rw [skipBlanks_cons rfl]
    show (members? fuel depth _).map _ = _
    rw [members?_append fun _ hc => isBlank_of_mem_lineBreak hc, hMore]
    rfl
termination_by structural _ _ _ _ _ fuel => fuel

end

/-- A document reads as its value, also with blanks after it. -/
theorem parse?_render {layout : Layout} {v : Json} (h : Fits maxDepth v) {blanks : List Char}
    (hBlanks : ∀ c ∈ blanks, isBlank c = true) :
    parse? (String.ofList (render layout 0 v ++ blanks)) = some v := by
  have hEnd : EndsNumber blanks := by
    cases blanks with
    | nil => exact endsNumber_nil
    | cons c more =>
      have hc := hBlanks c List.mem_cons_self
      refine endsNumber_cons ⟨?_, ?_, ?_, ?_⟩
      · cases hDigit : Digits.isDigit c with
        | false => rfl
        | true => rw [isBlank_of_isDigit hDigit] at hc; cases hc
      all_goals
        rintro rfl
        cases hc
  have hSkip : skipBlanks blanks = [] := by
    rw [← List.append_nil blanks, skipBlanks_append hBlanks]
    rfl
  rw [parse?, String.toList_ofList]
  rw [value?_render layout v 0 h (by rw [List.length_append]; omega) hEnd]
  dsimp only
  rw [hSkip]
  rfl

end Json

end AnalysisCache
