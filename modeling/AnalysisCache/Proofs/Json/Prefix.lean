import AnalysisCache.Proofs.Json.Value

/-!
# Documents cut short

What has been read stays read when the text goes on: nothing that follows changes a value whose end
has been seen. Only a number may go on behind the end of the text. So no beginning of an object's
text is a document, short of the whole object.

* `Json.value?_extend`: a value is read again from a text that goes on, and with more fuel.
* `Json.eq_of_parse?_prefix`: a beginning of a document that is one itself.
-/

namespace AnalysisCache

namespace Json

variable {α β : Type}

theorem map_fst_eq_some_iff {f : α → β} {o : Option (α × List Char)} {b : β} {rest : List Char} :
    (o.map fun read => (f read.1, read.2)) = some (b, rest) ↔
      ∃ a, o = some (a, rest) ∧ f a = b := by
  cases o with
  | none => simp
  | some read =>
    constructor
    · rintro h
      cases h
      exact ⟨read.1, rfl, rfl⟩
    · rintro ⟨a, h, rfl⟩
      cases h
      rfl

/-! ## Blanks and strings -/

theorem skipBlanks_extend {cs rest : List Char} {c : Char} (h : skipBlanks cs = c :: rest)
    (more : List Char) : skipBlanks (cs ++ more) = c :: (rest ++ more) := by
  induction cs with
  | nil => cases h
  | cons d cs ih =>
    rw [skipBlanks, List.dropWhile_cons] at h
    rw [skipBlanks, List.cons_append, List.dropWhile_cons]
    split at h
    · rename_i hBlank
      rw [if_pos hBlank]
      exact ih h
    · rename_i hBlank
      rw [if_neg hBlank]
      cases h
      rfl

theorem after?_extend {expected cs rest : List Char} (h : Chars.after? expected cs = some rest)
    (more : List Char) : Chars.after? expected (cs ++ more) = some (rest ++ more) := by
  rw [Chars.after?_eq_some_iff] at h ⊢
  rw [h, List.append_assoc]

theorem ne_u_of_simpleEscape? {e c : Char} (h : simpleEscape? e = some c) : e ≠ 'u' := by
  rintro rfl
  cases h

theorem stringBody?_extend {cs s rest : List Char} (h : stringBody? cs = some (s, rest))
    (more : List Char) : stringBody? (cs ++ more) = some (s, rest ++ more) := by
  fun_induction stringBody? cs generalizing s with
  | case2 =>
    cases h
    rw [List.cons_append, stringBody?.eq_def]
    rfl
  | case6 p q r s unit hUnit hLow hHigh p' q' r' s' rest' low hPair hRange c hQuote =>
    rename_i ih
    obtain ⟨cs, hRest, rfl⟩ := map_fst_eq_some_iff.1 h
    simp only [List.cons_append]
    rw [stringBody?.eq_def]
    simp [hUnit, hLow, hHigh, hPair, hRange, ih hRest, c]
  | case9 p q r s rest' unit hUnit hLow hHigh hQuote ih =>
    obtain ⟨cs, hRest, rfl⟩ := map_fst_eq_some_iff.1 h
    simp only [List.cons_append]
    rw [stringBody?.eq_def]
    simp [hUnit, hLow, hHigh, ih hRest]
  | case11 e rest' hLong c hEscape hQuote ih =>
    -- That fewer than four digits follow does not matter, since what is escaped is no `u`.
    obtain ⟨cs, hRest, rfl⟩ := map_fst_eq_some_iff.1 h
    have hOther := ne_u_of_simpleEscape? hEscape
    simp only [List.cons_append]
    rw [stringBody?.eq_def]
    simp [hOther, hEscape, ih hRest]
  | case14 c rest' hQuote hSlash hControl ih =>
    obtain ⟨cs, hRest, rfl⟩ := map_fst_eq_some_iff.1 h
    rw [List.cons_append, stringBody?.eq_def]
    simp [hQuote, hSlash, hControl, ih hRest]
  | _ => cases h

theorem string?_extend {cs rest : List Char} {s : String} (h : string? cs = some (s, rest))
    (more : List Char) : string? (cs ++ more) = some (s, rest ++ more) := by
  rw [string?] at h
  split at h
  · rename_i body hSkip
    obtain ⟨chars, hBody, rfl⟩ := map_fst_eq_some_iff.1 h
    rw [string?, skipBlanks_extend hSkip]
    show (stringBody? (body ++ more)).map _ = _
    rw [stringBody?_extend hBody]
    rfl
  · cases h

/-! ## Numbers -/

theorem takeDigits_extend {cs digits rest : List Char} (h : takeDigits cs = (digits, rest))
    (hRest : rest ≠ []) (more : List Char) : takeDigits (cs ++ more) = (digits, rest ++ more) := by
  induction cs generalizing digits with
  | nil => cases h; exact absurd rfl hRest
  | cons c cs ih =>
    simp only [takeDigits, Prod.mk.injEq, List.cons_append, List.takeWhile_cons,
      List.dropWhile_cons] at h ih ⊢
    split at h
    · rename_i hDigit
      have hMore := ih ⟨rfl, h.2⟩
      simp [hDigit, hMore, h.1]
    · rename_i hDigit
      simp [hDigit, ← h.1, ← h.2]

theorem integer?_extend {cs digits rest : List Char} (h : integer? cs = some (digits, rest))
    (hRest : rest ≠ []) (more : List Char) :
    integer? (cs ++ more) = some (digits, rest ++ more) := by
  rw [integer?] at h
  split at h
  · cases h
  · cases h
  · rename_i hEmpty hZero
    have hDigits : takeDigits cs = (digits, rest) := Option.some.inj h
    rw [integer?, takeDigits_extend hDigits hRest]
    split
    · rename_i hEq
      cases hEq
      exact absurd hDigits (hEmpty _)
    · rename_i hEq
      cases hEq
      exact absurd hDigits (hZero _ _ _)
    · rfl

theorem unsignedExponent?_extend {cs rest : List Char} {n : Nat}
    (h : unsignedExponent? cs = some (n, rest)) (hRest : rest ≠ []) (more : List Char) :
    unsignedExponent? (cs ++ more) = some (n, rest ++ more) := by
  rw [unsignedExponent?] at h
  split at h
  · cases h
  · rename_i digits after hEmpty hDigits
    cases h
    rw [unsignedExponent?, takeDigits_extend hDigits hRest]
    split
    · rename_i hEq
      cases hEq
      exact (hEmpty rfl).elim
    · rename_i hEq
      cases hEq
      rfl

theorem fraction?_extend {cs digits rest : List Char} (h : fraction? cs = some (digits, rest))
    (hRest : rest ≠ []) (more : List Char) :
    fraction? (cs ++ more) = some (digits, rest ++ more) := by
  rw [fraction?.eq_def] at h
  split at h
  · rename_i after
    split at h
    · cases h
    · rename_i hEmpty
      have hDigits : takeDigits after = (digits, rest) := Option.some.inj h
      rw [List.cons_append, fraction?, takeDigits_extend hDigits hRest]
      split
      · rename_i hEq
        cases hEq
        exact absurd hDigits (hEmpty _)
      · rfl
  · rename_i hPoint
    cases h
    obtain ⟨c, cs, rfl⟩ := List.exists_cons_of_ne_nil hRest
    rw [List.cons_append, fraction?]
    rintro after hEq
    cases hEq
    exact hPoint _ rfl

theorem exponent?_extend {cs rest : List Char} {n : Option Int} (h : exponent? cs = some (n, rest))
    (hRest : rest ≠ []) (more : List Char) : exponent? (cs ++ more) = some (n, rest ++ more) := by
  rw [exponent?.eq_def] at h
  split at h
  · cases h
    exact absurd rfl hRest
  · rename_i c after
    split at h
    · rename_i hMark
      rw [List.cons_append, exponent?.eq_def]
      dsimp only
      rw [if_pos hMark]
      cases after with
      | nil => cases h
      | cons d after =>
        split at h
        · rename_i hMinus
          cases hMinus
          obtain ⟨k, hRead, rfl⟩ := (map_fst_eq_some_iff (f := fun k : Nat => some (-(k : Int)))).1 h
          simp only [List.cons_append, unsignedExponent?_extend hRead hRest]
          rfl
        · rename_i hPlus
          cases hPlus
          obtain ⟨k, hRead, rfl⟩ := (map_fst_eq_some_iff (f := fun k : Nat => some (k : Int))).1 h
          simp only [List.cons_append, unsignedExponent?_extend hRead hRest]
          rfl
        · rename_i hMinus hPlus
          obtain ⟨k, hRead, rfl⟩ := (map_fst_eq_some_iff (f := fun k : Nat => some (k : Int))).1 h
          have hMore := unsignedExponent?_extend hRead hRest more
          rw [List.cons_append] at hMore ⊢
          split
          · rename_i hEq
            cases hEq
            exact absurd rfl (hMinus after)
          · rename_i hEq
            cases hEq
            exact absurd rfl (hPlus after)
          · rw [hMore]
            rfl
    · rename_i hMark
      cases h
      rw [List.cons_append, exponent?.eq_def]
      exact if_neg hMark

/-- A number ends where something follows that it cannot go on with, whatever comes after that. -/
theorem unsignedNumber?_extend {negative : Bool} {cs rest : List Char} {n : JsonNumber}
    (h : unsignedNumber? negative cs = some (n, rest)) (hRest : rest ≠ []) (more : List Char) :
    unsignedNumber? negative (cs ++ more) = some (n, rest ++ more) := by
  obtain ⟨⟨whole, behindWhole⟩, hWhole, h⟩ := Option.bind_eq_some_iff.1 h
  obtain ⟨⟨fraction, behindFraction⟩, hFraction, h⟩ := Option.bind_eq_some_iff.1 h
  obtain ⟨⟨exponent, behindExponent⟩, hExponent, h⟩ := Option.bind_eq_some_iff.1 h
  obtain ⟨k, hNumber, h⟩ := Option.bind_eq_some_iff.1 h
  cases h
  have hBehindFraction : behindFraction ≠ [] := by
    rintro rfl
    cases hExponent
    exact hRest rfl
  have hBehindWhole : behindWhole ≠ [] := by
    rintro rfl
    cases hFraction
    exact hBehindFraction rfl
  refine Option.bind_eq_some_iff.2 ⟨_, integer?_extend hWhole hBehindWhole more, ?_⟩
  refine Option.bind_eq_some_iff.2 ⟨_, fraction?_extend hFraction hBehindFraction more, ?_⟩
  refine Option.bind_eq_some_iff.2 ⟨_, exponent?_extend hExponent hRest more, ?_⟩
  exact Option.bind_eq_some_iff.2 ⟨n, hNumber, rfl⟩

theorem number?_extend {cs rest : List Char} {n : JsonNumber} (h : number? cs = some (n, rest))
    (hRest : rest ≠ []) (more : List Char) : number? (cs ++ more) = some (n, rest ++ more) := by
  rw [number?.eq_def] at h
  split at h
  · rw [List.cons_append, number?]
    exact unsignedNumber?_extend h hRest more
  · rename_i hMinus
    cases cs with
    | nil => cases h
    | cons c cs =>
      rw [List.cons_append, number?]
      · exact unsignedNumber?_extend h hRest more
      · rintro after hEq
        cases hEq
        exact hMinus cs rfl

/-! ## Values -/

/-- Whether the end of a value has been seen: a number might go on where the text ends. -/
def IsSettled (v : Json) (rest : List Char) : Prop := rest = [] → ∀ n, v ≠ .number n

theorem isSettled_of_ne_nil {v : Json} {rest : List Char} (h : rest ≠ []) : IsSettled v rest :=
  fun hNil => absurd hNil h

theorem ne_nil_of_skipBlanks {cs rest : List Char} {c : Char} (h : skipBlanks cs = c :: rest) :
    cs ≠ [] := by
  rintro rfl
  cases h

theorem value?_nil (fuel depth : Nat) : value? fuel depth [] = none := by
  cases fuel <;> rfl

theorem ne_nil_of_items? {fuel depth : Nat} {cs : List Char} {read : List Json × List Char}
    (h : items? fuel depth cs = some read) : cs ≠ [] := by
  rintro rfl
  cases fuel with
  | zero => cases h
  | succ fuel => rw [items?, value?_nil] at h; cases h

theorem ne_nil_of_members? {fuel depth : Nat} {cs : List Char}
    {read : List (String × Json) × List Char} (h : members? fuel depth cs = some read) :
    cs ≠ [] := by
  rintro rfl
  cases fuel <;> cases h

theorem word_extend {word cs rest : List Char} {v w : Json}
    (h : ((Chars.after? word cs).map fun rest => (v, rest)) = some (w, rest)) (more : List Char) :
    ((Chars.after? word (cs ++ more)).map fun rest => (v, rest)) = some (w, rest ++ more) := by
  obtain ⟨behind, hWord, hEq⟩ := Option.map_eq_some_iff.1 h
  cases hEq
  rw [after?_extend hWord]
  rfl

/-- What stands behind an opening bracket stays read if its items do. -/
theorem array_extend {fuel fuel' depth : Nat} {cs rest more : List Char} {v : Json}
    (hItems : ∀ {cs rest vs}, items? fuel depth cs = some (vs, rest) →
      items? fuel' depth (cs ++ more) = some (vs, rest ++ more))
    (h : (match skipBlanks cs with
      | ']' :: rest => some (Json.array [], rest)
      | rest => (items? fuel depth rest).map fun (vs, rest) => (.array vs, rest)) = some (v, rest)) :
    (match skipBlanks (cs ++ more) with
      | ']' :: rest => some (Json.array [], rest)
      | rest => (items? fuel' depth rest).map fun (vs, rest) => (.array vs, rest)) =
        some (v, rest ++ more) := by
  cases hInner : skipBlanks cs with
  | nil =>
    rw [hInner] at h
    obtain ⟨vs, hRead, _⟩ := map_fst_eq_some_iff.1 h
    exact absurd rfl (ne_nil_of_items? hRead)
  | cons c inner =>
    rw [hInner] at h
    rw [skipBlanks_extend hInner]
    split at h
    · rename_i hClose
      cases hClose
      cases h
      rfl
    · rename_i hOpen
      obtain ⟨vs, hRead, rfl⟩ := map_fst_eq_some_iff.1 h
      have hMore := hItems hRead
      rw [List.cons_append] at hMore
      split
      · rename_i hClose
        cases hClose
        exact (hOpen inner rfl).elim
      · rw [hMore]
        rfl

/-- What stands behind an opening brace stays read if its members do. -/
theorem object_extend {fuel fuel' depth : Nat} {cs rest more : List Char} {v : Json}
    (hMembers : ∀ {cs rest ms}, members? fuel depth cs = some (ms, rest) →
      members? fuel' depth (cs ++ more) = some (ms, rest ++ more))
    (h : (match skipBlanks cs with
      | '}' :: rest => some (Json.object [], rest)
      | rest => (members? fuel depth rest).map fun (ms, rest) => (.object ms, rest)) =
        some (v, rest)) :
    (match skipBlanks (cs ++ more) with
      | '}' :: rest => some (Json.object [], rest)
      | rest => (members? fuel' depth rest).map fun (ms, rest) => (.object ms, rest)) =
        some (v, rest ++ more) := by
  cases hInner : skipBlanks cs with
  | nil =>
    rw [hInner] at h
    obtain ⟨ms, hRead, _⟩ := map_fst_eq_some_iff.1 h
    exact absurd rfl (ne_nil_of_members? hRead)
  | cons c inner =>
    rw [hInner] at h
    rw [skipBlanks_extend hInner]
    split at h
    · rename_i hClose
      cases hClose
      cases h
      rfl
    · rename_i hOpen
      obtain ⟨ms, hRead, rfl⟩ := map_fst_eq_some_iff.1 h
      have hMore := hMembers hRead
      rw [List.cons_append] at hMore
      split
      · rename_i hClose
        cases hClose
        exact (hOpen inner rfl).elim
      · rw [hMore]
        rfl

mutual

/-- What has been read stays read, with as much fuel and in a text that goes on. -/
theorem value?_extend : ∀ {fuel fuel' depth : Nat} {cs rest : List Char} {v : Json},
    value? fuel depth cs = some (v, rest) → fuel ≤ fuel' → IsSettled v rest →
      ∀ more, value? fuel' depth (cs ++ more) = some (v, rest ++ more)
  | 0, _, _, _, _, _, h, _, _, _ => by
    rw [value?] at h
    cases h
  | fuel + 1, 0, _, _, _, _, _, hFuel, _, _ => by omega
  | fuel + 1, fuel' + 1, depth, cs, rest, v, h, hFuel, hSettled, more => by
    have hLess : fuel ≤ fuel' := Nat.le_of_succ_le_succ hFuel
    rw [value?] at h ⊢
    cases hSkip : skipBlanks cs with
    | nil => rw [hSkip] at h; cases h
    | cons c after =>
      rw [hSkip] at h
      rw [skipBlanks_extend hSkip]
      -- The first character says what kind of value it is.
      dsimp only at h ⊢
      by_cases hNull : c = 'n'
      · rw [if_pos hNull] at h ⊢
        exact word_extend h more
      rw [if_neg hNull] at h ⊢
      by_cases hTrue : c = 't'
      · rw [if_pos hTrue] at h ⊢
        exact word_extend h more
      rw [if_neg hTrue] at h ⊢
      by_cases hFalse : c = 'f'
      · rw [if_pos hFalse] at h ⊢
        exact word_extend h more
      rw [if_neg hFalse] at h ⊢
      by_cases hQuote : c = '"'
      · rw [if_pos hQuote] at h ⊢
        obtain ⟨s, hBody, rfl⟩ :=
          (map_fst_eq_some_iff (f := fun s => Json.string (String.ofList s))).1 h
        rw [stringBody?_extend hBody]
        rfl
      rw [if_neg hQuote] at h ⊢
      by_cases hBracket : c = '['
      · rw [if_pos hBracket] at h ⊢
        cases depth with
        | zero => cases h
        | succ depth => exact array_extend (fun hRead => items?_extend hRead hLess more) h
      rw [if_neg hBracket] at h ⊢
      by_cases hBrace : c = '{'
      · rw [if_pos hBrace] at h ⊢
        cases depth with
        | zero => cases h
        | succ depth => exact object_extend (fun hRead => members?_extend hRead hLess more) h
      rw [if_neg hBrace] at h ⊢
      obtain ⟨n, hNumber, rfl⟩ := map_fst_eq_some_iff.1 h
      have hRest : rest ≠ [] := fun hNil => hSettled hNil n rfl
      have hMore := number?_extend hNumber hRest more
      rw [List.cons_append] at hMore
      rw [hMore]
      rfl

theorem items?_extend : ∀ {fuel fuel' depth : Nat} {cs rest : List Char} {vs : List Json},
    items? fuel depth cs = some (vs, rest) → fuel ≤ fuel' →
      ∀ more, items? fuel' depth (cs ++ more) = some (vs, rest ++ more)
  | 0, _, _, _, _, _, h, _, _ => by
    rw [items?] at h
    cases h
  | fuel + 1, 0, _, _, _, _, _, hFuel, _ => by omega
  | fuel + 1, fuel' + 1, depth, cs, rest, vs, h, hFuel, more => by
    rw [items?] at h ⊢
    cases hFirst : value? fuel depth cs with
    | none => rw [hFirst] at h; cases h
    | some read =>
      obtain ⟨v, behind⟩ := read
      rw [hFirst] at h
      dsimp only at h
      have hMore : behind ≠ [] → value? fuel' depth (cs ++ more) = some (v, behind ++ more) :=
        fun hBehind => value?_extend hFirst (Nat.le_of_succ_le_succ hFuel)
          (isSettled_of_ne_nil hBehind) more
      split at h
      · rename_i hSkip
        cases h
        rw [hMore (ne_nil_of_skipBlanks hSkip)]
        dsimp only
        rw [skipBlanks_extend hSkip]
        rfl
      · rename_i hSkip
        obtain ⟨vs, hRest, rfl⟩ := map_fst_eq_some_iff.1 h
        rw [hMore (ne_nil_of_skipBlanks hSkip)]
        dsimp only
        rw [skipBlanks_extend hSkip]
        show (items? fuel' depth _).map _ = _
        rw [items?_extend hRest (Nat.le_of_succ_le_succ hFuel) more]
        rfl
      · cases h

theorem members?_extend : ∀ {fuel fuel' depth : Nat} {cs rest : List Char}
    {ms : List (String × Json)}, members? fuel depth cs = some (ms, rest) → fuel ≤ fuel' →
      ∀ more, members? fuel' depth (cs ++ more) = some (ms, rest ++ more)
  | 0, _, _, _, _, _, h, _, _ => by
    rw [members?] at h
    cases h
  | fuel + 1, 0, _, _, _, _, _, hFuel, _ => by omega
  | fuel + 1, fuel' + 1, depth, cs, rest, ms, h, hFuel, more => by
    rw [members?] at h ⊢
    cases hName : string? cs with
    | none => rw [hName] at h; cases h
    | some read =>
      obtain ⟨name, behindName⟩ := read
      rw [hName] at h
      rw [string?_extend hName]
      dsimp only at h ⊢
      split at h
      · rename_i afterColon hColon
        rw [skipBlanks_extend hColon]
        show (match value? fuel' depth (afterColon ++ more) with
          | none => none
          | some (v, rest) =>
            match skipBlanks rest with
            | '}' :: rest => some ([(name, v)], rest)
            | ',' :: rest => (members? fuel' depth rest).map fun (ms, rest) => ((name, v) :: ms, rest)
            | _ => none) = _
        cases hFirst : value? fuel depth afterColon with
        | none => rw [hFirst] at h; cases h
        | some read =>
          obtain ⟨v, behind⟩ := read
          rw [hFirst] at h
          dsimp only at h
          have hMore : behind ≠ [] →
              value? fuel' depth (afterColon ++ more) = some (v, behind ++ more) :=
            fun hBehind => value?_extend hFirst (Nat.le_of_succ_le_succ hFuel)
              (isSettled_of_ne_nil hBehind) more
          split at h
          · rename_i hSkip
            cases h
            rw [hMore (ne_nil_of_skipBlanks hSkip)]
            dsimp only
            rw [skipBlanks_extend hSkip]
            rfl
          · rename_i hSkip
            obtain ⟨ms, hRest, rfl⟩ := map_fst_eq_some_iff.1 h
            rw [hMore (ne_nil_of_skipBlanks hSkip)]
            dsimp only
            rw [skipBlanks_extend hSkip]
            show (members? fuel' depth _).map _ = _
            rw [members?_extend hRest (Nat.le_of_succ_le_succ hFuel) more]
            rfl
          · cases h
      · cases h

end

/-! ## Documents -/

theorem render_object_eq_cons (layout : Layout) (level : Nat) (members : List (String × Json)) :
    ∃ cs, render layout level (.object members) = '{' :: cs := by
  cases members with
  | nil => exact ⟨_, by rw [render]⟩
  | cons m rest => exact ⟨_, by rw [render]⟩

theorem object_of_brace {fuel depth : Nat} {cs rest : List Char} {v : Json}
    (h : value? fuel depth ('{' :: cs) = some (v, rest)) : ∃ members, v = .object members := by
  cases fuel with
  | zero => cases h
  | succ fuel =>
    rw [value?, skipBlanks_cons rfl] at h
    cases depth with
    | zero => cases h
    | succ depth =>
      dsimp only at h
      rw [if_neg (by decide), if_neg (by decide), if_neg (by decide), if_neg (by decide),
        if_neg (by decide), if_pos rfl] at h
      split at h
      · cases h
        exact ⟨[], rfl⟩
      · obtain ⟨members, _, rfl⟩ := map_fst_eq_some_iff.1 h
        exact ⟨members, rfl⟩

theorem value?_of_parse? {text : String} {v : Json} (h : parse? text = some v) :
    ∃ rest, value? (2 * text.toList.length + 2) maxDepth text.toList = some (v, rest) := by
  rw [parse?] at h
  split at h
  · rename_i w rest hValue
    split at h
    · cases h
      exact ⟨rest, hValue⟩
    · cases h
  · cases h

/-- A beginning of an object's document that is a document itself lacks no more than the line feed
at the end. -/
theorem eq_of_parse?_prefix {layout : Layout} {members : List (String × Json)}
    (hFits : Fits maxDepth (.object members)) {text : String} {v : Json}
    (hParse : parse? text = some v)
    (hPrefix : text.toList <+: render layout 0 (.object members) ++ ['\n']) :
    text.toList = render layout 0 (.object members) ∨
      text.toList = render layout 0 (.object members) ++ ['\n'] := by
  obtain ⟨more, hWhole⟩ := hPrefix
  obtain ⟨rest, hValue⟩ := value?_of_parse? hParse
  have hSettled : IsSettled v rest := by
    obtain ⟨after, hRender⟩ := render_object_eq_cons layout 0 members
    cases hText : text.toList with
    | nil => rw [hText, value?_nil] at hValue; cases hValue
    | cons c cs =>
      rw [hText, hRender, List.cons_append, List.cons_append] at hWhole
      cases (List.cons.inj hWhole).1
      rw [hText] at hValue
      obtain ⟨_, rfl⟩ := object_of_brace hValue
      intro _ n hn
      cases hn
  -- The whole is read in two ways: from its beginning, and as it was written.
  have hLength := congrArg List.length hWhole
  simp only [List.length_append, List.length_singleton] at hLength
  have hRead : value? (2 * text.toList.length + 2 + 2 * more.length) maxDepth
      (text.toList ++ more) = some (v, rest ++ more) :=
    value?_extend hValue (Nat.le_add_right _ _) hSettled more
  rw [hWhole, value?_render layout (.object members) 0 hFits (by omega)
    (endsNumber_cons ⟨rfl, by decide, by decide, by decide⟩)] at hRead
  have hRest : rest ++ more = ['\n'] := (Prod.mk.inj (Option.some.inj hRead)).2.symm
  rcases List.append_eq_singleton_iff.1 hRest with ⟨_, rfl⟩ | ⟨_, rfl⟩
  · exact .inl (List.append_cancel_right hWhole)
  · exact .inr (by rwa [List.append_nil] at hWhole)

end Json

end AnalysisCache
