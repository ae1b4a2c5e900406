import AnalysisCache.Path.Map
import Mathlib.Data.List.Forall2

/-!
# Laws of maps keyed by paths

A map does not see how a path is spelled, so its laws speak of paths up to `Path.same`. A path is
*among* some others if one of them is a spelling of it.

* `PathMap.get?_eq_some_iff`: a look-up finds an entry, and there is only one to find.
* `PathMap.get?_collect`: rows pushed into an empty map, each path with its values in order.
* `PathMap.ofList_of_perm`: a map is made of its entries, in whatever order they come.
-/

namespace AnalysisCache

theorem exists_of_mem_of_forall₂ {α β : Type} {R : α → β → Prop} {l : List α} {r : List β}
    (h : List.Forall₂ R l r) {b : β} (hb : b ∈ r) : ∃ a ∈ l, R a b := by
  induction h with
  | nil => cases hb
  | cons hFirst _ ih =>
    rcases List.mem_cons.1 hb with rfl | hb
    · exact ⟨_, List.mem_cons_self, hFirst⟩
    · obtain ⟨a, ha, hR⟩ := ih hb
      exact ⟨a, List.mem_cons_of_mem _ ha, hR⟩

namespace Path

theorem same_symm {p q : Path} (h : p.same q = true) : q.same p = true := by
  rw [same_comm]
  exact h

theorem same_congr_left {p q : Path} (h : p.same q = true) (r : Path) : p.same r = q.same r := by
  cases hq : q.same r with
  | true => exact same_trans h hq
  | false =>
    cases hp : p.same r with
    | false => rfl
    | true => rw [same_trans (same_symm h) hp] at hq; cases hq

theorem same_congr_right {p q : Path} (h : p.same q = true) (r : Path) :
    r.same p = r.same q := by
  rw [same_comm, same_congr_left h, same_comm]

theorem not_same_of_lt {p q : Path} (h : compare p q = .lt) : p.same q = false := by
  cases hSame : p.same q with
  | false => rfl
  | true => rw [compare_eq_iff_same.2 hSame] at h; cases h

/-- Whether a path is one of some others, in whatever spelling. -/
def Among (p : Path) (ps : List Path) : Prop := ∃ q ∈ ps, q.same p = true

theorem any_same_iff {p : Path} {ps : List Path} :
    (ps.any fun q => q.same p) = true ↔ p.Among ps := by
  rw [List.any_eq_true]
  rfl

instance (p : Path) (ps : List Path) : Decidable (p.Among ps) :=
  decidable_of_iff _ any_same_iff

theorem among_of_mem {p : Path} {ps : List Path} (h : p ∈ ps) : p.Among ps :=
  ⟨p, h, same_self p⟩

theorem among_congr {p q : Path} (h : p.same q = true) {ps : List Path} :
    p.Among ps ↔ q.Among ps := by
  constructor
  · rintro ⟨r, hr, hs⟩
    exact ⟨r, hr, same_trans hs h⟩
  · rintro ⟨r, hr, hs⟩
    exact ⟨r, hr, same_trans hs (same_symm h)⟩

@[simp] theorem not_among_nil (p : Path) : ¬ p.Among [] := by
  rintro ⟨q, hq, _⟩
  cases hq

theorem among_cons_iff {p q : Path} {ps : List Path} :
    p.Among (q :: ps) ↔ q.same p = true ∨ p.Among ps := by
  constructor
  · rintro ⟨r, hr, hs⟩
    rcases List.mem_cons.1 hr with rfl | hr
    · exact .inl hs
    · exact .inr ⟨r, hr, hs⟩
  · rintro (hs | ⟨r, hr, hs⟩)
    · exact ⟨q, List.mem_cons_self, hs⟩
    · exact ⟨r, List.mem_cons_of_mem q hr, hs⟩

theorem among_append_iff {p : Path} {ps qs : List Path} :
    p.Among (ps ++ qs) ↔ p.Among ps ∨ p.Among qs := by
  constructor
  · rintro ⟨r, hr, hs⟩
    rcases List.mem_append.1 hr with hr | hr
    · exact .inl ⟨r, hr, hs⟩
    · exact .inr ⟨r, hr, hs⟩
  · rintro (⟨r, hr, hs⟩ | ⟨r, hr, hs⟩)
    · exact ⟨r, List.mem_append_left qs hr, hs⟩
    · exact ⟨r, List.mem_append_right ps hr, hs⟩

/-- What is listed for one path alone is not listed again for other paths. -/
theorem count_flatMap {α : Type} [DecidableEq α] {part : Path → List α} {p : Path} {x : α}
    (hSame : ∀ q, p.same q = true → part q = part p) (hOther : ∀ q, p.same q = false → x ∉ part q)
    {ps : List Path} (hApart : ps.Pairwise fun q r => q.same r = false) :
    (ps.flatMap part).count x = if p.Among ps then (part p).count x else 0 := by
  induction ps with
  | nil => rfl
  | cons q rest ih =>
    rw [List.pairwise_cons] at hApart
    rw [List.flatMap_cons, List.count_append, ih hApart.2]
    cases hq : p.same q with
    | true =>
      have hRest : ¬ p.Among rest := by
        rintro ⟨r, hr, hrp⟩
        have hNot := hApart.1 r hr
        rw [same_trans (same_symm hq) (same_symm hrp)] at hNot
        cases hNot
      rw [if_neg hRest, if_pos (among_cons_iff.2 (.inl (same_symm hq))), hSame q hq, Nat.add_zero]
    | false =>
      have hCons : p.Among (q :: rest) ↔ p.Among rest := by
        rw [among_cons_iff, same_comm, hq]
        exact or_iff_right (by decide)
      simp only [List.count_eq_zero.2 (hOther q hq), Nat.zero_add, hCons]

end Path

/-- Whether two lists of paths are the same, one by one. -/
def SamePaths (ps qs : List Path) : Prop := List.Forall₂ (fun p q => p.same q = true) ps qs

theorem SamePaths.trans {ps qs rs : List Path} (h : SamePaths ps qs) (k : SamePaths qs rs) :
    SamePaths ps rs := by
  induction h generalizing rs with
  | nil => exact k
  | cons hFirst _ ih =>
    cases k with
    | cons kFirst kRest => exact .cons (Path.same_trans hFirst kFirst) (ih kRest)

theorem SamePaths.exists_of_mem {ps qs : List Path} (h : SamePaths ps qs) {q : Path}
    (hq : q ∈ qs) : ∃ p ∈ ps, p.same q = true := exists_of_mem_of_forall₂ h hq

namespace PathMap

variable {α β : Type}

/-! ## Entries and look-ups -/

theorem get?_congr (m : PathMap α) {p q : Path} (h : p.same q = true) : m.get? p = m.get? q := by
  simp only [get?_def, Path.same_congr_right h]

theorem mem_of_get? {m : PathMap α} {p : Path} {v : α} (h : m.get? p = some v) :
    ∃ k, (k, v) ∈ m.entries ∧ k.same p = true := by
  rw [get?_def] at h
  cases hFind : m.entries.find? fun e => e.1.same p with
  | none => rw [hFind] at h; cases h
  | some e =>
    rw [hFind] at h
    simp only [Option.map_some, Option.some.injEq] at h
    subst h
    exact ⟨e.1, List.mem_of_find?_eq_some hFind, by simpa using List.find?_some hFind⟩

/-- No two entries have paths with the same components. -/
theorem eq_of_mem_entries {m : PathMap α} {e e' : Path × α} (he : e ∈ m.entries)
    (he' : e' ∈ m.entries) (h : e.1.same e'.1 = true) : e = e' := by
  have hEq : compare e.1 e'.1 = .eq := Path.compare_eq_iff_same.2 h
  have hEq' : compare e'.1 e.1 = .eq := Path.compare_eq_iff_same.2 (Path.same_symm h)
  obtain ⟨l, hSorted⟩ := m
  change e ∈ l at he
  change e' ∈ l at he'
  induction l with
  | nil => cases he
  | cons x rest ih =>
    rw [List.pairwise_cons] at hSorted
    rcases List.mem_cons.1 he with rfl | heRest
    · rcases List.mem_cons.1 he' with rfl | heRest'
      · rfl
      · have hLt := hSorted.1 e' heRest'
        rw [hEq] at hLt
        cases hLt
    · rcases List.mem_cons.1 he' with rfl | heRest'
      · have hLt := hSorted.1 e heRest
        rw [hEq'] at hLt
        cases hLt
      · exact ih hSorted.2 heRest heRest'

theorem get?_of_mem {m : PathMap α} {k p : Path} {v : α} (he : (k, v) ∈ m.entries)
    (h : k.same p = true) : m.get? p = some v := by
  cases hGet : m.get? p with
  | none =>
    rw [get?_def, Option.map_eq_none_iff, List.find?_eq_none] at hGet
    exact absurd h (hGet _ he)
  | some w =>
    obtain ⟨k', he', hk'⟩ := mem_of_get? hGet
    have hEq := eq_of_mem_entries he' he (Path.same_trans hk' (Path.same_symm h))
    rw [(Prod.mk.inj hEq).2]

theorem get?_eq_some_iff {m : PathMap α} {p : Path} {v : α} :
    m.get? p = some v ↔ ∃ k, (k, v) ∈ m.entries ∧ k.same p = true :=
  ⟨mem_of_get?, fun ⟨_, he, h⟩ => get?_of_mem he h⟩

theorem mem_keys_iff {m : PathMap α} {k : Path} : k ∈ m.keys ↔ ∃ v, (k, v) ∈ m.entries := by
  rw [keys, List.mem_map]
  constructor
  · rintro ⟨⟨k', v⟩, he, rfl⟩
    exact ⟨v, he⟩
  · rintro ⟨v, he⟩
    exact ⟨(k, v), he, rfl⟩

theorem contains_iff {m : PathMap α} {p : Path} : m.contains p = true ↔ p.Among m.keys := by
  rw [contains, List.any_eq_true]
  constructor
  · rintro ⟨⟨k, v⟩, he, h⟩
    exact ⟨k, mem_keys_iff.2 ⟨v, he⟩, h⟩
  · rintro ⟨k, hk, h⟩
    obtain ⟨v, he⟩ := mem_keys_iff.1 hk
    exact ⟨(k, v), he, h⟩

theorem contains_iff_get? {m : PathMap α} {p : Path} :
    m.contains p = true ↔ ∃ v, m.get? p = some v := by
  rw [contains_eq_isSome, Option.isSome_iff_exists]

theorem contains_congr (m : PathMap α) {p q : Path} (h : p.same q = true) :
    m.contains p = m.contains q := by
  rw [contains_eq_isSome, contains_eq_isSome, get?_congr m h]

theorem get?_eq_none_iff {m : PathMap α} {p : Path} :
    m.get? p = none ↔ m.contains p = false := by
  rw [contains_eq_isSome, Option.isSome_eq_false_iff, Option.isNone_iff_eq_none]

theorem contains_insert {m : PathMap α} {p q : Path} {v : α} :
    (m.insert p v).contains q = true ↔ p.same q = true ∨ m.contains q = true := by
  rw [contains_eq_isSome, contains_eq_isSome, get?_insert]
  cases p.same q <;> simp

theorem mem_keys_insert {m : PathMap α} {p k : Path} {v : α} (h : k ∈ (m.insert p v).keys) :
    k = p ∨ k ∈ m.keys := by
  obtain ⟨w, he⟩ := mem_keys_iff.1 h
  rcases mem_insertEntry he with hk | ⟨y, hy, hk⟩
  · exact .inl hk
  · exact .inr (mem_keys_iff.2 ⟨y.2, by rw [← show y.1 = k from hk]; exact hy⟩)

theorem get?_map (f : α → β) (m : PathMap α) (p : Path) : (m.map f).get? p = (m.get? p).map f := by
  simp only [get?_def, entries_map, List.find?_map, Option.map_map]
  rfl

theorem contains_map (f : α → β) (m : PathMap α) (p : Path) :
    (m.map f).contains p = m.contains p := by
  rw [contains_eq_isSome, contains_eq_isSome, get?_map, Option.isSome_map]

theorem keys_map (f : α → β) (m : PathMap α) : (m.map f).keys = m.keys := by
  simp [keys]

/-! ## Restrictions and replacements -/

theorem get?_filterKeys_among (m : PathMap α) (ps : List Path) (p : Path) :
    (m.filterKeys fun k => ps.any fun q => q.same k).get? p =
      if p.Among ps then m.get? p else none := by
  rw [get?_filterKeys]
  · by_cases h : p.Among ps
    · rw [if_pos h, if_pos (Path.any_same_iff.2 h)]
    · rw [if_neg h, if_neg (fun hAny => h (Path.any_same_iff.1 hAny))]
  · intro q hq
    simp only [Path.same_congr_right hq]

theorem mem_keys_filterKeys {m : PathMap α} {keep : Path → Bool} {k : Path}
    (h : k ∈ (m.filterKeys keep).keys) : k ∈ m.keys ∧ keep k = true := by
  obtain ⟨v, he⟩ := mem_keys_iff.1 h
  have he := List.mem_filter.1 he
  exact ⟨mem_keys_iff.2 ⟨v, he.1⟩, he.2⟩

theorem mem_keys_erase {m : PathMap α} {p k : Path} (h : k ∈ (m.erase p).keys) : k ∈ m.keys :=
  (mem_keys_filterKeys h).1

/-! ## Values collected path by path -/

/-- The values of each path among some rows, in their order. -/
def collect (rows : List (Path × α)) : PathMap (List α) :=
  rows.foldl (fun m row => m.push row.1 row.2) empty

/-- The values of one path among some rows. -/
def valuesAt (p : Path) (rows : List (Path × α)) : List α :=
  (rows.filter fun row => row.1.same p).map (·.2)

theorem valuesAt_cons (p : Path) (row : Path × α) (rest : List (Path × α)) :
    valuesAt p (row :: rest) =
      if row.1.same p then row.2 :: valuesAt p rest else valuesAt p rest := by
  simp only [valuesAt, List.filter_cons]
  split <;> rfl

theorem valuesAt_congr {p q : Path} (h : p.same q = true) (rows : List (Path × α)) :
    valuesAt p rows = valuesAt q rows := by
  rw [valuesAt, valuesAt]
  simp only [Path.same_congr_right h]

theorem get?_push (m : PathMap (List α)) (p q : Path) (v : α) :
    (m.push p v).get? q =
      if p.same q then some ((m.get? q).getD [] ++ [v]) else m.get? q := by
  rw [push, get?_insert]
  cases h : p.same q with
  | true => simp only [get?_congr m h]
  | false => rfl

theorem get?_foldl_push (rows : List (Path × α)) (m : PathMap (List α)) (p : Path) :
    (rows.foldl (fun m row => m.push row.1 row.2) m).get? p =
      if valuesAt p rows = [] then m.get? p
      else some ((m.get? p).getD [] ++ valuesAt p rows) := by
  induction rows generalizing m with
  | nil => rfl
  | cons row rest ih =>
    rw [List.foldl_cons, ih, get?_push]
    rw [valuesAt_cons]
    cases row.1.same p with
    | false => rfl
    | true =>
      by_cases hRest : valuesAt p rest = []
      · simp [hRest]
      · simp [hRest]

theorem get?_collect (rows : List (Path × α)) (p : Path) :
    (collect rows).get? p = if valuesAt p rows = [] then none else some (valuesAt p rows) := by
  rw [collect, get?_foldl_push]
  rfl

theorem mem_valuesAt {p : Path} {rows : List (Path × α)} {v : α} :
    v ∈ valuesAt p rows ↔ ∃ k, (k, v) ∈ rows ∧ k.same p = true := by
  simp only [valuesAt, List.mem_map, List.mem_filter]
  constructor
  · rintro ⟨⟨k, w⟩, ⟨hRow, hk⟩, rfl⟩
    exact ⟨k, hRow, hk⟩
  · rintro ⟨k, hRow, hk⟩
    exact ⟨(k, v), ⟨hRow, hk⟩, rfl⟩

theorem mem_keys_foldl_push {rows : List (Path × α)} {m : PathMap (List α)} {k : Path}
    (h : k ∈ (rows.foldl (fun m row => m.push row.1 row.2) m).keys) :
    k ∈ m.keys ∨ ∃ row ∈ rows, row.1 = k := by
  induction rows generalizing m with
  | nil => exact .inl h
  | cons row rest ih =>
    rcases ih h with h | ⟨row', hRow, hk⟩
    · rcases mem_keys_insert h with rfl | h
      · exact .inr ⟨row, List.mem_cons_self, rfl⟩
      · exact .inl h
    · exact .inr ⟨row', List.mem_cons_of_mem row hRow, hk⟩

theorem mem_keys_collect {rows : List (Path × α)} {k : Path} (h : k ∈ (collect rows).keys) :
    ∃ row ∈ rows, row.1 = k := by
  rcases mem_keys_foldl_push h with h | h
  · cases h
  · exact h

/-! ## Keys alone -/

theorem keys_insertEntry_congr {p : Path} {v : α} {w : β} {l : List (Path × α)}
    {r : List (Path × β)} (h : l.map (·.1) = r.map (·.1)) :
    (insertEntry p v l).map (·.1) = (insertEntry p w r).map (·.1) := by
  induction l generalizing r with
  | nil =>
    obtain rfl := List.map_eq_nil_iff.1 h.symm
    rfl
  | cons x rest ih =>
    cases r with
    | nil => cases h
    | cons y rest' =>
      rw [List.map_cons, List.map_cons, List.cons.injEq] at h
      obtain ⟨hKey, hRest⟩ := h
      simp only [insertEntry, hKey]
      cases compare p y.1 with
      | lt => simp only [List.map_cons, hKey, hRest]
      | eq => simp only [List.map_cons, hRest]
      | gt => simp only [List.map_cons, hKey, ih hRest]

/-- What is inserted makes no difference to the keys. -/
theorem keys_insert_congr {m : PathMap α} {n : PathMap β} (h : m.keys = n.keys) (p : Path) (v : α)
    (w : β) : (m.insert p v).keys = (n.insert p w).keys := keys_insertEntry_congr h

/-! ## Maps from rows in any order -/

theorem contains_foldl_insert {rows : List (Path × α)} {m : PathMap α} {p : Path} :
    (rows.foldl (fun m row => m.insert row.1 row.2) m).contains p = true ↔
      m.contains p = true ∨ p.Among (rows.map (·.1)) := by
  induction rows generalizing m with
  | nil => simp
  | cons row rest ih =>
    rw [List.foldl_cons, ih, contains_insert, List.map_cons, Path.among_cons_iff,
      or_comm (a := row.1.same p = true), or_assoc]

theorem contains_ofList {rows : List (Path × α)} {p : Path} :
    (ofList rows).contains p = true ↔ p.Among (rows.map (·.1)) := by
  rw [ofList, contains_foldl_insert]
  exact or_iff_right fun h => by cases h

theorem mem_keys_foldl_insert {rows : List (Path × α)} {m : PathMap α} {k : Path}
    (h : k ∈ (rows.foldl (fun m row => m.insert row.1 row.2) m).keys) :
    k ∈ m.keys ∨ k ∈ rows.map (·.1) := by
  induction rows generalizing m with
  | nil => exact .inl h
  | cons row rest ih =>
    rcases ih h with h | h
    · rcases mem_keys_insert h with rfl | h
      · exact .inr List.mem_cons_self
      · exact .inl h
    · exact .inr (List.mem_cons_of_mem row.1 h)

theorem mem_keys_ofList {rows : List (Path × α)} {k : Path} (h : k ∈ (ofList rows).keys) :
    k ∈ rows.map (·.1) := by
  rcases mem_keys_foldl_insert h with h | h
  · cases h
  · exact h

theorem perm_insertEntry {p : Path} {v : α} {l : List (Path × α)}
    (h : ∀ e ∈ l, p.same e.1 = false) : (insertEntry p v l).Perm ((p, v) :: l) := by
  induction l with
  | nil => exact .refl _
  | cons e rest ih =>
    simp only [insertEntry]
    split <;> rename_i hCompare
    · exact .refl _
    · have hNot := h e List.mem_cons_self
      rw [Path.compare_eq_iff_same.1 hCompare] at hNot
      cases hNot
    · exact ((ih fun e' he' => h e' (List.mem_cons_of_mem e he')).cons e).trans (.swap _ _ _)

theorem perm_foldl_insert {rows : List (Path × α)} (m : PathMap α)
    (hRows : rows.Pairwise fun x y => x.1.same y.1 = false)
    (hNew : ∀ x ∈ rows, ∀ e ∈ m.entries, x.1.same e.1 = false) :
    (rows.foldl (fun m row => m.insert row.1 row.2) m).entries.Perm (rows ++ m.entries) := by
  induction rows generalizing m with
  | nil => exact .refl _
  | cons row rest ih =>
    rw [List.pairwise_cons] at hRows
    have hFirst := perm_insertEntry (v := row.2) (hNew row List.mem_cons_self)
    have hRest : ∀ x ∈ rest, ∀ e ∈ (m.insert row.1 row.2).entries, x.1.same e.1 = false := by
      intro x hx e he
      rcases List.mem_cons.1 (hFirst.mem_iff.1 he) with rfl | he
      · rw [Path.same_comm]
        exact hRows.1 x hx
      · exact hNew x (List.mem_cons_of_mem row hx) e he
    exact (ih (m.insert row.1 row.2) hRows.2 hRest).trans
      ((hFirst.append_left rest).trans List.perm_middle)

theorem perm_ofList {rows : List (Path × α)}
    (h : rows.Pairwise fun x y => x.1.same y.1 = false) : (ofList rows).entries.Perm rows := by
  have hFold := perm_foldl_insert empty h (fun x _ e he => by cases he)
  rw [show (empty : PathMap α).entries = [] from rfl, List.append_nil] at hFold
  exact hFold

/-! ## How keys are spelled -/

theorem keys_insert_of_contains {m : PathMap α} {p : Path} (h : m.contains p = true) (v : α) :
    (m.insert p v).keys = m.keys := by
  obtain ⟨entries, sorted⟩ := m
  show (insertEntry p v entries).map (·.1) = entries.map (·.1)
  rw [contains, List.any_eq_true] at h
  induction entries with
  | nil =>
    obtain ⟨e, he, _⟩ := h
    cases he
  | cons x rest ih =>
    rw [List.pairwise_cons] at sorted
    obtain ⟨e, he, hSame⟩ := h
    rw [insertEntry]
    split
    · -- All that is there comes after the path.
      rename_i hCompare
      have hLt : compare p e.1 = .lt := by
        rcases List.mem_cons.1 he with rfl | he
        · exact hCompare
        · exact Std.TransCmp.lt_trans hCompare (sorted.1 e he)
      rw [Path.same_comm, Path.not_same_of_lt hLt] at hSame
      cases hSame
    · rfl
    · rename_i hCompare
      rcases List.mem_cons.1 he with rfl | he
      · rw [Path.compare_eq_iff_same.2 (Path.same_symm hSame)] at hCompare
        cases hCompare
      · rw [List.map_cons, ih sorted.2 ⟨e, he, hSame⟩, List.map_cons]

theorem mem_keys_insert_iff {m : PathMap α} {p k : Path} {v : α} :
    k ∈ (m.insert p v).keys ↔ k ∈ m.keys ∨ k = p ∧ m.contains p = false := by
  cases hContains : m.contains p with
  | true => simp [keys_insert_of_contains hContains v]
  | false =>
    have hNew : ∀ e ∈ m.entries, p.same e.1 = false := by
      intro e he
      rw [contains, List.any_eq_false] at hContains
      rw [Path.same_comm]
      exact Bool.eq_false_iff.2 (hContains e he)
    have hKeys : (m.insert p v).keys.Perm (p :: m.keys) :=
      (perm_insertEntry (v := v) hNew).map Prod.fst
    rw [hKeys.mem_iff, List.mem_cons, or_comm]
    simp

/-- A key is spelled as it was when it came into the map. -/
theorem mem_keys_foldl_insert_iff (key : β → Path) (value : PathMap α → β → α) {rows : List β}
    {m : PathMap α} {k : Path} :
    k ∈ (rows.foldl (fun m row => m.insert (key row) (value m row)) m).keys ↔
      k ∈ m.keys ∨ m.contains k = false ∧ (rows.map key).find? (·.same k) = some k := by
  induction rows generalizing m with
  | nil => simp
  | cons row rest ih =>
    rw [List.foldl_cons, ih, mem_keys_insert_iff, List.map_cons, List.find?_cons, or_assoc]
    refine or_congr_right ?_
    cases hSame : (key row).same k with
    | true =>
      have hContains : (m.insert (key row) (value m row)).contains k = true :=
        contains_insert.2 (.inl hSame)
      rw [hContains, contains_congr m hSame, and_comm, eq_comm (a := k)]
      simp
    | false =>
      have hOther : k ≠ key row := by
        rintro rfl
        rw [Path.same_self] at hSame
        cases hSame
      have hContains : (m.insert (key row) (value m row)).contains k = m.contains k := by
        rw [Bool.eq_iff_iff, contains_insert, hSame]
        exact or_iff_right (by decide)
      rw [hContains]
      exact or_iff_right fun h => hOther h.1

theorem mem_keys_collect_iff {rows : List (Path × α)} {k : Path} :
    k ∈ (collect rows).keys ↔ (rows.map (·.1)).find? (·.same k) = some k := by
  refine (mem_keys_foldl_insert_iff (m := empty) Prod.fst
    fun m row => (m.get? row.1).getD [] ++ [row.2]).trans
    ((or_iff_right fun hKey => ?_).trans (and_iff_right rfl))
  cases hKey

theorem mem_keys_ofList_iff {rows : List (Path × α)} {k : Path} :
    k ∈ (ofList rows).keys ↔ (rows.map (·.1)).find? (·.same k) = some k := by
  refine (mem_keys_foldl_insert_iff (m := empty) Prod.fst fun _ row => row.2).trans
    ((or_iff_right fun hKey => ?_).trans (and_iff_right rfl))
  cases hKey

/-! ## Maps with the same entries -/

/-- Lists in strictly increasing order are equal if they have the same items. -/
theorem eq_of_pairwise_lt [Ord β] [Std.OrientedOrd β] {f : α → β} {l r : List α}
    (hl : l.Pairwise fun x y => compare (f x) (f y) = .lt)
    (hr : r.Pairwise fun x y => compare (f x) (f y) = .lt) (h : ∀ x, x ∈ l ↔ x ∈ r) : l = r := by
  have hAsymm : ∀ x y, compare (f x) (f y) = .lt → compare (f y) (f x) = .lt → False := by
    intro x y hxy hyx
    rw [Std.OrientedCmp.gt_of_lt hxy] at hyx
    cases hyx
  have hNodup : ∀ {l : List α}, l.Pairwise (fun x y => compare (f x) (f y) = .lt) →
      l.Nodup := by
    intro l hl
    refine hl.imp ?_
    rintro x y hLt rfl
    exact hAsymm x x hLt hLt
  have hPerm : l.Perm r := (List.perm_ext_iff_of_nodup (hNodup hl) (hNodup hr)).2 h
  exact hPerm.eq_of_pairwise (fun x y _ _ hxy hyx => (hAsymm x y hxy hyx).elim) hl hr

theorem eq_of_mem_entries_iff {m n : PathMap α} (h : ∀ e, e ∈ m.entries ↔ e ∈ n.entries) :
    m = n := by
  have hEntries : m.entries = n.entries := eq_of_pairwise_lt m.sorted n.sorted h
  cases m with
  | mk entries sorted =>
    cases n with
    | mk entries' sorted' =>
      obtain rfl : entries = entries' := hEntries
      rfl

/-- A map is made of its entries, in whatever order they come. -/
theorem ofList_of_perm {m : PathMap α} {rows : List (Path × α)} (h : rows.Perm m.entries) :
    ofList rows = m := by
  have hApart : rows.Pairwise fun x y => x.1.same y.1 = false := by
    refine (List.Perm.pairwise_iff ?_ h).2 (m.sorted.imp fun hLt => Path.not_same_of_lt hLt)
    intro x y hxy
    rw [Path.same_comm]
    exact hxy
  exact eq_of_mem_entries_iff fun _ => ((perm_ofList hApart).trans h).mem_iff

theorem eq_of_mem_keys {m : PathMap α} {k k' : Path} (hk : k ∈ m.keys) (hk' : k' ∈ m.keys)
    (h : k.same k' = true) : k = k' := by
  obtain ⟨v, he⟩ := mem_keys_iff.1 hk
  obtain ⟨v', he'⟩ := mem_keys_iff.1 hk'
  exact (Prod.mk.inj (eq_of_mem_entries he he' h)).1

/-- A key is found in its own spelling. -/
theorem find?_keys {m : PathMap α} {k : Path} (hk : k ∈ m.keys) :
    m.keys.find? (·.same k) = some k := by
  cases hFind : m.keys.find? (·.same k) with
  | none => exact absurd (Path.same_self k) (List.find?_eq_none.1 hFind k hk)
  | some q =>
    have hSame : q.same k = true := by simpa using List.find?_some hFind
    rw [eq_of_mem_keys (List.mem_of_find?_eq_some hFind) hk hSame]

/-- Maps are equal if they hold the same values at the same keys, spelled alike. -/
theorem eq_of_get? {m n : PathMap α} (hKeys : ∀ k, k ∈ m.keys ↔ k ∈ n.keys)
    (hGet : ∀ k ∈ m.keys, m.get? k = n.get? k) : m = n := by
  have hMem : ∀ {m n : PathMap α}, (∀ k ∈ m.keys, k ∈ n.keys) →
      (∀ k ∈ m.keys, m.get? k = n.get? k) → ∀ e ∈ m.entries, e ∈ n.entries := by
    rintro m n hKeys hGet ⟨k, v⟩ he
    have hk : k ∈ m.keys := mem_keys_iff.2 ⟨v, he⟩
    have hValue : n.get? k = some v := by
      rw [← hGet k hk]
      exact get?_of_mem he (Path.same_self k)
    obtain ⟨k', he', hSame⟩ := mem_of_get? hValue
    have hEq : k' = k := eq_of_mem_keys (mem_keys_iff.2 ⟨v, he'⟩) (hKeys k hk) hSame
    rwa [hEq] at he'
  refine eq_of_mem_entries_iff fun e => ?_
  constructor
  · exact hMem (fun k => (hKeys k).1) hGet e
  · exact hMem (fun k => (hKeys k).2) (fun k hk => (hGet k ((hKeys k).2 hk)).symm) e

/-- Maps that answer alike list the same values, however their keys are spelled. -/
theorem values_eq_of_get? {m n : PathMap α} (h : ∀ p, m.get? p = n.get? p) :
    m.values = n.values := by
  have hRows : ∀ m : PathMap α, (m.entries.map fun e => (e.1.components, e.2)).Pairwise
      fun x y => compare x.1 y.1 = .lt := by
    intro m
    rw [List.pairwise_map]
    exact m.sorted
  have hMem : ∀ {m n : PathMap α}, (∀ p, m.get? p = n.get? p) → ∀ x,
      x ∈ (m.entries.map fun e => (e.1.components, e.2)) →
        x ∈ n.entries.map fun e => (e.1.components, e.2) := by
    intro m n h x hx
    obtain ⟨⟨k, v⟩, he, rfl⟩ := List.mem_map.1 hx
    have hValue : n.get? k = some v := (h k).symm.trans (get?_of_mem he (Path.same_self k))
    obtain ⟨k', he', hSame⟩ := mem_of_get? hValue
    refine List.mem_map.2 ⟨(k', v), he', ?_⟩
    rw [Path.same_iff.1 hSame]
  have hEq := eq_of_pairwise_lt (hRows m) (hRows n) fun x =>
    ⟨hMem h x, hMem (fun p => (h p).symm) x⟩
  have hValues := congrArg (List.map Prod.snd) hEq
  rwa [List.map_map, List.map_map] at hValues

/-- Lists in strictly increasing order of paths have the same paths one by one, if they have the same
paths at all. -/
theorem forall₂_same_of_pairwise_lt {f : α → Path} {g : β → Path} {l : List α} {r : List β}
    (hl : l.Pairwise fun x y => compare (f x) (f y) = .lt)
    (hr : r.Pairwise fun x y => compare (g x) (g y) = .lt)
    (h : ∀ p : Path, p.Among (l.map f) ↔ p.Among (r.map g)) :
    List.Forall₂ (fun x y => (f x).same (g y) = true) l r := by
  have hMem : ∀ {ps : List Path} {c : List Component},
      c ∈ ps.map Path.components ↔ ∃ p : Path, p.components = c ∧ p.Among ps := by
    intro ps c
    rw [List.mem_map]
    constructor
    · rintro ⟨p, hp, rfl⟩
      exact ⟨p, rfl, Path.among_of_mem hp⟩
    · rintro ⟨p, rfl, q, hq, hSame⟩
      exact ⟨q, hq, Path.same_iff.1 hSame⟩
  have hEq : (l.map f).map Path.components = (r.map g).map Path.components := by
    refine eq_of_pairwise_lt (f := id) ?_ ?_ fun c => ?_
    · rw [List.pairwise_map, List.pairwise_map]
      exact hl
    · rw [List.pairwise_map, List.pairwise_map]
      exact hr
    · simp only [hMem, h]
  rw [← List.forall₂_eq_eq_eq, List.forall₂_map_left_iff, List.forall₂_map_left_iff,
    List.forall₂_map_right_iff, List.forall₂_map_right_iff] at hEq
  exact hEq.imp fun _ _ hComponents => Path.same_iff.2 hComponents

/-- Maps have the same entries one by one if they hold values that agree at the same paths. -/
theorem forall₂_entries_of_get? {agree : α → β → Prop} {m : PathMap α} {n : PathMap β}
    (h : ∀ p, Option.Rel agree (m.get? p) (n.get? p)) :
    List.Forall₂ (fun x y => x.1.same y.1 = true ∧ agree x.2 y.2) m.entries n.entries := by
  have hKeys : ∀ p : Path, p.Among m.keys ↔ p.Among n.keys := by
    intro p
    have hRel := h p
    rw [← contains_iff, ← contains_iff, contains_eq_isSome, contains_eq_isSome]
    generalize m.get? p = x at hRel ⊢
    generalize n.get? p = y at hRel ⊢
    cases hRel <;> simp
  have hSame := forall₂_same_of_pairwise_lt (f := Prod.fst) (g := Prod.fst) m.sorted n.sorted
    hKeys
  rw [List.forall₂_iff_zip] at hSame ⊢
  refine ⟨hSame.1, fun {x y} hMem => ⟨hSame.2 hMem, ?_⟩⟩
  obtain ⟨hx, hy⟩ := List.of_mem_zip hMem
  have hRel := h x.1
  rw [get?_of_mem hx (Path.same_self x.1), get?_of_mem hy (Path.same_symm (hSame.2 hMem))] at hRel
  cases hRel with
  | some hAgree => exact hAgree

/-! ## Lists laid end to end -/

theorem flatMap_filter_contains (m : PathMap (List α)) (ps : List Path) :
    ((ps.filter m.contains).flatMap fun p => (m.get? p).getD []) =
      ps.flatMap fun p => (m.get? p).getD [] := by
  induction ps with
  | nil => rfl
  | cons p rest ih =>
    rw [List.flatMap_cons, List.filter_cons, ← ih]
    cases hContains : m.contains p with
    | true => rfl
    | false =>
      rw [get?_eq_none_iff.2 hContains]
      rfl

theorem flatten_map_snd {m : PathMap (List α)} {ps : List Path} {entries : List (Path × List α)}
    (h : List.Forall₂ (fun p (e : Path × List α) => p.same e.1 = true) ps entries)
    (hMem : ∀ e ∈ entries, e ∈ m.entries) :
    (entries.map (·.2)).flatten = ps.flatMap fun p => (m.get? p).getD [] := by
  induction h with
  | nil => rfl
  | @cons p e ps entries hFirst _ ih =>
    rw [List.map_cons, List.flatten_cons, List.flatMap_cons,
      get?_of_mem (hMem e List.mem_cons_self) (Path.same_symm hFirst), Option.getD_some,
      ih fun e' he' => hMem e' (List.mem_cons_of_mem e he')]

/-- The lists that a map holds are those of any paths in order that have its keys among them. -/
theorem flatten_values_eq {m : PathMap (List α)} {ps : List Path}
    (hOrder : ps.Pairwise fun p q => compare p q = .lt)
    (hKeys : ∀ p : Path, p.Among m.keys → p.Among ps) :
    m.values.flatten = ps.flatMap fun p => (m.get? p).getD [] := by
  have hSame : List.Forall₂ (fun p (e : Path × List α) => p.same e.1 = true)
      (ps.filter m.contains) m.entries := by
    refine forall₂_same_of_pairwise_lt (f := id) (g := Prod.fst) (hOrder.filter _) m.sorted
      fun p => ?_
    rw [List.map_id, show m.entries.map Prod.fst = m.keys from rfl]
    constructor
    · rintro ⟨q, hq, hEq⟩
      exact (Path.among_congr hEq).1 (contains_iff.1 (List.mem_filter.1 hq).2)
    · intro hKey
      obtain ⟨q, hq, hEq⟩ := hKeys p hKey
      rw [← Path.among_congr hEq, ← contains_iff] at hKey
      exact ⟨q, List.mem_filter.2 ⟨hq, hKey⟩, hEq⟩
  rw [← flatMap_filter_contains]
  exact flatten_map_snd hSame fun _ he => he

/-! ## Maps that agree -/

theorem sameBy_iff {agree : α → α → Bool} {m n : PathMap α} : m.sameBy agree n = true ↔
    List.Forall₂ (fun x y => x.1.same y.1 = true ∧ agree x.2 y.2 = true) m.entries n.entries := by
  rw [sameBy, List.forall₂_iff_zip, Bool.and_eq_true, beq_iff_eq, List.all_eq_true]
  refine and_congr_right fun _ => ⟨fun h a b hMem => ?_, fun h x hx => ?_⟩
  · exact Bool.and_eq_true_iff.1 (h (a, b) hMem)
  · exact Bool.and_eq_true_iff.2 (h hx)

theorem sameBy_self {agree : α → α → Bool} (h : ∀ a, agree a a = true) (m : PathMap α) :
    m.sameBy agree m = true :=
  sameBy_iff.2 (List.forall₂_same.2 fun e _ => ⟨Path.same_self e.1, h e.2⟩)

theorem sameBy_symm {agree : α → α → Bool} (hAgree : ∀ a b, agree a b = true → agree b a = true)
    {m n : PathMap α} (h : m.sameBy agree n = true) : n.sameBy agree m = true :=
  sameBy_iff.2 ((sameBy_iff.1 h).flip.imp fun _ _ hEntry =>
    ⟨Path.same_symm hEntry.1, hAgree _ _ hEntry.2⟩)

theorem exists_get?_of_sameBy {agree : α → α → Bool} {m n : PathMap α}
    (h : m.sameBy agree n = true) {p : Path} {v : α} (hGet : m.get? p = some v) :
    ∃ w, n.get? p = some w ∧ agree v w = true := by
  obtain ⟨k, he, hk⟩ := mem_of_get? hGet
  obtain ⟨e', he', hKey, hValue⟩ := exists_of_mem_of_forall₂ (sameBy_iff.1 h).flip he
  exact ⟨e'.2, get?_of_mem he' (Path.same_trans (Path.same_symm hKey) hk), hValue⟩

end PathMap

end AnalysisCache
