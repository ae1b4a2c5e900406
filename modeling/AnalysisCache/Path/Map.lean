import AnalysisCache.Path.Basic

/-!
# Maps keyed by paths

A finite map from paths to values, listed in the order of its paths. Paths with the same components
are one key, which stays spelled as it was when it came into the map.

* `PathMap.get?_insert`: what a map holds after an insertion.
* `PathMap.get?_erase`: what a map holds after a removal.
-/

namespace AnalysisCache

/-- Entries in strictly increasing order of their paths. -/
structure PathMap (α : Type) where
  entries : List (Path × α)
  sorted : entries.Pairwise fun x y => compare x.1 y.1 = .lt
deriving DecidableEq

namespace PathMap

variable {α β : Type}

def empty : PathMap α := ⟨[], .nil⟩

instance : Inhabited (PathMap α) := ⟨empty⟩

def size (m : PathMap α) : Nat := m.entries.length

def isEmpty (m : PathMap α) : Bool := m.entries.isEmpty

def keys (m : PathMap α) : List Path := m.entries.map (·.1)

def values (m : PathMap α) : List α := m.entries.map (·.2)

/-- The value at a path, in whatever spelling. -/
def get? (m : PathMap α) (p : Path) : Option α :=
  (m.entries.find? fun e => e.1.same p).map (·.2)

def contains (m : PathMap α) (p : Path) : Bool := m.entries.any fun e => e.1.same p

/-- Puts an entry at its place in a sorted list, keeping a key's first spelling. -/
def insertEntry (p : Path) (v : α) : List (Path × α) → List (Path × α)
  | [] => [(p, v)]
  | e :: rest =>
    match compare p e.1 with
    | .lt => (p, v) :: e :: rest
    | .eq => (e.1, v) :: rest
    | .gt => e :: insertEntry p v rest

theorem mem_insertEntry {p : Path} {v : α} {l : List (Path × α)} {x : Path × α}
    (h : x ∈ insertEntry p v l) : x.1 = p ∨ ∃ y ∈ l, y.1 = x.1 := by
  induction l with
  | nil => simp_all [insertEntry]
  | cons e rest ih =>
    simp only [insertEntry] at h
    split at h <;> rename_i hCompare
    · rcases List.mem_cons.1 h with rfl | hx
      · exact .inl rfl
      · exact .inr ⟨x, hx, rfl⟩
    · rcases List.mem_cons.1 h with rfl | hx
      · exact .inr ⟨e, by simp, rfl⟩
      · exact .inr ⟨x, by simp [hx], rfl⟩
    · rcases List.mem_cons.1 h with rfl | hx
      · exact .inr ⟨x, by simp, rfl⟩
      · rcases ih hx with h' | ⟨y, hy, h'⟩
        · exact .inl h'
        · exact .inr ⟨y, by simp [hy], h'⟩

theorem sorted_insertEntry (p : Path) (v : α) {l : List (Path × α)}
    (h : l.Pairwise fun x y => compare x.1 y.1 = .lt) :
    (insertEntry p v l).Pairwise fun x y => compare x.1 y.1 = .lt := by
  induction l with
  | nil => simp [insertEntry]
  | cons e rest ih =>
    rw [List.pairwise_cons] at h
    simp only [insertEntry]
    split <;> rename_i hCompare
    · refine List.pairwise_cons.2 ⟨fun y hy => ?_, List.pairwise_cons.2 h⟩
      rcases List.mem_cons.1 hy with rfl | hy
      · exact hCompare
      · exact Std.TransCmp.lt_trans hCompare (h.1 y hy)
    · exact List.pairwise_cons.2 h
    · refine List.pairwise_cons.2 ⟨fun y hy => ?_, ih h.2⟩
      have hGt : compare e.1 p = .lt := Std.OrientedCmp.lt_of_gt hCompare
      rcases mem_insertEntry hy with hy | ⟨z, hz, hy⟩
      · rw [hy]
        exact hGt
      · rw [← hy]
        exact h.1 z hz

/-- Sets the value at a path. -/
def insert (m : PathMap α) (p : Path) (v : α) : PathMap α :=
  ⟨insertEntry p v m.entries, sorted_insertEntry p v m.sorted⟩

/-- Drops the entries whose path does not satisfy a condition. -/
def filterKeys (m : PathMap α) (keep : Path → Bool) : PathMap α :=
  ⟨m.entries.filter fun e => keep e.1, m.sorted.filter _⟩

/-- Drops the entry at a path. -/
def erase (m : PathMap α) (p : Path) : PathMap α := m.filterKeys fun q => !q.same p

/-- Sets the value at a path, and its spelling too. -/
def replace (m : PathMap α) (p : Path) (v : α) : PathMap α := (m.erase p).insert p v

/-- Changes the values and keeps the paths. -/
def map (f : α → β) (m : PathMap α) : PathMap β :=
  ⟨m.entries.map fun e => (e.1, f e.2), by
    rw [List.pairwise_map]
    exact m.sorted⟩

/-- Inserts entries one after another. -/
def ofList (rows : List (Path × α)) : PathMap α :=
  rows.foldl (fun m row => m.insert row.1 row.2) empty

/-- Puts `v` at the end of the list at a path, which counts as empty if there is none. -/
def push (m : PathMap (List α)) (p : Path) (v : α) : PathMap (List α) :=
  m.insert p ((m.get? p).getD [] ++ [v])

theorem get?_def (m : PathMap α) (p : Path) :
    m.get? p = (m.entries.find? fun e => e.1.same p).map (·.2) := rfl

@[simp] theorem get?_empty (p : Path) : (empty : PathMap α).get? p = none := rfl

theorem contains_eq_isSome (m : PathMap α) (p : Path) : m.contains p = (m.get? p).isSome := by
  simp only [contains, get?, Option.isSome_map]
  induction m.entries with
  | nil => rfl
  | cons e rest ih => by_cases h : e.1.same p <;> simp [h, ih]

theorem find?_insertEntry (p q : Path) (v : α) (l : List (Path × α)) :
    ((insertEntry p v l).find? fun e => e.1.same q).map (·.2) =
      if p.same q then some v else (l.find? fun e => e.1.same q).map (·.2) := by
  induction l with
  | nil => by_cases h : p.same q <;> simp [insertEntry, h]
  | cons e rest ih =>
    simp only [insertEntry]
    split <;> rename_i hCompare
    · by_cases h : p.same q <;> simp [h]
    · have hSame := Path.compare_eq_iff_same.1 hCompare
      by_cases h : p.same q
      · have : e.1.same q = true := Path.same_trans (Path.same_comm ▸ hSame) h
        simp [h, this]
      · have : e.1.same q = false := by
          cases hq : e.1.same q with
          | false => rfl
          | true => exact absurd (Path.same_trans hSame hq) h
        simp [h, this]
    · have hNot : p.same e.1 = false := by
        cases hq : p.same e.1 with
        | false => rfl
        | true => rw [Path.compare_eq_iff_same.2 hq] at hCompare; cases hCompare
      by_cases h : e.1.same q
      · have : p.same q = false := by
          cases hq : p.same q with
          | false => rfl
          | true => rw [Path.same_trans hq (Path.same_comm ▸ h)] at hNot; cases hNot
        simp [h, this]
      · simp [h, ih]

theorem get?_insert (m : PathMap α) (p q : Path) (v : α) :
    (m.insert p v).get? q = if p.same q then some v else m.get? q :=
  find?_insertEntry p q v m.entries

@[simp] theorem get?_insert_self (m : PathMap α) (p : Path) (v : α) :
    (m.insert p v).get? p = some v := by
  simp [get?_insert]

/-- A path's entry stays if the condition does not tell apart spellings of it. -/
theorem get?_filterKeys (m : PathMap α) (keep : Path → Bool) (p : Path)
    (h : ∀ q, q.same p = true → keep q = keep p) :
    (m.filterKeys keep).get? p = if keep p then m.get? p else none := by
  simp only [get?, filterKeys]
  induction m.entries with
  | nil => simp
  | cons e rest ih =>
    cases hSame : e.1.same p with
    | true =>
      have hKeep := h _ hSame
      cases hp : keep p with
      | true => simp [hKeep, hp, hSame]
      | false =>
        rw [hp] at hKeep ih
        simpa [hKeep] using ih
    | false =>
      cases hKeep : keep e.1 with
      | true => simpa [hKeep, hSame] using ih
      | false => simpa [hKeep, hSame] using ih

theorem get?_erase (m : PathMap α) (p q : Path) :
    (m.erase p).get? q = if p.same q then none else m.get? q := by
  rw [erase, get?_filterKeys]
  · rw [Path.same_comm (p := q)]
    cases p.same q <;> simp
  · intro r hr
    have : r.same p = q.same p := by
      cases hq : q.same p with
      | true => exact Path.same_trans hr hq
      | false =>
        cases hrp : r.same p with
        | false => rfl
        | true => rw [Path.same_trans (Path.same_comm ▸ hr) hrp] at hq; cases hq
    rw [this]

theorem get?_replace (m : PathMap α) (p q : Path) (v : α) :
    (m.replace p v).get? q = if p.same q then some v else m.get? q := by
  rw [replace, get?_insert, get?_erase]
  split <;> rfl

@[simp] theorem entries_map (f : α → β) (m : PathMap α) :
    (m.map f).entries = m.entries.map fun e => (e.1, f e.2) := rfl

/-- Whether two maps have the same paths with values that `agree`. -/
def sameBy (agree : α → α → Bool) (m n : PathMap α) : Bool :=
  m.entries.length == n.entries.length &&
    (List.zip m.entries n.entries).all fun (x, y) => x.1.same y.1 && agree x.2 y.2

end PathMap

end AnalysisCache
