import AnalysisCache.Text.Bytes

/-!
# Maps keyed by lists of names

A finite map from lists of names to values, kept as a tree that branches at each name. A look-up
goes down name by name, so that it takes no longer where many keys begin alike.

* `Trie.get?_set`, `Trie.get?_erase`: what a map holds after a change.
* `Trie.mem_names_iff`: which names lead from a key to another one.
-/

namespace AnalysisCache

inductive Trie (α : Type) where
  | node (value : Option α) (branches : List (Bytes × Trie α))

namespace Trie

variable {α : Type}

def empty : Trie α := .node none []

instance : Inhabited (Trie α) := ⟨empty⟩

/-- The value at the empty list. -/
def value : Trie α → Option α
  | .node v _ => v

def branches : Trie α → List (Bytes × Trie α)
  | .node _ bs => bs

/-- What the map holds at the lists that begin with a name, without that name. -/
def branch (t : Trie α) (name : Bytes) : Trie α :=
  ((t.branches.find? fun b => b.1 == name).map (·.2)).getD empty

/-- What the map holds at the lists that begin with the given names, without these. -/
def descend : List Bytes → Trie α → Trie α
  | [], t => t
  | name :: rest, t => descend rest (t.branch name)

def get? (t : Trie α) (names : List Bytes) : Option α := (t.descend names).value

/-- Puts a branch in the place of the one with its name, or at the end. -/
def putBranch (name : Bytes) (t : Trie α) : List (Bytes × Trie α) → List (Bytes × Trie α)
  | [] => [(name, t)]
  | b :: rest => if b.1 = name then (name, t) :: rest else b :: putBranch name t rest

/-- Changes what the map holds at the lists that begin with the given names. -/
def change (f : Trie α → Trie α) : List Bytes → Trie α → Trie α
  | [], t => f t
  | name :: rest, t => .node t.value (putBranch name (change f rest (t.branch name)) t.branches)

def withValue (v : Option α) (t : Trie α) : Trie α := .node v t.branches

def set (t : Trie α) (names : List Bytes) (v : α) : Trie α := t.change (withValue (some v)) names

def erase (t : Trie α) (names : List Bytes) : Trie α := t.change (withValue none) names

/-- Takes away what is at the lists that begin with the given names. -/
def eraseFrom (t : Trie α) (names : List Bytes) : Trie α := t.change (fun _ => empty) names

/-- The names that lead from the given ones to a value. -/
def names (t : Trie α) (prior : List Bytes) : List Bytes :=
  let s := t.descend prior
  (s.branches.map (·.1)).filter fun name => (s.branch name).value.isSome

@[simp] theorem branch_empty (name : Bytes) : (empty : Trie α).branch name = empty := rfl

@[simp] theorem branch_withValue (v : Option α) (t : Trie α) (name : Bytes) :
    (t.withValue v).branch name = t.branch name := rfl

@[simp] theorem descend_empty (names : List Bytes) : (empty : Trie α).descend names = empty := by
  induction names with
  | nil => rfl
  | cons name rest ih => exact ih

theorem descend_append (t : Trie α) (names more : List Bytes) :
    t.descend (names ++ more) = (t.descend names).descend more := by
  induction names generalizing t with
  | nil => rfl
  | cons name rest ih => exact ih (t.branch name)

@[simp] theorem get?_empty (names : List Bytes) : (empty : Trie α).get? names = none := by
  rw [get?, descend_empty]
  rfl

theorem find?_putBranch (name other : Bytes) (t : Trie α) (bs : List (Bytes × Trie α)) :
    ((putBranch name t bs).find? fun b => b.1 == other).map (·.2) =
      if name = other then some t else (bs.find? fun b => b.1 == other).map (·.2) := by
  induction bs with
  | nil => by_cases h : name = other <;> simp [putBranch, h]
  | cons b rest ih =>
    by_cases hb : b.1 = name
    · by_cases h : name = other <;> simp [putBranch, hb, h]
    · rw [putBranch, if_neg hb]
      by_cases h : b.1 = other
      · have hn : ¬ name = other := fun hn => hb (h.trans hn.symm)
        simp [h, hn]
      · simpa [h] using ih

theorem branch_change (f : Trie α → Trie α) (name other : Bytes) (rest : List Bytes)
    (t : Trie α) :
    (t.change f (name :: rest)).branch other =
      if name = other then (t.branch name).change f rest else t.branch other := by
  simp only [change, branch, branches, find?_putBranch]
  split <;> rfl

theorem get?_change_withValue (t : Trie α) (v : Option α) (names other : List Bytes) :
    (t.change (withValue v) names).get? other = if other = names then v else t.get? other := by
  induction names generalizing t other with
  | nil =>
    cases other with
    | nil => simp [get?, change, descend, withValue, value]
    | cons name more => simp [get?, change, descend]
  | cons name rest ih =>
    cases other with
    | nil => rfl
    | cons x more =>
      simp only [get?] at ih
      simp only [get?, descend, branch_change]
      by_cases h : name = x
      · subst h
        simp [ih]
      · simp [h, Ne.symm h]

theorem get?_set (t : Trie α) (names other : List Bytes) (v : α) :
    (t.set names v).get? other = if other = names then some v else t.get? other :=
  get?_change_withValue t (some v) names other

theorem get?_erase (t : Trie α) (names other : List Bytes) :
    (t.erase names).get? other = if other = names then none else t.get? other :=
  get?_change_withValue t none names other

theorem mem_names_iff {t : Trie α} {prior : List Bytes} {name : Bytes} :
    name ∈ t.names prior ↔ (t.get? (prior ++ [name])).isSome = true := by
  simp only [names, get?, descend_append, descend, List.mem_filter, and_iff_right_iff_imp]
  intro h
  simp only [branch] at h
  cases hFind : (t.descend prior).branches.find? fun b => b.1 == name with
  | none =>
    rw [hFind] at h
    cases h
  | some b =>
    have hName : b.1 = name := by simpa using List.find?_some hFind
    exact List.mem_map.2 ⟨b, List.mem_of_find?_eq_some hFind, hName⟩

end Trie

end AnalysisCache
