/-!
# TOML tables

A table may come about in four ways, which decide what can still be added to it. A table that has a
header of its own, or is an element of an array of tables, gets the assignments that follow the
header. A table that only leads to the one in a header may yet get a header. A table made by a
dotted key can be added to by dotted keys alone, and a table written as a value is complete.

* `TomlTable.change`: how a path leads to a table, by way of the last element of an array of tables.
* `TomlTable.find?_put`: a table holds what was last put into it.
-/

namespace AnalysisCache

/-- How a table came about. -/
inductive TableOrigin where
  /-- By a header. -/
  | header
  /-- By the header of a table in it. -/
  | implied
  /-- By a dotted key. -/
  | dotted
  /-- As a value. -/
  | complete
deriving DecidableEq

/-- A value. Numbers with a fraction or an exponent, dates and times are kept as they are
written. -/
inductive Toml where
  | string (s : String)
  | boolean (b : Bool)
  | integer (n : Int)
  | float (written : String)
  | moment (written : String)
  | array (items : List Toml)
  | table (origin : TableOrigin) (members : List (String × Toml))
  | tables (elements : List (List (String × Toml)))

instance : Inhabited Toml := ⟨.boolean false⟩

/-- The members of a table in the order in which they were first named. -/
abbrev TomlTable := List (String × Toml)

/-- A key: the name of a member, and the path to the table that it is in. -/
structure TomlKey where
  path : List String
  name : String
deriving DecidableEq

namespace TomlTable

def find? (t : TomlTable) (name : String) : Option Toml :=
  (List.find? (fun m => m.1 == name) t).map (·.2)

/-- Puts a member in the place of the one with its name, or at the end. -/
def put (name : String) (v : Toml) : TomlTable → TomlTable
  | [] => [(name, v)]
  | m :: rest => if m.1 = name then (name, v) :: rest else m :: put name v rest

theorem find?_put (t : TomlTable) (name other : String) (v : Toml) :
    (t.put name v).find? other = if name = other then some v else t.find? other := by
  induction t with
  | nil => by_cases h : name = other <;> simp [put, find?, h]
  | cons m rest ih =>
    simp only [find?] at ih
    by_cases hm : m.1 = name
    · by_cases h : name = other <;> simp [put, find?, hm, h]
    · rw [put, if_neg hm]
      by_cases h : m.1 = other
      · have hn : ¬ name = other := fun hn => hm (h.trans hn.symm)
        simp [find?, h, hn]
      · simpa [find?, h] using ih

/-- Changes the table that a path leads to. Tables that are missing on the way are made with the
given origin, which is `implied` for the path of a header and `dotted` for that of a key. -/
def change (made : TableOrigin) (f : TableOrigin → TomlTable → Option TomlTable) :
    List String → TableOrigin → TomlTable → Option TomlTable
  | [], origin, t => f origin t
  | name :: path, _, t =>
    match t.find? name with
    | none => (change made f path made []).map fun sub => t.put name (.table made sub)
    | some (.table origin sub) =>
      if origin = .complete ∨ (made = .dotted ∧ origin = .header) then none
      else (change made f path origin sub).map fun sub => t.put name (.table origin sub)
    | some (.tables elements) =>
      match elements.getLast? with
      | none => none
      | some last =>
        (change made f path .header last).map fun last =>
          t.put name (.tables (elements.dropLast ++ [last]))
    | some _ => none

/-- Adds a member. A dotted key must lead to a table made by a dotted key. -/
def assign (key : TomlKey) (v : Toml) (t : TomlTable) : Option TomlTable :=
  t.change .dotted
    (fun origin t =>
      if key.path ≠ [] ∧ origin ≠ .dotted then none
      else if (t.find? key.name).isSome then none
      else some (t.put key.name v))
    key.path .header

/-- Gives a table its header. -/
def openTable (key : TomlKey) (t : TomlTable) : Option TomlTable :=
  t.change .implied
    (fun _ t =>
      match t.find? key.name with
      | none => some (t.put key.name (.table .header []))
      | some (.table .implied sub) => some (t.put key.name (.table .header sub))
      | some _ => none)
    key.path .header

/-- Adds an element to an array of tables. -/
def openElement (key : TomlKey) (t : TomlTable) : Option TomlTable :=
  t.change .implied
    (fun _ t =>
      match t.find? key.name with
      | none => some (t.put key.name (.tables [[]]))
      | some (.tables elements) => some (t.put key.name (.tables (elements ++ [[]])))
      | some _ => none)
    key.path .header

end TomlTable

end AnalysisCache
