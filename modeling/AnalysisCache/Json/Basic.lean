/-!
# JSON values

A JSON value as it is written: the members of an object keep their order, also if a name occurs
more than once. What an object means is given by `Json.canonical`: its members in the order of their
names, where of several members with one name the last counts.
-/

namespace AnalysisCache

/-- A number other than an integer in range: it has the value `significand * 10 ^ exponent`, up to
the precision that was kept. -/
structure Decimal where
  negative : Bool
  significand : Nat
  exponent : Int
deriving DecidableEq

/-- A number, told apart by how it is written: only integers written as such are integers. -/
inductive JsonNumber where
  | natural (n : Nat)
  | negative (n : Nat)
  | decimal (d : Decimal)
deriving DecidableEq

inductive Json where
  | null
  | bool (b : Bool)
  | number (n : JsonNumber)
  | string (s : String)
  | array (items : List Json)
  | object (members : List (String × Json))

namespace Json

def nat (n : Nat) : Json := .number (.natural n)

instance : Inhabited Json := ⟨.null⟩

/-- Puts a member at its place among members in the order of their names, taking the place of one
with the same name. -/
def insertMember (name : String) (v : Json) : List (String × Json) → List (String × Json)
  | [] => [(name, v)]
  | m :: rest =>
    if name < m.1 then (name, v) :: m :: rest
    else if name = m.1 then (name, v) :: rest
    else m :: insertMember name v rest

/-- The members in the order of their names, the last one of each name. -/
def canonical (members : List (String × Json)) : List (String × Json) :=
  members.foldl (fun sorted m => insertMember m.1 m.2 sorted) []

end Json

end AnalysisCache
