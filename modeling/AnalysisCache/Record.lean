/-!
# Records

The fields of a record may be given by their names or in their order.
-/

namespace AnalysisCache

/-- The fields of a record, by their names or in their order. -/
inductive Record (α : Type) where
  | named (members : List (String × α))
  | listed (items : List α)

namespace Record

variable {α : Type}

/-- The field with the given name and place. -/
def field? (r : Record α) (name : String) (place : Nat) : Option α :=
  match r with
  | .named members => (members.find? fun m => m.1 == name).map (·.2)
  | .listed items => items[place]?

/-- Reads a field, which has a value of its own if it is missing. -/
def read? {β : Type} (r : Record α) (name : String) (place : Nat) (read? : α → Option β)
    (missing : β) : Option β :=
  match r.field? name place with
  | none => some missing
  | some v => read? v

end Record

end AnalysisCache
