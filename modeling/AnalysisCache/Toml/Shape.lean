import AnalysisCache.Record
import AnalysisCache.Toml.Basic

/-!
# TOML values of a given shape

Reading a value as a text, a list or a record. An array of tables is a list of tables.
-/

namespace AnalysisCache

namespace Toml

def asText? : Toml → Option String
  | .string s => some s
  | _ => none

def asItems? : Toml → Option (List Toml)
  | .array items => some items
  | .tables elements => some (elements.map (.table .header))
  | _ => none

def asTexts? (v : Toml) : Option (List String) := v.asItems?.bind fun items => items.mapM asText?

/-- A record, written as a table or as the list of its fields. A moment is a record too, none of
the fields of which is given. -/
def asRecord? : Toml → Option (Record Toml)
  | .table _ members => some (.named members)
  | .moment _ => some (.named [])
  | v => v.asItems?.map .listed

end Toml

end AnalysisCache
