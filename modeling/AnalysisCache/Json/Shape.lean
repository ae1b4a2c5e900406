import AnalysisCache.Record
import AnalysisCache.Json.Basic
import AnalysisCache.Path.Map
import AnalysisCache.Digest.Basic

/-!
# Values of a given shape

Reading a JSON value as something else: as a text, a path, a list, a map, or a record, which may be
written as an object or as the array of its fields in their order. A value of another shape is
refused, and nothing is said about why.
-/

namespace AnalysisCache

namespace Json

def isNull : Json → Bool
  | .null => true
  | _ => false

def asText? : Json → Option String
  | .string s => some s
  | _ => none

def asNatBelow? (bound : Nat) : Json → Option Nat
  | .number (.natural n) => if n < bound then some n else none
  | _ => none

def asPath? (v : Json) : Option Path := v.asText?.map Path.ofText

def asDigest? (v : Json) : Option Digest := do
  let s ← v.asText?
  (Digest.parse s).toOption

def asList? {α : Type} (read? : Json → Option α) : Json → Option (List α)
  | .array items => items.mapM read?
  | _ => none

/-- A value that may be `null`, and counts as `null` if it is missing. -/
def asOption? {α : Type} (read? : Json → Option α) : Option Json → Option (Option α)
  | none => some none
  | some v => if v.isNull then some none else (read? v).map some

/-- A map from paths, of which the members are put in by the order of their names. -/
def asPathMap? {α : Type} (read? : Json → Option α) : Json → Option (PathMap α)
  | .object members =>
    ((canonical members).mapM fun m => (read? m.2).map fun v => (Path.ofText m.1, v)).map
      PathMap.ofList
  | _ => none

/-- A record of at most `count` fields. -/
def asRecord? (count : Nat) : Json → Option (Record Json)
  | .array items => if items.length ≤ count then some (.listed items) else none
  | .object members => some (.named (canonical members))
  | _ => none

/-- A record that has no field but those with the given names. -/
def asClosedRecord? (names : List String) (v : Json) : Option (Record Json) := do
  let r ← v.asRecord? names.length
  match r with
  | .named members => if members.all fun m => names.contains m.1 then some r else none
  | .listed _ => some r

/-- What can keep a value from being written. -/
inductive EncodeError where
  | pathNotText
deriving DecidableEq

def EncodeError.message : EncodeError → String
  | .pathNotText => "path contains invalid UTF-8 characters"

def ofPath (p : Path) : Except EncodeError Json :=
  match p.text? with
  | some s => .ok (.string s)
  | none => .error .pathNotText

def ofPaths (ps : List Path) : Except EncodeError Json := do
  return .array (← ps.mapM ofPath)

def ofDigest (d : Digest) : Json := .string d.toText

/-- A member for each path, in the order of the paths. -/
def ofPathMap {α : Type} (write : α → Except EncodeError Json) (m : PathMap α) :
    Except EncodeError Json := do
  let members ← m.entries.mapM fun e =>
    match e.1.text? with
    | some s => (write e.2).map fun v => (s, v)
    | none => .error .pathNotText
  return .object members

end Json

end AnalysisCache
