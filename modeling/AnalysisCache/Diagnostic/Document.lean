import AnalysisCache.Diagnostic.Basic
import AnalysisCache.Json.Shape

/-!
# Diagnostics in JSON

A diagnostic is an object that leaves out the fields it does not have.
-/

namespace AnalysisCache

namespace Severity

def toJson (s : Severity) : Json := .string s.text

/-- A severity is a text, or an object with that text as its one name and nothing in it. -/
def ofJson? : Json → Option Severity
  | .string s => ofText? s
  | .object members =>
    match Json.canonical members with
    | [(name, v)] => if v.isNull then ofText? name else none
    | _ => none
  | _ => none

@[simp] theorem ofJson?_toJson (s : Severity) : ofJson? s.toJson = some s :=
  ofText?_text s

end Severity

namespace Diagnostic

/-- A member with the given name, if there is a value for it. -/
def member (name : String) (v : Option Json) : List (String × Json) :=
  (v.map fun v => (name, v)).toList

def toJson (d : Diagnostic) : Except Json.EncodeError Json := do
  let file ← d.file.mapM Json.ofPath
  return .object
    (("severity", d.severity.toJson) :: ("message", .string d.message) ::
      (member "file" file ++ member "line" (d.line.map fun n => Json.nat n.toNat) ++
        member "identifier" (d.identifier.map .string) ++ member "tip" (d.tip.map .string)))

def ofJson? (v : Json) : Option Diagnostic := do
  let r ← v.asRecord? 6
  let severity ← (← r.field? "severity" 0) |> Severity.ofJson?
  let message ← (← r.field? "message" 1).asText?
  let file ← Json.asOption? Json.asPath? (r.field? "file" 2)
  let line ← Json.asOption? (Json.asNatBelow? UInt32.size) (r.field? "line" 3)
  let identifier ← Json.asOption? Json.asText? (r.field? "identifier" 4)
  let tip ← Json.asOption? Json.asText? (r.field? "tip" 5)
  return { severity, message, file, line := line.map UInt32.ofNat, identifier, tip }

end Diagnostic

/-- The errors of each file, in the order in which they were reported. -/
abbrev ErrorsByFile := PathMap (List Diagnostic)

namespace ErrorsByFile

def toJson (errors : ErrorsByFile) : Except Json.EncodeError Json :=
  Json.ofPathMap (fun ds => do return .array (← ds.mapM Diagnostic.toJson)) errors

def ofJson? (v : Json) : Option ErrorsByFile := Json.asPathMap? (Json.asList? Diagnostic.ofJson?) v

end ErrorsByFile

end AnalysisCache
