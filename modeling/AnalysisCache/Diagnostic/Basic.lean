import AnalysisCache.Path.Basic
import AnalysisCache.Text.Digits

/-!
# Diagnostics

What an analysis has to say: an error or a warning, perhaps about a file and a line of it, perhaps
with an identifier and with advice.
-/

namespace AnalysisCache

/-- How serious a diagnostic is, the least first. -/
inductive Severity where
  | warning
  | error
deriving DecidableEq, Ord

namespace Severity

def text : Severity → String
  | .warning => "warning"
  | .error => "error"

def ofText? (s : String) : Option Severity :=
  if s = "warning" then some .warning else if s = "error" then some .error else none

@[simp] theorem ofText?_text (s : Severity) : ofText? s.text = some s := by
  cases s <;> rfl

end Severity

structure Diagnostic where
  severity : Severity
  message : String
  file : Option Path
  line : Option UInt32
  identifier : Option String
  tip : Option String
deriving DecidableEq

namespace Diagnostic

/-- How a diagnostic bears on the cache: an error of one file can be kept, the others cannot. -/
inductive Kind where
  | global
  | file (f : Path)
  | warning
deriving DecidableEq

def kind (d : Diagnostic) : Kind :=
  match d.severity, d.file with
  | .warning, _ => .warning
  | .error, some f => .file f
  | .error, none => .global

def ofFile (message : String) (file : Path) (line : UInt32) : Diagnostic :=
  ⟨.error, message, some file, some line, none, none⟩

def ofRun (message : String) : Diagnostic := ⟨.error, message, none, none, none, none⟩

def warning (message : String) : Diagnostic := ⟨.warning, message, none, none, none, none⟩

/-- One line of a report. A line number is shown with a file only, and advice is left out. -/
def text (d : Diagnostic) : String :=
  let place :=
    match d.file, d.line with
    | some f, some n => f.display ++ ":" ++ Digits.text n.toNat ++ ": "
    | some f, none => f.display ++ ": "
    | none, _ => ""
  let name :=
    match d.identifier with
    | some i => " [" ++ i ++ "]"
    | none => ""
  place ++ d.severity.text ++ ": " ++ d.message ++ name

end Diagnostic

end AnalysisCache
