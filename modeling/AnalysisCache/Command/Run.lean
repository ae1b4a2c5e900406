import AnalysisCache.Command.Line
import AnalysisCache.Command.Report
import AnalysisCache.Project.Discovery
import AnalysisCache.Run

/-!
# Running commands

Clearing the cache says which directory it was in. The report on the next run, and that on the
cache, can be had as text or as JSON; quietness leaves out messages and the text about the next run.
Only a missing cache makes a report fail.

* `Invocation.run`: what a command does to the files, and what it says.
-/

namespace AnalysisCache

/-- What a command says, and its exit code. -/
structure Output where
  code : Nat
  stdout : String
  stderr : String
deriving DecidableEq

/-- Why a command stopped. -/
inductive CommandError where
  | project (cause : ProjectError)
  | cache (cause : CacheError)

def CommandError.message : CommandError → String
  | .project cause => cause.message
  | .cache cause => cause.message

namespace Invocation

/-- A text, unless the command is to be quiet. -/
def unlessQuiet (i : Invocation) (s : String) : String := if i.quiet then "" else s

/-- A JSON document as it is printed. -/
def document (v : Json) : String := Json.text .indented v ++ "\n"

def runClear (t : FileTree) (i : Invocation) (p : Project) :
    FileTree × Except CommandError Output :=
  match (Run.start p.settings).clear t with
  | (t, .error e) => (t, .error (.cache e))
  | (t, .ok d) =>
    (t, .ok ⟨0, i.unlessQuiet (d.display ++ "\n"),
      i.unlessQuiet "Result cache cleared from directory:\n"⟩)

def runStatus (t : FileTree) (now : UInt64) (i : Invocation) (p : Project) (debug : Bool)
    (format : ReportFormat) : FileTree × Except CommandError Output :=
  match p.files t with
  | .error e => (t, .error (.project e))
  | .ok files =>
    let (t, _, plan) := (Run.start p.settings).restore t files debug now
    let report := StatusReport.ofPlan p files.length plan
    let stdout :=
      match format with
      | .text => i.unlessQuiet report.text
      | .json => document report.toJson
    (t, .ok ⟨0, stdout, ""⟩)

def runDump (t : FileTree) (now : UInt64) (i : Invocation) (p : Project) (format : ReportFormat) :
    FileTree × Except CommandError Output :=
  match (Run.start p.settings).load t with
  | (t, none) =>
    let message := "no valid result cache at " ++ p.shown p.settings.cacheFile ++ "\n"
    (t, .ok ⟨1, "", i.unlessQuiet message⟩)
  | (t, some s) =>
    let report := DumpReport.ofSnapshot p s now
    let stdout :=
      match format with
      | .text => report.text
      | .json => document report.toJson
    (t, .ok ⟨0, stdout, ""⟩)

/-- Runs a command in the working directory. -/
def run (t : FileTree) (now : UInt64) (i : Invocation) : FileTree × Except CommandError Output :=
  match Project.load t (i.config.map Path.ofText) with
  | .error e => (t, .error (.project e))
  | .ok p =>
    match i.command with
    | .clear => i.runClear t p
    | .status debug format => i.runStatus t now p debug format
    | .dump format => i.runDump t now p format

end Invocation

end AnalysisCache
