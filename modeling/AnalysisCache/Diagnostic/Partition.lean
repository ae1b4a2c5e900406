import AnalysisCache.Diagnostic.Document

/-!
# Sorting diagnostics

The diagnostics of a run fall into the errors of each file, the warnings, and the errors of no file.
Each part keeps the order of the run. A run with warnings or with errors of no file is unstable:
what it says cannot be told file by file.
-/

namespace AnalysisCache

structure Partition where
  global : List Diagnostic
  errors : ErrorsByFile
  warnings : List Diagnostic

namespace Partition

def empty : Partition := ⟨[], .empty, []⟩

def add (p : Partition) (d : Diagnostic) : Partition :=
  match d.kind with
  | .file f => { p with errors := p.errors.push f d }
  | .warning => { p with warnings := p.warnings ++ [d] }
  | .global => { p with global := p.global ++ [d] }

def ofList (ds : List Diagnostic) : Partition := ds.foldl add empty

def isUnstable (p : Partition) : Bool := !p.global.isEmpty || !p.warnings.isEmpty

end Partition

end AnalysisCache
