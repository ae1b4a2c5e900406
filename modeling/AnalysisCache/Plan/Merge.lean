import AnalysisCache.Diagnostic.Partition
import AnalysisCache.Plan.Basic
import AnalysisCache.Snapshot.Store

/-!
# Merging results

The results of the files that were analysed take the place of what was kept about them, and the rest
is carried over. The whole is worth keeping only if the run was complete: the dependencies are
known, and there is nothing to report but errors of single files.
-/

namespace AnalysisCache

/-- What an analysis reports. -/
structure Report where
  diagnostics : List Diagnostic
  /-- The dependencies of the analysed files, if they could be told. -/
  dependencies : Option DependencyGraph
  /-- Whether errors of the analysis itself were cut off. -/
  limitReached : Bool
deriving DecidableEq

/-- Why a run is not kept. -/
inductive SkipReason where
  | disabled
  | dependenciesUnavailable
  | globalMessages (n : Nat)
  | warnings (n : Nat)
deriving DecidableEq

namespace SkipReason

def text : SkipReason → String
  | .disabled => "saving disabled"
  | .dependenciesUnavailable => "dependencies unavailable"
  | .globalMessages n => Digits.text n ++ " global message(s)"
  | .warnings n => Digits.text n ++ " warning(s)"

end SkipReason

/-- What is reported for all files together, and what is kept, or why nothing is. -/
structure Merged where
  report : Report
  draft : Except SkipReason Snapshot.Draft

namespace Plan

/-- The dependencies to keep, if the run is to be kept. -/
def keepable (fresh : Report) (parts : Partition) (save : Bool) :
    Except SkipReason DependencyGraph :=
  if !save then .error .disabled
  else
    match fresh.dependencies with
    | none => .error .dependenciesUnavailable
    | some g =>
      if !parts.global.isEmpty then .error (.globalMessages parts.global.length)
      else if !parts.warnings.isEmpty then .error (.warnings parts.warnings.length)
      else .ok g

/-- Gives each of some files the value it has in `fresh`, or none if it has none there. -/
def replaceAll {α : Type} (files : List Path) (fresh kept : PathMap α) : PathMap α :=
  files.foldl
    (fun m f =>
      match fresh.get? f with
      | some v => m.insert f v
      | none => m.erase f)
    kept

/-- Merges the results of the scheduled files with what the plan carries over. -/
def merge (p : Plan) (fresh : Report) (save : Bool) : Except CacheError Merged :=
  let parts := Partition.ofList fresh.diagnostics
  let gate := keepable fresh parts save
  if p.isFull then
    .ok ⟨fresh, gate.map fun g => ⟨p.lastFull, parts.errors, g⟩⟩
  else
    let errors := replaceAll p.schedule parts.errors p.errors
    let report : Report :=
      { fresh with diagnostics := errors.values.flatten ++ parts.warnings ++ parts.global }
    match gate with
    | .error reason => .ok ⟨report, .error reason⟩
    | .ok g =>
      match p.dependents.dependencies with
      | .error e => .error e
      | .ok kept => .ok ⟨report, .ok ⟨p.lastFull, errors, replaceAll p.schedule g kept⟩⟩

end Plan

end AnalysisCache
