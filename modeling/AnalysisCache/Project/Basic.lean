import AnalysisCache.Config.Load
import AnalysisCache.Settings

/-!
# Projects

A project is a directory with a configuration file. Unless a configuration is asked for, the project
is the one around the working directory: that of the nearest directory, going outwards, in which
there is a configuration file.

* `Project.findRoot`: the nearest directory with a configuration file.
* `Project.settings`: what the cache has to know about a run of the project.
-/

namespace AnalysisCache

structure Project where
  /-- The directory from which the configured paths are seen. -/
  directory : Path
  configFile : Path
  config : Config
deriving DecidableEq

/-- Why there is no project, or why its files are not known. -/
inductive ProjectError where
  | noRoot (start : Path)
  | config (file : Path) (cause : ConfigError)
  | noAnalysedPath (p : Path)
  | files (cause : FileError)
deriving DecidableEq

namespace ProjectError

def message : ProjectError → String
  | .noRoot start => "could not find sift.toml in " ++ start.display ++ " or any parent directory"
  | .config file cause => file.display ++ ": " ++ cause.message
  | .noAnalysedPath p => "analysed path " ++ p.display ++ " does not exist"
  | .files cause => cause.message

end ProjectError

namespace Project

/-- The nearest of a directory and its parents with a configuration file. -/
def findRoot (t : FileTree) (start : Path) : Except ProjectError Path :=
  match start.ancestors.find? fun d => t.isThere (d.join Config.fileName) with
  | some d => .ok d
  | none => .error (.noRoot start)

/-- The configuration file of the project. Asking for a directory asks for the file in it. -/
def findConfig (t : FileTree) : Option Path → Except ProjectError Path
  | some p => .ok (if t.isDirectory p then p.join Config.fileName else p)
  | none => (findRoot t t.currentPath).map fun root => root.join Config.fileName

/-- Loads the project that is asked for, or else that of the working directory. -/
def load (t : FileTree) (asked : Option Path) : Except ProjectError Project := do
  let configFile ← findConfig t asked
  match Config.load t configFile with
  | .error e => .error (.config configFile e)
  | .ok config => .ok ⟨configFile.parent?.getD (.ofText "."), configFile, config⟩

/-- The version of the tool that works on the project. -/
def toolVersion : String := "0.1.0"

def settings (p : Project) : Settings :=
  { Settings.ofConfig p.config p.directory p.configFile with toolVersion := some toolVersion }

/-- How a path is shown: as seen from the project if it is inside. -/
def shown (p : Project) (q : Path) : String := ((q.relativeTo? p.directory).getD q).display

end Project

end AnalysisCache
