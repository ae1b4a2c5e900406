import AnalysisCache.Config.Basic

/-!
# Settings of a run

What the cache has to know about a run, with all paths seen from the working directory.
-/

namespace AnalysisCache

structure Settings where
  cacheFile : Path
  /-- Configuration files, the content of which bears on the analysis. -/
  configFiles : List Path
  analysedPaths : List Path
  /-- Where lock files may be. -/
  lockFiles : List Path
  stubFiles : List Path
  extensions : List String
  runtimeVersion : String
  level : String
  toolVersion : Option String
deriving DecidableEq

namespace Settings

/-- The platform, which is the version of the runtime if the project names none. -/
def hostRuntime : String := "x86_64-linux"

/-- Settings with nothing but a place for the cache. -/
def ofCacheFile (p : Path) : Settings where
  cacheFile := p
  configFiles := []
  analysedPaths := []
  lockFiles := []
  stubFiles := []
  extensions := []
  runtimeVersion := hostRuntime
  level := "0"
  toolVersion := none

/-- The settings of a project in the given directory, with the file that its configuration is
from. -/
def ofConfig (c : Config) (directory configFile : Path) : Settings :=
  let place (s : String) : Path := directory.join (.ofText s)
  { cacheFile := (place c.cache.directory).join (.ofText c.cache.file)
    configFiles := configFile :: c.analysis.includes.map place
    analysedPaths := c.analysis.paths.map place
    lockFiles := c.analysis.dependencyRoots.map fun root =>
      (place root).join (.ofText c.analysis.lockFile)
    stubFiles := c.analysis.stubFiles.map place
    extensions := c.analysis.extensions
    runtimeVersion := c.analysis.runtimeVersion.getD hostRuntime
    level := c.analysis.level
    toolVersion := none }

/-- The directory that the cache file is in. -/
def cacheDirectory (s : Settings) : Path := s.cacheFile.parent?.getD (.ofText ".")

end Settings

end AnalysisCache
