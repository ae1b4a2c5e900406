import AnalysisCache.Path.Parts
import AnalysisCache.Files.Tree

/-!
# Project configuration

What a project's configuration file says: what is analysed and how, and where the cache is kept.

* `Config.check`: an accepted configuration names paths and a level, and its cache file is a plain
  file name.
-/

namespace AnalysisCache

/-- What is analysed, and under which settings. -/
structure AnalysisConfig where
  level : String
  paths : List String
  fileExtensions : List String
  stubFiles : List String
  extensions : List String
  runtimeVersion : Option String
  dependencyRoots : List String
  lockFile : String
  includes : List String
deriving DecidableEq

/-- Where the cache is kept. -/
structure CacheConfig where
  directory : String
  file : String
deriving DecidableEq

structure Config where
  analysis : AnalysisConfig
  cache : CacheConfig
deriving DecidableEq

def AnalysisConfig.default : AnalysisConfig where
  level := "0"
  paths := []
  fileExtensions := ["rs"]
  stubFiles := []
  extensions := []
  runtimeVersion := none
  dependencyRoots := ["."]
  lockFile := "Cargo.lock"
  includes := []

def CacheConfig.default : CacheConfig where
  directory := ".sift-cache"
  file := "result-cache.json"

/-- Why a configuration is refused. -/
inductive ConfigError where
  | files (cause : FileError)
  | malformed
  | missing (field : String)
  | cacheFileNotPlain (file : String)
deriving DecidableEq

namespace ConfigError

def message : ConfigError → String
  | .files cause => "failed to read configuration: " ++ cause.message
  | .malformed => "failed to parse configuration:"
  | .missing field => "missing required field: " ++ field
  | .cacheFileNotPlain file =>
    "validation error: cache.file must be a plain file name, got '" ++ file ++ "'"

end ConfigError

namespace Config

/-- Refuses a configuration without paths or level, or with a cache file in another directory. -/
def check (c : Config) : Except ConfigError Unit :=
  if c.analysis.paths.isEmpty then .error (.missing "analysis.paths")
  else if c.analysis.level.isEmpty then .error (.missing "analysis.level")
  else if c.cache.file.isEmpty || !(Path.ofText c.cache.file).isPlainName then
    .error (.cacheFileNotPlain c.cache.file)
  else .ok ()

end Config

end AnalysisCache
