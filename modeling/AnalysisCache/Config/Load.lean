import AnalysisCache.Config.Basic
import AnalysisCache.Files.Operations
import AnalysisCache.Toml.Document
import AnalysisCache.Toml.Shape

/-!
# Reading a configuration

A configuration is a TOML document with a table `analysis` and perhaps a table `cache`. Fields that
are missing have their defaults, and others than the known ones are ignored.

* `Config.parse`: reads the document and then checks what it says.
-/

namespace AnalysisCache

namespace AnalysisConfig

def ofToml? (v : Toml) : Option AnalysisConfig := do
  let r ← v.asRecord?
  let missing := AnalysisConfig.default
  let level ← r.read? "level" 0 Toml.asText? missing.level
  let paths ← r.read? "paths" 1 Toml.asTexts? missing.paths
  let fileExtensions ← r.read? "file_extensions" 2 Toml.asTexts? missing.fileExtensions
  let stubFiles ← r.read? "stub_files" 3 Toml.asTexts? missing.stubFiles
  let extensions ← r.read? "extensions" 4 Toml.asTexts? missing.extensions
  let runtimeVersion ←
    r.read? "runtime_version" 5 (fun v => v.asText?.map some) missing.runtimeVersion
  let dependencyRoots ← r.read? "dependency_roots" 6 Toml.asTexts? missing.dependencyRoots
  let lockFile ← r.read? "lock_file" 7 Toml.asText? missing.lockFile
  let includes ← r.read? "includes" 8 Toml.asTexts? missing.includes
  return ⟨level, paths, fileExtensions, stubFiles, extensions, runtimeVersion, dependencyRoots,
    lockFile, includes⟩

end AnalysisConfig

namespace CacheConfig

def ofToml? (v : Toml) : Option CacheConfig := do
  let r ← v.asRecord?
  let missing := CacheConfig.default
  let directory ← r.read? "dir" 0 Toml.asText? missing.directory
  let file ← r.read? "file" 1 Toml.asText? missing.file
  return ⟨directory, file⟩

end CacheConfig

namespace Config

def ofTable? (t : TomlTable) : Option Config := do
  let analysis ← (t.find? "analysis").bind AnalysisConfig.ofToml?
  let cache ←
    match t.find? "cache" with
    | none => some CacheConfig.default
    | some v => CacheConfig.ofToml? v
  return ⟨analysis, cache⟩

/-- The configuration that a text holds. -/
def parse (s : String) : Except ConfigError Config :=
  match (Toml.parse? s).bind ofTable? with
  | none => .error .malformed
  | some c => c.check.map fun _ => c

/-- The configuration that a file holds. -/
def load (t : FileTree) (p : Path) : Except ConfigError Config :=
  match t.readText p with
  | .error e => .error (.files e)
  | .ok s => parse s

/-- The name of a project's configuration file. -/
def fileName : Path := .ofText "sift.toml"

/-- The configuration of the project in a directory. -/
def loadDirectory (t : FileTree) (directory : Path) : Except ConfigError Config :=
  load t (directory.join fileName)

end Config

end AnalysisCache
