import CodeAtlas.Path
import CodeAtlas.Text.Number

/-!
# Environment

Named values that are set around a run, and the places of a user's files that follow from them.
-/

namespace CodeAtlas

structure Environment where
  values : List (Text × Text)
  deriving DecidableEq, Repr, Inhabited

namespace Environment

def get? (env : Environment) (name : String) : Option Text := env.values.lookup name.toList

/-- The number that a value writes; white space around it does not count. -/
def number? (env : Environment) (name : String) : Option Nat :=
  (env.get? name).bind fun t => Text.toWord? (Text.trim t)

/-- The directory that a value names, else one below the home directory, else the working
directory. -/
private def directory (env : Environment) (name : String) (belowHome : String) : Path :=
  match (env.get? name).filter (· ≠ []) with
  | some t => ⟨t⟩
  | none =>
      match env.get? "HOME" with
      | some home => Path.join ⟨home⟩ (.ofString belowHome)
      | none => .ofString "."

def cacheDirectory (env : Environment) : Path := env.directory "XDG_CACHE_HOME" ".cache"

def configDirectory (env : Environment) : Path := env.directory "XDG_CONFIG_HOME" ".config"

private def project : Path := .ofString "code-context"

/-- Where this program keeps its cache. -/
def projectCacheDirectory (env : Environment) : Path := env.cacheDirectory.join project

/-- Where this program keeps its settings. -/
def projectConfigDirectory (env : Environment) : Path := env.configDirectory.join project

def outlineCachePath (env : Environment) : Path :=
  env.projectCacheDirectory.join (.ofString "outline_cache.json")

def configPath (env : Environment) : Path :=
  env.projectConfigDirectory.join (.ofString "config.toml")

end Environment

end CodeAtlas
