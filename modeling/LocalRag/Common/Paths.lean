-- SUMMARY: Path and file filters (`common/paths.py`) and the watcher configuration they are read from.
import LocalRag.Environment

/-! # Path filters -/

namespace LocalRag

open PyText PyPath

/-! ## Filters -/

def normalizeExtensions (env : Env) (extensions : List Text) : List Text := extensions.map env.lower

/-- `has_allowed_extension`, for extensions that are normalized. -/
def hasAllowedExtension (env : Env) (path : PurePath) (allowed : List Text) : Bool :=
  env.lower path.suffix ∈ allowed

/-- `s.replace("\\", "/")`. -/
def forwardSlashes (t : Text) : Text := t.map fun c => if c = '\\' then '/' else c

/-- `_pattern_matches`. -/
def patternMatches (pattern : Text) (parts : List Text) (pathText normalizedPathText : Text) :
    Bool :=
  let normalizedPattern := forwardSlashes pattern
  pattern ∈ parts ||
  parts.any (fun part => fnmatch part pattern) ||
  fnmatch pathText pattern ||
  ('/' ∈ normalizedPattern &&
    (fnmatch normalizedPathText normalizedPattern ||
      fnmatch normalizedPathText (['*', '/'] ++ normalizedPattern) ||
      fnmatch normalizedPathText (['*', '/'] ++ normalizedPattern ++ ['/', '*'])))

def matchesIgnorePattern (path : PurePath) (ignorePatterns : List Text) : Bool :=
  let pathText := path.str
  let normalizedPathText := forwardSlashes pathText
  ignorePatterns.any fun pattern => patternMatches pattern path.parts pathText normalizedPathText

def isUnderAnyRoot (path : PurePath) (roots : List PurePath) : Bool :=
  roots.any path.isRelativeTo

def isIndexablePath (env : Env) (path : PurePath) (allowed ignorePatterns : List Text) : Bool :=
  !matchesIgnorePattern path ignorePatterns && hasAllowedExtension env path allowed

/-! ## Configuration -/

/-- An entry of `watch_paths`. -/
structure WatchEntry where
  path : PurePath
  recursive : Bool := true
  excludeDirs : List Text := []

/-- An entry of `required_mounts`. -/
structure RequiredMount where
  path : PurePath
  requireNonEmpty : Bool := false

/-- The watcher's YAML file. -/
structure WatcherConfig where
  watchPaths : List WatchEntry
  allowedExtensions : Option (List Text) := none
  ignorePatterns : List Text := []
  requiredMounts : List RequiredMount := []

/-- `ALLOWED_EXTENSIONS`, used where the configuration has none. -/
def defaultExtensions : List Text :=
  [".md", ".txt", ".py", ".json", ".yaml", ".yml", ".toml", ".ts", ".tsx", ".js", ".jsx"].map
    String.toList

namespace WatcherConfig

/-- `normalize_extensions(config.get("allowed_extensions", ALLOWED_EXTENSIONS))`. -/
def allowedExt (config : WatcherConfig) (env : Env) : List Text :=
  normalizeExtensions env (config.allowedExtensions.getD defaultExtensions)

/-- The path passes the extension and ignore filters of the configuration. -/
def accepts (config : WatcherConfig) (env : Env) (path : PurePath) : Bool :=
  isIndexablePath env path (config.allowedExt env) config.ignorePatterns

end WatcherConfig

end LocalRag
