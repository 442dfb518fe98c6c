-- SUMMARY: The maintenance commands: `ingest/cleanup_stale.py`, `ingest/purge_ignored.py` and `ingest/reset_collection.py`.
import LocalRag.Ingest.IndexDocuments

/-! # Maintenance commands -/

namespace LocalRag

open PyText PyPath Effects

/-! ## cleanup_stale -/

/-- The loop of `cleanup_stale`. -/
def cleanupPaths (accessibleRoots : Option (List PurePath)) : List PurePath → App ℕ
  | [] => pure 0
  | filepath :: rest =>
    if accessibleRoots.any fun roots => !isUnderAnyRoot filepath roots then
      cleanupPaths accessibleRoots rest
    else do
      let found : Bool ← call (.pathExists filepath)
      if found then cleanupPaths accessibleRoots rest
      else do
        removeIndexedDocument filepath
        let removed ← cleanupPaths accessibleRoots rest
        pure (removed + 1)

/-- `cleanup_stale(accessible_roots)`; the number of entries removed. -/
def cleanupStale (accessibleRoots : Option (List PurePath)) : App ℕ := do
  let paths ← listAllPaths
  cleanupPaths accessibleRoots paths

/-! ## purge_ignored -/

/-- `_iter_accessible_roots`. -/
def accessibleRoots : List WatchEntry → App (List PurePath)
  | [] => pure []
  | entry :: rest => do
    let root : PurePath ← call (.expanduser entry.path)
    let found : Bool ← call (.pathExists root)
    if found then do
      let root ← normalizePath root
      let roots ← accessibleRoots rest
      pure (root :: roots)
    else accessibleRoots rest

def findIgnoredPaths (env : Env) (config : WatcherConfig) : App (List PurePath) :=
  if config.watchPaths = [] then throw Exn.noWatchPaths
  else do
    let roots ← accessibleRoots config.watchPaths
    if roots = [] then throw (Exn.noAccessibleRoots (config.watchPaths.map WatchEntry.path))
    else do
      let paths ← listAllPaths
      pure ((paths.filter fun path =>
        isUnderAnyRoot path roots && !config.accepts env path).insertionSort pathLe)

/-- The loop of `purge_ignored` with `apply`. -/
def removeAll : List PurePath → App Unit
  | [] => pure ()
  | filepath :: rest => do
    removeIndexedDocument filepath
    removeAll rest

/-- `purge_ignored(config, apply=apply)`; the number of ignored paths. -/
def purgeIgnored (env : Env) (config : WatcherConfig) (apply : Bool) : App ℕ := do
  initDb
  let ignored ← findIgnoredPaths env config
  if apply then removeAll ignored else pure ()
  pure ignored.length

/-! ## reset_collection -/

/-- `reset_collection.main`. -/
def resetCollection (vectorsOnly : Bool) : App Unit := do
  let found : Bool ← call .collectionExists
  if found then call .deleteCollection else pure ()
  call (.setEnsured false)
  if vectorsOnly then pure ()
  else do
    initDb
    clearHashes

end LocalRag
