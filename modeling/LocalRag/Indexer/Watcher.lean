-- SUMMARY: The watcher (`indexer/watcher.py`): the worker's job, the event handler, the initial scan and the startup.
import LocalRag.Ingest.Maintenance

/-! # Watcher -/

namespace LocalRag

open PyText PyPath Effects

/-! ## The worker's job -/

def sha256File (env : Env) (path : PurePath) : App Text := do
  let bytes : Bytes ← call (.readBytes path)
  pure (env.sha256 bytes)

/-- What `_index_if_changed` does inside its `try`. -/
def indexChanged (env : Env) (path : PurePath) : App IndexDecision := do
  let fileHash ← sha256File env path
  let prevHash ← getHash path
  if prevHash = some fileHash then pure .unchanged
  else do
    let outcome ← indexFile env path
    match outcome with
    | .indexed => do
      upsertHash path fileHash
      pure .indexed
    | .skipped => do
      if prevHash.isSome then removeIndexedDocument path else pure ()
      pure .skipped
    | _ => pure .failed

/-- `_index_if_changed`. -/
def indexIfChanged (env : Env) (path : PurePath) : App IndexDecision := do
  let found : Bool ← call (.pathExists path)
  if found then orElse (indexChanged env path) .failed else pure .missing

/-! ## WatchHandler -/

structure WatchHandler where
  allowedExt : List Text
  ignore : List Text
  requiredMountRoots : List PurePath

def WatchHandler.ofConfig (env : Env) (config : WatcherConfig) (requiredMountRoots : List PurePath) :
    WatchHandler where
  allowedExt := config.allowedExt env
  ignore := config.ignorePatterns
  requiredMountRoots

namespace WatchHandler

/-- The path passes the filters of the handler. -/
def indexable (h : WatchHandler) (env : Env) (path : PurePath) : Bool :=
  isIndexablePath env path h.allowedExt h.ignore

def enqueue (h : WatchHandler) (env : Env) (path : PurePath) : App Unit :=
  if h.indexable env path then do
    let path ← normalizePath path
    call (.submit path)
  else pure ()

/-- `_is_empty_dir`. -/
def isEmptyDir (path : PurePath) : App Bool :=
  orElse (do let children : List PurePath ← call (.iterdir path); pure children.isEmpty) false

/-- The loop of `_broken_mount_for`. -/
def brokenMountFor (filePath : PurePath) : List PurePath → App (Option PurePath)
  | [] => pure none
  | root :: rest =>
    if filePath.isRelativeTo root then do
      let empty ← isEmptyDir root
      if empty then pure (some root) else brokenMountFor filePath rest
    else brokenMountFor filePath rest

/-- `FileSystemEvent`. -/
structure FileEvent where
  srcPath : PurePath
  isDirectory : Bool := false

def onCreated (h : WatchHandler) (env : Env) (event : FileEvent) : App Unit :=
  if event.isDirectory then pure () else h.enqueue env event.srcPath

def onModified (h : WatchHandler) (env : Env) (event : FileEvent) : App Unit :=
  h.onCreated env event

def onDeleted (h : WatchHandler) (env : Env) (event : FileEvent) : App Unit :=
  if event.isDirectory || !h.indexable env event.srcPath then pure ()
  else do
    let brokenRoot ← brokenMountFor event.srcPath h.requiredMountRoots
    if brokenRoot.isSome then pure ()
    else do
      let normalizedPath ← normalizePath event.srcPath
      orElse (removeIndexedDocument normalizedPath) ()

end WatchHandler

/-! ## Scanning -/

/-- `_iter_watch_paths`. -/
def iterWatchPaths : List WatchEntry → App (List (WatchEntry × PurePath))
  | [] => pure []
  | entry :: rest => do
    let rawPath : PurePath ← call (.expanduser entry.path)
    let found : Bool ← call (.pathExists rawPath)
    if found then do
      let root ← normalizePath rawPath
      let pairs ← iterWatchPaths rest
      pure ((entry, root) :: pairs)
    else iterWatchPaths rest

/-- A `for` loop. -/
def forEach {α : Type} (body : α → App Unit) : List α → App Unit
  | [] => pure ()
  | a :: rest => do
    body a
    forEach body rest

/-- The order of `sorted` on `Path`s. -/
def partsLe (p q : PurePath) : Prop := p.parts ≤ q.parts

instance : DecidableRel partsLe := fun p q => inferInstanceAs (Decidable (p.parts ≤ q.parts))

/-- The loop over `_iter_schedulable_dirs`, with what is done to each directory.
The first argument is the number of frames left. -/
def forSchedulableDirs (excludeDirs : List Text) (visit : PurePath → App Unit) :
    ℕ → PurePath → App Unit
  | 0, _ => throw Exn.recursion
  | frames + 1, root => do
    visit root
    let children : List PurePath ← call (.iterdir root)
    forEach (fun child => do
      let isDir : Bool ← call (.isDir child)
      if isDir && !matchesIgnorePattern child excludeDirs then
        forSchedulableDirs excludeDirs visit frames child
      else pure ()) (children.insertionSort partsLe)

/-- `sys.getrecursionlimit()`. -/
def recursionLimit : ℕ := 1000

/-- Enqueue the regular files among some paths. -/
def enqueueFiles (h : WatchHandler) (env : Env) (paths : List PurePath) : App Unit :=
  forEach (fun f => do
    let isFile : Bool ← call (.isFile f)
    if isFile then h.enqueue env f else pure ()) paths

/-- One round of `initial_scan`. -/
def scanEntry (h : WatchHandler) (env : Env) (entry : WatchEntry) (root : PurePath) : App Unit :=
  if entry.recursive && !entry.excludeDirs.isEmpty then
    forSchedulableDirs entry.excludeDirs (fun directory => do
      let paths : List PurePath ← call (.globStar directory)
      enqueueFiles h env paths) recursionLimit root
  else do
    let paths : List PurePath ←
      if entry.recursive then call (.globAll root) else call (.globStar root)
    enqueueFiles h env paths

def initialScan (h : WatchHandler) (env : Env) (watchPathPairs : List (WatchEntry × PurePath)) :
    App Unit :=
  forEach (fun pair => scanEntry h env pair.1 pair.2) watchPathPairs

/-! ## Scheduling -/

/-- A directory that `main` schedules. -/
structure Watch where
  path : PurePath
  recursive : Bool
  deriving DecidableEq

/-- A loop that collects a list. -/
def collect {α β : Type} (body : α → App (List β)) : List α → App (List β)
  | [] => pure []
  | a :: rest => do
    let bs ← body a
    let more ← collect body rest
    pure (bs ++ more)

/-- `list(_iter_schedulable_dirs(root, exclude_dirs))`. -/
def iterSchedulableDirs (excludeDirs : List Text) : ℕ → PurePath → App (List PurePath)
  | 0, _ => throw Exn.recursion
  | frames + 1, root => do
    let children : List PurePath ← call (.iterdir root)
    let below ← collect (fun child => do
      let isDir : Bool ← call (.isDir child)
      if isDir && !matchesIgnorePattern child excludeDirs then
        iterSchedulableDirs excludeDirs frames child
      else pure []) (children.insertionSort partsLe)
    pure (root :: below)

/-- What `main` schedules for an entry. -/
def scheduleEntry (entry : WatchEntry) (path : PurePath) : App (List Watch) :=
  if !entry.excludeDirs.isEmpty && entry.recursive then do
    let scheduledDirs ← iterSchedulableDirs entry.excludeDirs recursionLimit path
    pure (scheduledDirs.map (⟨·, false⟩))
  else pure [⟨path, entry.recursive⟩]

/-- The loop over `watch_path_pairs` before the observer starts. -/
def scheduleWatches (watchPathPairs : List (WatchEntry × PurePath)) : App (List Watch) :=
  collect (fun pair => scheduleEntry pair.1 pair.2) watchPathPairs

/-! ## Startup -/

/-- `validate_required_mounts`. -/
def validateRequiredMounts : List RequiredMount → App (List PurePath)
  | [] => pure []
  | entry :: rest => do
    let root ← normalizePath entry.path
    let found : Bool ← call (.pathExists root)
    if !found then throw (Exn.mountMissing root)
    else do
      let empty : Bool ←
        if entry.requireNonEmpty then do
          let children : List PurePath ← call (.iterdir root)
          pure children.isEmpty
        else pure false
      if empty then throw (Exn.mountEmpty root)
      else do
        let roots ← validateRequiredMounts rest
        pure (root :: roots)

/-- `main`, up to the start of the observer. -/
def startup (env : Env) (config : WatcherConfig) : App (WatchHandler × List (WatchEntry × PurePath)) :=
  do
    let requiredMountRoots ← validateRequiredMounts config.requiredMounts
    initDb
    let watchPathPairs ← iterWatchPaths config.watchPaths
    let handler := WatchHandler.ofConfig env config requiredMountRoots
    let _ ← cleanupStale (some (watchPathPairs.map Prod.snd))
    initialScan handler env watchPathPairs
    pure (handler, watchPathPairs)

end LocalRag
