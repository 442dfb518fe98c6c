-- SUMMARY: The running watcher step by step: edits, polls, the event queue, the observer's handlers and the worker's jobs, with failing calls.
import LocalRag.Indexer.Handlers
import LocalRag.Ingest.DocumentCoverage

/-!
# The running watcher

`main` schedules directories, and one emitter polls each of them and queues an event
for every difference to its last poll. The observer takes the events in order and
runs their handlers; the worker takes the submitted paths in order and runs their
jobs. The emitters are those of a `PollingObserver`, which is given by its laws.
-/

namespace LocalRag

open PyText PyPath Effects

/-! ## Polling -/

/-- The stat data that two polls are compared by. -/
structure Stat where
  inode : ℕ
  mtime : ℕ
  size : ℕ
  deriving DecidableEq

/-- What a poll sees of a name: the stat data of the file that it resolves to. -/
def statAt (fs : FileSystem) (x : PurePath) : Option Stat :=
  (fs.normalize x).bind fun p => (fs.fileAt p).map fun node => ⟨node.inode, node.mtime, node.bytes.length⟩

/-- The emitter of the directory may list the name. -/
def Watch.Covers (watch : Watch) (x : PurePath) : Prop :=
  ∃ dirs name, x = { watch.path with names := watch.path.names ++ dirs ++ [name] } ∧
    dotdot ∉ dirs ++ [name] ∧ (watch.recursive = false → dirs = [])

/-- What an emitter saw at its last poll. -/
abbrev Snapshot := AList fun _ : PurePath => Stat

inductive EventKind where
  | created
  | modified
  | deleted
  | moved
  deriving DecidableEq

/-- A queued event. -/
structure WatchEvent extends WatchHandler.FileEvent where
  kind : EventKind

/-- `dispatch`. `WatchHandler` has no `on_moved`. -/
def WatchHandler.dispatch (h : WatchHandler) (env : Env) (e : WatchEvent) : App Unit :=
  match e.kind with
  | .created => h.onCreated env e.toFileEvent
  | .modified => h.onModified env e.toFileEvent
  | .deleted => h.onDeleted env e.toFileEvent
  | .moved => pure ()

/-- The event says that the file is there, with new content. -/
structure WatchEvent.Renews (e : WatchEvent) (x : PurePath) : Prop where
  name : e.srcPath = x
  file : e.isDirectory = false
  kind : e.kind = .created ∨ e.kind = .modified

/-- The inode was not seen under other names only: the poll does not take the file for a moved one. -/
def NotMoved (old : Snapshot) (x : PurePath) (st : Stat) : Prop :=
  ∀ y st₁, old.lookup y = some st₁ → st₁.inode = st.inode →
    ∃ st₂, old.lookup x = some st₂ ∧ st₂.inode = st.inode

/-- The events that a `PollingObserver` queues for the difference of two polls. -/
structure PollingObserver where
  events : Snapshot → Snapshot → List WatchEvent
  /-- There is an event for a file only if its stat data changed. -/
  changed : ∀ old new, ∀ e ∈ events old new, e.isDirectory = false →
    old.lookup e.srcPath ≠ new.lookup e.srcPath
  /-- A file with new stat data is created or modified, if it was not moved. -/
  renews : ∀ old new x st, new.lookup x = some st → old.lookup x ≠ some st → NotMoved old x st →
    ∃ e ∈ events old new, e.Renews x
  /-- Of a file that was replaced the deletion is queued first. -/
  replaced : ∀ old new pre e post st, events old new = pre ++ e :: post → e.kind = .deleted →
    e.isDirectory = false → new.lookup e.srcPath = some st → NotMoved old e.srcPath st →
    ∃ e' ∈ post, e'.Renews e.srcPath

/-! ## Steps -/

structure Running where
  world : World
  queue : List PurePath
  /-- The path of the job in hand, and what is left of the job. -/
  worker : Option (PurePath × App IndexDecision)
  snapshots : Watch → Snapshot
  events : List WatchEvent
  /-- The event that is handled, and what is left of its handler. -/
  observer : Option (WatchEvent × App Unit)

/-- The file, where it is to be indexed, has the fingerprint of its content. -/
def UpToDate (env : Env) (w : World) (p : PurePath) : Prop :=
  ∀ node, w.fs.fileAt p = some node → node.bytes.length ≤ Settings.maxFileSize →
    strip (env.decode node.bytes) ≠ [] → w.hashAt p = some (env.sha256 node.bytes)

namespace Running

/-- A file that changes gets stat data that no emitter has seen under its names: its change will be
delivered. -/
def Noticed (watches : List Watch) (s : Running) (fs : FileSystem) : Prop :=
  ∀ watch ∈ watches, ∀ x p, watch.Covers x → s.world.fs.normalize x = some p →
    fs.fileAt p ≠ s.world.fs.fileAt p → ∀ st, statAt fs x = some st →
      (s.snapshots watch).lookup x ≠ some st

/-- One step. A job may lose a call where `mayFail` says so, and polls are as `mayPoll` says. -/
inductive Step (env : Env) (h : WatchHandler) (po : PollingObserver) (watches : List Watch)
    (mayFail : Running → Prop) (mayPoll : Snapshot → Snapshot → Prop) : Running → Running → Prop where
  | edit {s : Running} (fs : FileSystem) (hlinks : s.world.fs.SameLinks fs)
    (hnoticed : s.Noticed watches fs) :
    Step env h po watches mayFail mayPoll s { s with world := { s.world with fs } }
  | poll {s : Running} {watch : Watch} (new : Snapshot) (hwatch : watch ∈ watches)
    (hnew : ∀ x st, new.lookup x = some st ↔ watch.Covers x ∧ statAt s.world.fs x = some st)
    (hpoll : mayPoll (s.snapshots watch) new) :
    Step env h po watches mayFail mayPoll s
      { s with
        snapshots := Function.update s.snapshots watch new
        events := s.events ++ po.events (s.snapshots watch) new }
  | next {s : Running} {e : WatchEvent} {rest : List WatchEvent} (hevents : s.events = e :: rest)
    (hobserver : s.observer = none) :
    Step env h po watches mayFail mayPoll s
      { s with events := rest, observer := some (e, h.dispatch env e) }
  | observe {s : Running} {e : WatchEvent} {c : Call}
    {k : Except Exn (Services.Reply c) → App Unit} (hobserver : s.observer = some (e, .call c k)) :
    Step env h po watches mayFail mayPoll s
      { s with
        world := (serve env c s.world).2
        queue := s.queue ++ c.submitted
        observer := some (e, k (serve env c s.world).1) }
  | observeFails {s : Running} {e : WatchEvent} {c : Call}
    {k : Except Exn (Services.Reply c) → App Unit} (hobserver : s.observer = some (e, .call c k))
    (hremote : c.remote = true) :
    Step env h po watches mayFail mayPoll s { s with observer := some (e, k (.error (serviceFault c))) }
  | handled {s : Running} {e : WatchEvent} {r : Except Exn Unit}
    (hobserver : s.observer = some (e, .ret r)) :
    Step env h po watches mayFail mayPoll s { s with observer := none }
  | take {s : Running} {p : PurePath} {rest : List PurePath} (hqueue : s.queue = p :: rest)
    (hworker : s.worker = none) :
    Step env h po watches mayFail mayPoll s
      { s with queue := rest, worker := some (p, indexIfChanged env p) }
  | work {s : Running} {p : PurePath} {c : Call}
    {k : Except Exn (Services.Reply c) → App IndexDecision}
    (hworker : s.worker = some (p, .call c k)) :
    Step env h po watches mayFail mayPoll s
      { s with
        world := (serve env c s.world).2
        worker := some (p, k (serve env c s.world).1) }
  | workFails {s : Running} {p : PurePath} {c : Call}
    {k : Except Exn (Services.Reply c) → App IndexDecision}
    (hworker : s.worker = some (p, .call c k)) (hremote : c.remote = true) (hfail : mayFail s) :
    Step env h po watches mayFail mayPoll s { s with worker := some (p, k (.error (serviceFault c))) }
  | finish {s : Running} {p : PurePath} {r : Except Exn IndexDecision}
    (hworker : s.worker = some (p, .ret r)) :
    Step env h po watches mayFail mayPoll s { s with worker := none }

/-- After the startup: the services are set up, and the initial scan has submitted every file that
an emitter has seen so far. The worker is between two of the scan's jobs; the files that it has
processed are as it left them. -/
structure Start (env : Env) (h : WatchHandler) (watches : List Watch) (s : Running) : Prop where
  ready : s.world.Ready
  resolved : ∀ p ∈ s.queue, s.world.fs.normalize p = some p
  seen : ∀ watch x st, (s.snapshots watch).lookup x = some st → watch.Covers x
  scanned : ∀ watch ∈ watches, ∀ x p, (s.snapshots watch).lookup x ≠ none →
    h.indexable env x = true → s.world.fs.normalize x = some p →
    p ∈ s.queue ∨ UpToDate env s.world p
  worker : s.worker = none
  events : s.events = []
  observer : s.observer = none

/-- Every change was delivered and handled, and nothing is queued. -/
structure Quiet (watches : List Watch) (s : Running) : Prop where
  queue : s.queue = []
  worker : s.worker = none
  events : s.events = []
  observer : s.observer = none
  delivered : ∀ watch ∈ watches, ∀ x, watch.Covers x →
    (s.snapshots watch).lookup x = statAt s.world.fs x

end Running

/-! ## Updates -/

/-- A name of the file passes the filters, and an emitter lists it. -/
def Followed (env : Env) (h : WatchHandler) (watches : List Watch) (fs : FileSystem) (p : PurePath) :
    Prop :=
  ∃ watch ∈ watches, ∃ x, watch.Covers x ∧ h.indexable env x = true ∧ fs.normalize x = some p

/-- In every quiet state that a run reaches, the followed files are up to date. -/
def NoUpdateLost (env : Env) (h : WatchHandler) (po : PollingObserver) (watches : List Watch)
    (mayFail : Running → Prop) (mayPoll : Snapshot → Snapshot → Prop) : Prop :=
  ∀ s₀ s, s₀.Start env h watches →
    Relation.ReflTransGen (Running.Step env h po watches mayFail mayPoll) s₀ s → s.Quiet watches →
    ∀ p, Followed env h watches s.world.fs p → UpToDate env s.world p

/-! ## Pending paths -/

/-- What makes the watcher process the path later: one of the events, or a change that no poll has
seen yet. -/
def Renewed (env : Env) (h : WatchHandler) (watches : List Watch) (fs : FileSystem) (s : Running)
    (p : PurePath) (events : List WatchEvent) : Prop :=
  (∃ e ∈ events, ∃ x, e.Renews x ∧ h.indexable env x = true ∧ fs.normalize x = some p) ∨
  ∃ watch ∈ watches, ∃ x, watch.Covers x ∧ h.indexable env x = true ∧ fs.normalize x = some p ∧
    (s.snapshots watch).lookup x ≠ statAt s.world.fs x

/-- The path will be processed: it is queued, or about to be submitted, or renewed. -/
def Pending (env : Env) (h : WatchHandler) (watches : List Watch) (fs : FileSystem) (s : Running)
    (p : PurePath) : Prop :=
  p ∈ s.queue ∨
  (∃ e rest src t, s.observer = some (e, rest) ∧ ⟨Call.submit p, true⟩ ∉ t ∧
    Submits env (fun w => fs.SameLinks w.fs) src p rest t) ∨
  Renewed env h watches fs s p s.events

/-- A failure of the job in hand loses nothing: its path is pending again, or up to date. -/
def Recovers (env : Env) (h : WatchHandler) (watches : List Watch) (s : Running) : Prop :=
  ∀ p rest, s.worker = some (p, rest) → Followed env h watches s.world.fs p →
    Pending env h watches s.world.fs s p ∨ UpToDate env s.world p

/-- The poll takes no file that passes the filters for a moved one. -/
def NoMoves (env : Env) (h : WatchHandler) (old new : Snapshot) : Prop :=
  ∀ x st, h.indexable env x = true → new.lookup x = some st → old.lookup x ≠ some st →
    NotMoved old x st

end LocalRag
