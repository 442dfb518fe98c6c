-- SUMMARY: The watcher from its start on, step by step: cleanup, scan and scheduling by main, the observer's baseline, and the threads and edits beside them.
import LocalRag.Indexer.Deletion
import LocalRag.Indexer.Retry
import LocalRag.Indexer.WatchScope

/-!
# The startup of the watcher

`main` removes what is stored of missing files, submits the files that a scan finds,
schedules directories and starts the observer. The emitters of the observer begin
with a listing of their directories, the baseline; their first events are the
differences to it. The worker runs beside `main`, and files change all the time.
-/

namespace LocalRag

open PyText PyPath Effects

/-! ## The steps of main -/

/-- `main` after `cleanup_stale`, up to the start of the observer. -/
def scanAndSchedule (h : WatchHandler) (env : Env) (pairs : List (WatchEntry × PurePath)) :
    App (List Watch) := do
  initialScan h env pairs
  scheduleWatches pairs

/-- Where `main` is, with what is left of the part. -/
inductive MainPhase where
  | cleaning (rest : App ℕ)
  | scanning (rest : App (List Watch))
  | watching (watches : List Watch)

structure Startup extends Running where
  main : MainPhase

/-- An observer that also reports the files that have gone. -/
structure DeletionObserver extends PollingObserver where
  /-- A file that is gone is deleted, if it was not moved. -/
  deletes : ∀ old new x st, old.lookup x = some st → new.lookup x = none →
    (∀ y st₁, new.lookup y = some st₁ → st₁.inode ≠ st.inode) →
    ∃ e ∈ events old new, e.kind = .deleted ∧ e.isDirectory = false ∧ e.srcPath = x

/-- No required mount is empty. -/
def MountsUp (h : WatchHandler) (fs : FileSystem) : Prop :=
  ∀ root ∈ h.requiredMountRoots, fs.iterdir root ≠ some []

namespace Startup

/-- What the observer watches. -/
def watches (s : Startup) : List Watch :=
  match s.main with
  | .watching watches => watches
  | _ => []

/-- One step of `main`. -/
inductive MainStep (env : Env) (h : WatchHandler) (pairs : List (WatchEntry × PurePath)) :
    Startup → Startup → Prop where
  | clean {s : Startup} {c : Call} {k : Except Exn (Services.Reply c) → App ℕ}
    (hmain : s.main = .cleaning (.call c k)) :
    MainStep env h pairs s
      { s with
        world := (serve env c s.world).2
        main := .cleaning (k (serve env c s.world).1) }
  | cleaned {s : Startup} {removed : ℕ} (hmain : s.main = .cleaning (.ret (.ok removed))) :
    MainStep env h pairs s { s with main := .scanning (scanAndSchedule h env pairs) }
  | scan {s : Startup} {c : Call} {k : Except Exn (Services.Reply c) → App (List Watch)}
    (hmain : s.main = .scanning (.call c k)) :
    MainStep env h pairs s
      { s with
        world := (serve env c s.world).2
        queue := s.queue ++ c.submitted
        main := .scanning (k (serve env c s.world).1) }
  | baseline {s : Startup} {watches : List Watch} (snapshots : Watch → Snapshot)
    (hmain : s.main = .scanning (.ret (.ok watches)))
    (hsnapshots : ∀ watch x st, (snapshots watch).lookup x = some st ↔
      watch ∈ watches ∧ watch.Covers x ∧ statAt s.world.fs x = some st) :
    MainStep env h pairs s { s with snapshots, main := .watching watches }

/-- One step, without failures. The edits and the calls of the handlers are those that are allowed,
and polls are as `mayPoll` says. -/
inductive Step (env : Env) (h : WatchHandler) (po : DeletionObserver)
    (pairs : List (WatchEntry × PurePath)) (mayEdit : Startup → FileSystem → Prop)
    (mayObserve : Startup → Call → Prop) (mayPoll : Snapshot → Snapshot → Prop) :
    Startup → Startup → Prop where
  | edit {s : Startup} (fs : FileSystem) (hlinks : s.world.fs.SameLinks fs)
    (hnoticed : s.Noticed s.watches fs) (hallowed : mayEdit s fs) :
    Step env h po pairs mayEdit mayObserve mayPoll s { s with world := { s.world with fs } }
  | main {s s' : Startup} (hmain : MainStep env h pairs s s') :
    Step env h po pairs mayEdit mayObserve mayPoll s s'
  | poll {s : Startup} {watch : Watch} (new : Snapshot) (hwatch : watch ∈ s.watches)
    (hnew : ∀ x st, new.lookup x = some st ↔ watch.Covers x ∧ statAt s.world.fs x = some st)
    (hpoll : mayPoll (s.snapshots watch) new) :
    Step env h po pairs mayEdit mayObserve mayPoll s
      { s with
        snapshots := Function.update s.snapshots watch new
        events := s.events ++ po.events (s.snapshots watch) new }
  | next {s : Startup} {e : WatchEvent} {rest : List WatchEvent} (hevents : s.events = e :: rest)
    (hobserver : s.observer = none) :
    Step env h po pairs mayEdit mayObserve mayPoll s
      { s with events := rest, observer := some (e, h.dispatch env e) }
  | observe {s : Startup} {e : WatchEvent} {c : Call}
    {k : Except Exn (Services.Reply c) → App Unit} (hobserver : s.observer = some (e, .call c k))
    (hallowed : mayObserve s c) :
    Step env h po pairs mayEdit mayObserve mayPoll s
      { s with
        world := (serve env c s.world).2
        queue := s.queue ++ c.submitted
        observer := some (e, k (serve env c s.world).1) }
  | handled {s : Startup} {e : WatchEvent} {r : Except Exn Unit}
    (hobserver : s.observer = some (e, .ret r)) :
    Step env h po pairs mayEdit mayObserve mayPoll s { s with observer := none }
  | take {s : Startup} {p : PurePath} {rest : List PurePath} (hqueue : s.queue = p :: rest)
    (hworker : s.worker = none) :
    Step env h po pairs mayEdit mayObserve mayPoll s
      { s with queue := rest, worker := some (p, indexIfChanged env p) }
  | work {s : Startup} {p : PurePath} {c : Call}
    {k : Except Exn (Services.Reply c) → App IndexDecision}
    (hworker : s.worker = some (p, .call c k)) :
    Step env h po pairs mayEdit mayObserve mayPoll s
      { s with
        world := (serve env c s.world).2
        worker := some (p, k (serve env c s.world).1) }
  | finish {s : Startup} {p : PurePath} {r : Except Exn IndexDecision}
    (hworker : s.worker = some (p, .ret r)) :
    Step env h po pairs mayEdit mayObserve mayPoll s { s with worker := none }

/-- `main` has its handler and the accessible watch paths; nothing is queued. -/
structure Start (pairs : List (WatchEntry × PurePath)) (s : Startup) : Prop where
  main : s.main = .cleaning (cleanupStale (some (pairs.map Prod.snd)))
  ready : s.world.Ready
  queue : s.queue = []
  worker : s.worker = none
  snapshots : ∀ watch, s.snapshots watch = ∅
  events : s.events = []
  observer : s.observer = none

/-- The tracked paths still resolve to themselves, and no required mount is empty. -/
structure StartsIntact (h : WatchHandler) (s : Startup) : Prop where
  real : ∀ p, s.world.Tracks p → s.world.fs.Real p
  mounts : MountsUp h s.world.fs

end Startup

/-! ## The claim -/

/-- The scan of the entry finds the file `p` by the name `x`. -/
structure FindsFile (env : Env) (h : WatchHandler) (fs : FileSystem) (pair : WatchEntry × PurePath)
    (x p : PurePath) : Prop where
  finds : ScanFinds fs pair.1 pair.2 x
  isFile : fs.isFile x = true
  indexable : h.indexable env x = true
  resolves : fs.normalize x = some p

/-- Every file that a scan finds is up to date, and no tracked path under a root is missing. -/
structure InStep (env : Env) (h : WatchHandler) (pairs : List (WatchEntry × PurePath)) (w : World) :
    Prop where
  upToDate : ∀ pair ∈ pairs, ∀ x p, FindsFile env h w.fs pair x p → UpToDate env w p
  noneMissing : ∀ p, w.Tracks p → isUnderAnyRoot p (pairs.map Prod.snd) = true →
    w.fs.pathExists p = true

/-- The worlds in which the scan still finds the file by that name. -/
def StillFound (fs : FileSystem) (pair : WatchEntry × PurePath) (x : PurePath) (w : World) : Prop :=
  fs.SameLinks w.fs ∧ ScanFinds w.fs pair.1 pair.2 x ∧ w.fs.isFile x = true

/-- What is left of `main` submits `p`, if the scan still finds it as `x`. -/
abbrev WillSubmit (env : Env) (fs : FileSystem) (pair : WatchEntry × PurePath) (x p : PurePath)
    (rest : App (List Watch)) : Prop :=
  Makes (answersIn env (fun _ => False) (StillFound fs pair x)) (.submit p) rest ()

/-- The worlds in which `p` is tracked and missing. -/
def StillStale (fs : FileSystem) (p : PurePath) (w : World) : Prop :=
  fs.SameLinks w.fs ∧ w.fs.pathExists p = false ∧ w.Tracks p

/-- What is left of the cleanup removes `p`, if it is still tracked and missing. -/
abbrev WillRemove (env : Env) (fs : FileSystem) (p : PurePath) (rest : App ℕ) : Prop :=
  Makes (answersIn env (fun _ => False) (StillStale fs p)) (.deleteHash p) rest ()

/-- The worlds in which the deletion of `src` is handled, as long as there is a collection. -/
def removalAnswers (env : Env) (fs : FileSystem) (h : WatchHandler) (src : PurePath) :
    Answers Services Exn Unit :=
  fun c _ o _ => (∃ w, Site fs h src w ∧ o = (serve env c w).1) ∧ (∀ f, c = .delete f → o.toBool = true)

/-- The path has no fingerprint, and the job in hand stores none. -/
structure Running.Forgotten (env : Env) (fs : FileSystem) (p : PurePath) (s : Running) : Prop where
  hash : s.world.hashAt p = none
  job : ∀ rest, s.worker = some (p, rest) → NoLonger env fs p (Call.storesHash p) (some rest)

/-- The deletion of `p` is noticed: by the next poll of an emitter that has seen the file, by an
event or by the handler in hand. -/
def Running.Removing (env : Env) (h : WatchHandler) (watches : List Watch) (fs : FileSystem)
    (p : PurePath) (s : Running) : Prop :=
  (∃ watch ∈ watches, ∃ x, h.indexable env x = true ∧ fs.normalize x = some p ∧
    (s.snapshots watch).lookup x ≠ none) ∨
  (∃ e ∈ s.events, Erases env h fs e p) ∨
  ∃ e rest, s.observer = some (e, rest) ∧ Erases env h fs e p ∧
    wpUntil (removalAnswers env fs h e.srcPath) (.deleteHash p) rest (fun _ _ => False) ()

namespace Startup

/-- The new content of `p`, which a scan finds as `x` in `fs`, will be processed: the path is queued
or still to be submitted, or its job has not read the file yet; or an emitter has not seen the
file as it is now. -/
def Awaits (env : Env) (pair : WatchEntry × PurePath) (x p : PurePath) (s : Startup)
    (fs : FileSystem) : Prop :=
  match s.main with
  | .cleaning _ => True
  | .scanning rest => p ∈ s.queue ∨ WillSubmit env s.world.fs pair x p rest ∨
      ∃ job, s.worker = some (p, job) ∧ Succeeds env p job { s.world with fs }
  | .watching watches => ∃ watch ∈ watches, watch.Covers x ∧
      (s.snapshots watch).lookup x ≠ statAt fs x

/-- Nothing is stored of the missing path `p`, or it will be removed. -/
def Forgets (env : Env) (h : WatchHandler) (fs : FileSystem) (p : PurePath) (s : Startup) : Prop :=
  s.Forgotten env fs p ∨
  match s.main with
  | .cleaning rest => WillRemove env fs p rest
  | .scanning _ => False
  | .watching watches => s.Removing env h watches fs p

/-- Every change falls where something catches it: what a scan of the changed files finds anew or
changed is awaited, and what goes missing is forgotten. No required mount is emptied. -/
structure Catches (env : Env) (h : WatchHandler) (pairs : List (WatchEntry × PurePath)) (s : Startup)
    (fs : FileSystem) : Prop where
  changed : ∀ pair ∈ pairs, ∀ x p node, FindsFile env h fs pair x p → ToIndex env fs p node →
    ¬ (FindsFile env h s.world.fs pair x p ∧ s.world.fs.fileAt p = some node) →
    s.Awaits env pair x p fs
  missing : ∀ p, isUnderAnyRoot p (pairs.map Prod.snd) = true → fs.pathExists p = false →
    s.world.fs.pathExists p = true → s.Forgets env h s.world.fs p
  mounts : MountsUp h fs

/-- The handler of a missing file has the last word: the job in hand stores no fingerprint
afterwards. Without a collection the handler ends at its first delete. -/
def RemovesLast (env : Env) (s : Startup) : Call → Prop
  | .delete f => s.world.fs.pathExists f.filepath = false → s.world.collection = none →
      s.Forgotten env s.world.fs f.filepath
  | .deleteHash q => s.world.fs.pathExists q = false → ∀ rest, s.worker = some (q, rest) →
      NoLonger env s.world.fs q (Call.storesHash q) (some rest)
  | _ => True

end Startup

/-- The poll takes no file for a moved one, neither one that is there nor one that has gone. -/
structure MovesNothing (env : Env) (h : WatchHandler) (old new : Snapshot) : Prop where
  there : NoMoves env h old new
  gone : ∀ x st, h.indexable env x = true → old.lookup x = some st → new.lookup x = none →
    ∀ y st₁, new.lookup y = some st₁ → st₁.inode ≠ st.inode

end LocalRag
