-- SUMMARY: When nothing that the filters forbid is submitted or stored: scans and events over files with symbolic links.
import LocalRag.Indexer.Handlers
import LocalRag.Indexer.ScanScope

/-!
# The filters

The handler checks the path as the scan or the event names it, and submits the path
it resolves to. What is stored passes the filters as long as resolution does not
lead from a path that passes them to one that does not.
-/

namespace LocalRag

open PyText PyPath Effects Sql

/-! ## Runs -/

/-- What the watcher does with paths. -/
inductive Pass where
  | scan (watchPathPairs : List (WatchEntry × PurePath))
  | created (event : WatchHandler.FileEvent)
  | modified (event : WatchHandler.FileEvent)
  /-- The worker takes a submitted path. -/
  | job (p : PurePath)

def Pass.program (h : WatchHandler) (env : Env) : Pass → App Unit
  | .scan pairs => initialScan h env pairs
  | .created event => h.onCreated env event
  | .modified event => h.onModified env event
  | .job p => do let _ ← indexIfChanged env p; pure ()

/-- The worker is only given submitted paths. -/
def Pass.Taken (submitted : List PurePath) : Pass → Prop
  | .job p => p ∈ submitted
  | _ => True

/-- Runs of passes, each over any files and stopped anywhere, with the paths submitted so far. -/
inductive Watching (env : Env) (h : WatchHandler) (allowed : FileSystem → Pass → Prop) :
    World → List PurePath → Prop where
  | start {w : World} (hpoints : w.points = []) (hhashes : ∀ p, w.hashAt p = none) :
    Watching env h allowed w []
  | files {w : World} {submitted : List PurePath} (fs : FileSystem)
    (hrun : Watching env h allowed w submitted) : Watching env h allowed { w with fs } submitted
  | pass {w w' : World} {submitted : List PurePath} {rest : App Unit}
    {trace : List (Event Services)} (a : Pass) (hrun : Watching env h allowed w submitted)
    (htaken : a.Taken submitted) (hallowed : allowed w.fs a)
    (hsteps : (a.program h env).Steps ((services env).answers fun _ _ => True) (w, []) rest
      (w', trace)) : Watching env h allowed w' (submitted ++ submissions trace)

/-- Every stored filepath is as `ok` says. -/
structure World.StoresOnly (ok : PurePath → Prop) (w : World) : Prop where
  points : ∀ pt ∈ w.points, ok pt.payload.filepath
  tracked : ∀ p, w.Tracks p → ok p

/-- Every submitted and every stored path passes the filters. -/
def FiltersHold (env : Env) (h : WatchHandler) (allowed : FileSystem → Pass → Prop) : Prop :=
  ∀ w submitted, Watching env h allowed w submitted →
    (∀ p ∈ submitted, h.indexable env p = true) ∧ w.StoresOnly (h.indexable env · = true)

/-- What the pass looks at and finds to pass the filters resolves to a path that passes them: a
file in the scope of the scan, the path of an event, the path of a job. -/
def ResolvesInside (env : Env) (h : WatchHandler) (fs : FileSystem) : Pass → Prop
  | .scan pairs => ∀ pair ∈ pairs, ∀ r, Scanned env h fs pair.1 pair.2 r → h.indexable env r = true
  | .created event | .modified event => event.isDirectory = false →
    h.indexable env event.srcPath = true → ∀ r, fs.normalize event.srcPath = some r →
      h.indexable env r = true
  | .job p => ∀ r, fs.normalize p = some r → h.indexable env r = true

variable {env : Env} {h : WatchHandler} {fs : FileSystem} {w : World} {ok : PurePath → Prop}
  {s : Traced}

/-! ## What a call stores -/

/-- What the call stores or submits is as `ok` says. -/
def Call.Admits (ok : PurePath → Prop) : Call → Prop
  | .upsert points => ∀ pt ∈ points, ok pt.payload.filepath
  | .upsertHash p _ | .submit p => ok p
  | _ => True

theorem World.StoresOnly.serve {c : Call} (hs : w.StoresOnly ok) (hc : c.Admits ok) :
    (serve env c w).2.StoresOnly ok := by
  refine ⟨fun pt hpt => ?_, fun p hp => ?_⟩
  · rcases mem_points_serve hpt with hstored | ⟨points, rfl, hnew⟩
    · exact hs.points pt hstored
    · exact hc pt hnew
  · rcases tracks_serve hp with hp | ⟨h, rfl⟩
    · exact hs.tracked p hp
    · exact hc

/-! ## What a pass stores -/

/-- The program stores and submits only what is as `ok` says. -/
def Admitted (env : Env) (fs : FileSystem) (ok : PurePath → Prop) (prog : App Unit) : Prop :=
  ∀ s : Traced, s.1.fs = fs → wp ((services env).answers fun _ _ => True)
    (fun c _ => Call.Admits ok c) prog (fun _ _ => True) s

theorem admitted_of_answersIn {prog : App Unit} {G : Call → Unit → Prop}
    (hprog : wp (answersIn env (fun _ => True) (·.fs = fs)) G prog (fun _ _ => True) ())
    (hG : ∀ c u, G c u → c.Admits ok) : Admitted env fs ok prog := by
  rintro s rfl
  exact wp_conseq (wp_of_answersIn (fun _ hw => hw) hprog) (fun c _ hc => hG c () hc) fun _ _ _ => trivial

theorem admitted_scan {pairs : List (WatchEntry × PurePath)}
    (hpairs : ∀ pair ∈ pairs, ∀ r, Scanned env h fs pair.1 pair.2 r → ok r) :
    Admitted env fs ok (initialScan h env pairs) := by
  refine admitted_of_answersIn (scans_initialScan pairs) ?_
  rintro c u ⟨pair, hpair, hc⟩
  cases c with
  | submit r => exact hpairs pair hpair r hc
  | upsert points => cases hc
  | upsertHash q h => cases hc
  | _ => trivial

/-- A created or modified event submits what its path resolves to. -/
theorem admitted_event {event : WatchHandler.FileEvent}
    (hevent : event.isDirectory = false → h.indexable env event.srcPath = true →
      ∀ r, fs.normalize event.srcPath = some r → ok r) :
    Admitted env fs ok (h.onCreated env event) := by
  refine admitted_of_answersIn (G := fun c _ => c.Admits ok) ?_ fun _ _ hc => hc
  unfold WatchHandler.onCreated WatchHandler.enqueue
  split
  case isTrue => trivial
  next hfile =>
  split
  case isFalse => trivial
  next hindexable =>
  have hfalse : event.isDirectory = false := by simpa using hfile
  refine wp_bind.mpr (wp_answersIn (c := .normalizePath event.srcPath) ?_ ?_ ?_)
  · trivial
  · rintro w (r : PurePath) hfs hr
    have hnorm := orRaise_eq_ok_iff.mp hr
    rw [hfs] at hnorm
    dsimp only [onOk]
    exact wp_answersIn (hevent hfalse hindexable r hnorm) (fun _ _ _ _ => trivial) fun _ => trivial
  · exact fun _ => trivial

theorem admitted_job {p : PurePath} (hjob : ∀ r, fs.normalize p = some r → ok r) :
    Admitted env fs ok (do let _ ← indexIfChanged env p; pure ()) := by
  intro s hs
  have hconfined : Confined env fs (ResolvesTo fs p) (do let _ ← indexIfChanged env p; pure ())
      (fun _ _ => True) s.1 :=
    .andThen (confined_indexIfChanged p s.1) fun _ _ => trivial
  refine wp_conseq (hconfined.guarded (hs ▸ .refl _)) (fun c s' hc => ?_) fun _ _ _ => trivial
  cases c with
  | upsert points => exact fun pt hpt => hjob _ (hc pt hpt).1
  | upsertHash q h => exact hjob q hc
  | submit q => exact hjob q hc
  | _ => trivial

theorem admitted_pass (a : Pass) (hallowed : ResolvesInside env h fs a) :
    Admitted env fs (h.indexable env · = true) (a.program h env) := by
  cases a with
  | scan pairs => exact admitted_scan hallowed
  | created event => exact admitted_event hallowed
  | modified event => exact admitted_event hallowed
  | job p => exact admitted_job hallowed

/-! ## Runs keep the filters -/

/-- What is submitted in a pass and stored by its end. -/
theorem stores_pass {a : Pass} {rest : App Unit} {w' : World} {trace : List (Event Services)}
    (hallowed : ResolvesInside env h w.fs a) (hs : w.StoresOnly (h.indexable env · = true))
    (hsteps : (a.program h env).Steps ((services env).answers fun _ _ => True) (w, []) rest
      (w', trace)) :
    (∀ p ∈ submissions trace, h.indexable env p = true) ∧
      w'.StoresOnly (h.indexable env · = true) := by
  refine wp_steps_preserved (J := fun s : Traced => (∀ p ∈ submissions s.2, h.indexable env p = true) ∧
    s.1.StoresOnly (h.indexable env · = true)) (admitted_pass a hallowed (w, []) rfl) hsteps
    ⟨by simp [submissions], hs⟩ ?_
  rintro c s o s' hc ⟨hsubmitted, hstores⟩ ha
  have hsubmit : ∀ done, ∀ p ∈ submissions (s.2 ++ [⟨c, done⟩]), h.indexable env p = true := by
    intro done p hp
    rw [submissions, List.filterMap_append, List.mem_append] at hp
    rcases hp with hp | hp
    · exact hsubmitted p hp
    · cases c with
      | submit q =>
        obtain rfl : p = q := by simpa using hp
        exact hc
      | _ => cases hp
  rcases ha with ⟨rfl, rfl⟩ | ⟨-, rfl, rfl⟩
  · exact ⟨hsubmit _, hstores.serve hc⟩
  · exact ⟨hsubmit _, hstores⟩

/-- As long as resolution does not lead past the filters, all that is submitted and stored passes
them. -/
theorem watchHandler_filters_hold (env : Env) (h : WatchHandler) :
    FiltersHold env h (ResolvesInside env h) := by
  intro w submitted hrun
  induction hrun with
  | start hpoints hhashes =>
    refine ⟨nofun, fun pt hpt => ?_, fun p hp => ?_⟩
    · rw [hpoints] at hpt
      cases hpt
    · rw [World.Tracks, hhashes] at hp
      cases hp
  | files fs _ ih => exact ⟨ih.1, ih.2.points, ih.2.tracked⟩
  | pass a _ _ hallowed hsteps ih =>
    obtain ⟨hsubmitted, hstores⟩ := stores_pass hallowed ih.2 hsteps
    exact ⟨fun p hp => (List.mem_append.mp hp).elim (ih.1 p) (hsubmitted p), hstores⟩

/-! ## Examples -/

def noSecrets : WatchHandler where
  allowedExt := [".txt".toList]
  ignore := ["*secret*".toList]
  requiredMountRoots := []

/-- `/w/notes.txt` is a link to `/w/secret.txt`. -/
def linkedWorld : World :=
  let w := World.sample [(["w".toList, "secret.txt".toList], ⟨[104], 1, 1⟩)] [["w".toList]]
  { w with fs := { w.fs with
    links := AList.singleton ["w".toList, "notes.txt".toList] (PurePath.parse "secret.txt".toList)
    cwd_linkFree := by
      refine ⟨by simp [w, World.sample], fun q hq => ?_⟩
      obtain rfl : q = [] := List.prefix_nil.mp hq
      decide } }

def notesCreated : Pass := .created { srcPath := PurePath.parse "/w/notes.txt".toList }

/-- The world after a pass without failures, with its calls. -/
def afterPass (a : Pass) (w : World) : Except Exn Unit × World × List (Event Services) :=
  (a.program noSecrets Env.sample).run (services Env.sample) (fun _ _ => True) [] (w, [])

/-- The link passes the filters, and the secret behind it is submitted. -/
theorem watchHandler_filters_pass_link : ¬ FiltersHold Env.sample noSecrets fun _ _ => True := by
  intro hfilters
  have hrun : Watching Env.sample noSecrets (fun _ _ => True) (afterPass notesCreated linkedWorld).2.1
      ([] ++ submissions (afterPass notesCreated linkedWorld).2.2) :=
    .pass notesCreated (.start rfl fun _ => rfl) trivial trivial
      (Prog.run_steps (services Env.sample) (fun _ _ => True) _ [] (linkedWorld, []))
  have hsubmitted : (PurePath.parse "/w/secret.txt".toList) ∈
      [] ++ submissions (afterPass notesCreated linkedWorld).2.2 := by decide +kernel
  have hforbidden := (hfilters _ _ hrun).1 _ hsubmitted
  revert hforbidden
  decide

end LocalRag
