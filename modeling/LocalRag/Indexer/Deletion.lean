-- SUMMARY: When deleting a file wins against indexing it: the worker's jobs and the observer's handlers, interleaved call by call.
import LocalRag.Indexer.CleanJob
import LocalRag.Indexer.Handlers

/-!
# Deleting against indexing

The worker and the observer share both stores and no lock. A deletion removes the
points and then the fingerprint of a path, a job stores points and then a
fingerprint. The deletion wins if what it removes is not stored again by the job
that the worker has in hand.
-/

namespace LocalRag

open PyText PyPath Effects

/-! ## The two threads -/

structure Threads where
  world : World
  queue : List PurePath
  /-- What is left of the job in hand. -/
  worker : Option (App IndexDecision)
  change : Option Change
  /-- What is left of the handler for the last change. -/
  observer : Option (App Unit)

namespace Threads

/-- The queue is empty and both threads wait. -/
structure AtRest (s : Threads) : Prop where
  queue : s.queue = []
  worker : s.worker = none
  observer : s.observer = none

/-- One step of the system: an edit, a submission of `p`, a call of one of the threads, or the
deletion and the re-creation of the file with the events of `src`. The observer's calls are those
that `allowed` says. -/
inductive Step (env : Env) (h : WatchHandler) (src p : PurePath) (allowed : Threads → Call → Prop) :
    Threads → Threads → Prop where
  | edit {s : Threads} (fs : FileSystem) (hlinks : s.world.fs.SameLinks fs)
    (hmounts : MountsFilled h src fs)
    (habsent : s.change = none ∨ s.change = some .deleted ∧ fs.pathExists p = false) :
    Step env h src p allowed s { s with world := { s.world with fs } }
  | submit {s : Threads} : Step env h src p allowed s { s with queue := s.queue ++ [p] }
  | take {s : Threads} {q : PurePath} {rest : List PurePath} (hqueue : s.queue = q :: rest)
    (hworker : s.worker = none) :
    Step env h src p allowed s { s with queue := rest, worker := some (indexIfChanged env q) }
  | work {s : Threads} {c : Call} {k : Except Exn (Services.Reply c) → App IndexDecision}
    (hworker : s.worker = some (.call c k)) :
    Step env h src p allowed s
      { s with world := (serve env c s.world).2, worker := some (k (serve env c s.world).1) }
  | finish {s : Threads} {r : Except Exn IndexDecision} (hworker : s.worker = some (.ret r)) :
    Step env h src p allowed s { s with worker := none }
  | delete {s : Threads} (fs : FileSystem) (hlinks : s.world.fs.SameLinks fs)
    (hmounts : MountsFilled h src fs) (habsent : fs.pathExists p = false) (hchange : s.change = none) :
    Step env h src p allowed s
      { s with
        world := { s.world with fs }
        change := some .deleted
        observer := some (h.onDeleted env { srcPath := src }) }
  | create {s : Threads} (fs : FileSystem) (hlinks : s.world.fs.SameLinks fs)
    (hfile : fs.isFile p = true) (hchange : s.change = some .deleted) (hrest : s.AtRest) :
    Step env h src p allowed s
      { s with
        world := { s.world with fs }
        change := some .created
        observer := some (h.onCreated env { srcPath := src }) }
  | observe {s : Threads} {c : Call} {k : Except Exn (Services.Reply c) → App Unit}
    (hobserver : s.observer = some (.call c k)) (hallowed : allowed s c) :
    Step env h src p allowed s
      { s with
        world := (serve env c s.world).2
        queue := s.queue ++ c.submitted
        observer := some (k (serve env c s.world).1) }
  | handled {s : Threads} {r : Except Exn Unit} (hobserver : s.observer = some (.ret r)) :
    Step env h src p allowed s { s with observer := none }

/-- Before the deletion: the services are set up, and only `p` was submitted. -/
structure Start (env : Env) (h : WatchHandler) (src p : PurePath) (s : Threads) : Prop where
  resolves : s.world.fs.normalize src = some p
  indexable : h.indexable env src = true
  ready : s.world.Ready
  drawn : s.world.UuidsDrawn
  queue : ∀ q ∈ s.queue, q = p
  worker : s.worker = none
  change : s.change = none
  observer : s.observer = none

end Threads

/-- Once both threads are at rest, nothing is stored of a deleted file, and a file that was created
again has its points. -/
def DeletionWins (env : Env) (h : WatchHandler) (src p : PurePath)
    (allowed : Threads → Call → Prop) : Prop :=
  ∀ s₀ s, s₀.Start env h src p → Relation.ReflTransGen (Threads.Step env h src p allowed) s₀ s →
    s.AtRest →
    (s.change = some .deleted → s.world.pointsAt p = [] ∧ ¬ s.world.Tracks p) ∧
    (s.change = some .created → ∃ id, s.world.pointsAt p = freshPoints env s.world.fs p id)

/-! ## When the deletion wins -/

/-- The call stores points of `p`. -/
def Call.storesPoints (p : PurePath) : Call → Bool
  | .upsert points => points.any fun pt => pt.payload.filepath = p
  | _ => false

/-- The call stores a fingerprint of `p`. -/
def Call.storesHash (p : PurePath) : Call → Bool
  | .upsertHash q _ => q = p
  | _ => false

/-- The file is gone. -/
def Gone (fs : FileSystem) (p : PurePath) (w : World) : Prop :=
  fs.SameLinks w.fs ∧ w.fs.pathExists p = false

/-- While the file is gone, what is left of the job in hand makes no such call. -/
def NoLonger (env : Env) (fs : FileSystem) (p : PurePath) (bad : Call → Bool)
    (worker : Option (App IndexDecision)) : Prop :=
  ∀ rest ∈ worker, wp (answersIn env (fun _ => False) (Gone fs p)) (fun c _ => bad c = false) rest
    (fun _ _ => True) ()

/-- What is deleted is not stored again by the job in hand. Without a collection the handler ends
at its first delete, and the fingerprint has to be gone already. -/
def DeletesLast (env : Env) (p : PurePath) (s : Threads) : Call → Prop
  | .delete _ => NoLonger env s.world.fs p (Call.storesPoints p) s.worker ∧
      (s.world.collection = none →
        ¬ s.world.Tracks p ∧ NoLonger env s.world.fs p (Call.storesHash p) s.worker)
  | .deleteHash _ => NoLonger env s.world.fs p (Call.storesHash p) s.worker
  | _ => True

variable {env : Env} {h : WatchHandler} {src p : PurePath} {fs fs' : FileSystem} {w : World} {c : Call}
  {t : List (Event Services)}

/-! ## Stores without the path -/

theorem pointsAt_serve_nil (hc : c.storesPoints p = false) (hnil : w.pointsAt p = []) :
    (serve env c w).2.pointsAt p = [] := by
  rw [pointsAt_eq_nil_iff] at hnil ⊢
  intro pt hpt
  rcases mem_points_serve hpt with hstored | ⟨points, rfl, hnew⟩
  · exact hnil pt hstored
  · simpa using List.any_eq_false.mp hc pt hnew

theorem hashAt_serve_none (hc : c.storesHash p = false) (hnone : w.hashAt p = none) :
    (serve env c w).2.hashAt p = none := by
  by_contra htracks
  rcases tracks_serve (Option.isSome_iff_ne_none.mpr htracks) with hbefore | ⟨hash, rfl⟩
  · rw [World.Tracks, hnone] at hbefore
    cases hbefore
  · simp [Call.storesHash] at hc

/-! ## What the job in hand no longer stores -/

variable {bad : Call → Bool} {worker : Option (App IndexDecision)} {s s' : Threads}
  {allowed : Threads → Call → Prop}

theorem NoLonger.none : NoLonger env fs p bad none := fun _ h => by cases h

/-- A job that is taken while the file is gone ends at once. -/
theorem NoLonger.taken (hbad : bad (.pathExists p) = false) :
    NoLonger env fs p bad (some (indexIfChanged env p)) := by
  rintro _ ⟨⟩
  refine wp_bind.mpr (wp_answersIn hbad (fun w (found : Bool) hgone hfound => ?_) fun _ => trivial)
  obtain rfl : w.fs.pathExists p = found := Except.ok.inj hfound
  rw [hgone.2]
  trivial

theorem NoLonger.next {k : Except Exn (Services.Reply c) → App IndexDecision}
    (hno : NoLonger env fs p bad (some (.call c k))) (hgone : Gone fs p w) :
    bad c = false ∧ NoLonger env fs p bad (some (k (serve env c w).1)) := by
  obtain ⟨hbad, hrest⟩ := hno _ rfl
  refine ⟨hbad, ?_⟩
  rintro _ ⟨⟩
  exact hrest _ _ (.inl ⟨w, hgone, rfl⟩)

theorem NoLonger.sameLinks (hlinks : fs.SameLinks fs') (hno : NoLonger env fs' p bad worker) :
    NoLonger env fs p bad worker := by
  intro rest hrest
  refine wp_conseq (wp_simulate (f := id) (fun _ => True) (hno rest hrest) trivial ?_)
    (fun _ _ hc => hc.2) fun _ _ _ => trivial
  rintro c u o u' - - (⟨w, ⟨hw, hgone⟩, ho⟩ | ⟨hfalse, -⟩)
  · exact ⟨trivial, .inl ⟨w, ⟨hlinks.symm.trans hw, hgone⟩, ho⟩⟩
  · exact hfalse.elim

/-- A store has nothing of `p`, and the job in hand no longer stores anything there. -/
structure Erased (env : Env) (fs : FileSystem) (p : PurePath) (bad : Call → Bool)
    (empty : World → Prop) (s : Threads) : Prop where
  empty : empty s.world
  worker : NoLonger env fs p bad s.worker

/-- What is erased stays erased until the file is created again. -/
theorem Erased.step {empty : World → Prop} (hs : Erased env fs p bad empty s)
    (hserve : ∀ c w, bad c = false → empty w → empty (serve env c w).2)
    (hedit : ∀ w fs, empty w → empty { w with fs }) (hexists : bad (.pathExists p) = false)
    (hgone : Gone fs p s.world) (hqueue : ∀ q ∈ s.queue, q = p)
    (hobserver : ∀ c k, s.observer = some (.call c k) → bad c = false)
    (hstep : Threads.Step env h src p allowed s s') : Erased env fs p bad empty s' := by
  cases hstep with
  | edit fs' => exact ⟨hedit _ _ hs.empty, hs.worker⟩
  | submit => exact ⟨hs.empty, hs.worker⟩
  | take hq hidle =>
    obtain rfl := hqueue _ (hq ▸ List.mem_cons_self)
    exact ⟨hs.empty, .taken hexists⟩
  | work hworker =>
    obtain ⟨hbad, hrest⟩ := (hworker ▸ hs.worker).next hgone
    exact ⟨hserve _ _ hbad hs.empty, hrest⟩
  | finish => exact ⟨hs.empty, .none⟩
  | delete fs' => exact ⟨hedit _ _ hs.empty, hs.worker⟩
  | create fs' => exact ⟨hedit _ _ hs.empty, hs.worker⟩
  | observe hcall => exact ⟨hserve _ _ (hobserver _ _ hcall) hs.empty, hs.worker⟩
  | handled => exact ⟨hs.empty, hs.worker⟩

/-! ## Invariants -/

/-- What holds in every phase. -/
structure Threads.Inv (env : Env) (fs : FileSystem) (p : PurePath) (s : Threads) : Prop where
  links : fs.SameLinks s.world.fs
  ready : s.world.Ready
  drawn : s.world.UuidsDrawn
  queue : ∀ q ∈ s.queue, q = p
  worker : ∀ rest ∈ s.worker, Confined env fs (ResolvesTo fs p) rest (fun _ _ => True) s.world

/-- The worlds in which the deletion is handled. -/
def Site (fs : FileSystem) (h : WatchHandler) (src : PurePath) (w : World) : Prop :=
  fs.SameLinks w.fs ∧ MountsFilled h src w.fs

/-- The file was deleted, and the handler made the calls `t`. -/
structure AfterDelete (env : Env) (fs : FileSystem) (h : WatchHandler) (src p : PurePath)
    (t : List (Event Services)) (s : Threads) : Prop where
  gone : s.world.fs.pathExists p = false
  mounts : MountsFilled h src s.world.fs
  handler : ∀ rest ∈ s.observer, Handling env (Site fs h src) p .deleted rest
    (fun _ t => HandledBy p .deleted t) t
  handled : s.observer = none → HandledBy p .deleted t
  points : ∀ done, ⟨Call.delete ⟨p, none⟩, done⟩ ∈ t →
    Erased env fs p (Call.storesPoints p) (fun w => w.pointsAt p = []) s
  hash : (⟨Call.delete ⟨p, none⟩, false⟩ ∈ t ∨ ∃ done, ⟨Call.deleteHash p, done⟩ ∈ t) →
    Erased env fs p (Call.storesHash p) (fun w => w.hashAt p = none) s

/-- The file was created again, and the handler made the calls `t`. -/
structure AfterCreate (env : Env) (fs : FileSystem) (p : PurePath) (t : List (Event Services))
    (s : Threads) : Prop where
  handler : ∀ rest ∈ s.observer, Handling env (fun w => fs.SameLinks w.fs) p .created rest
    (fun _ t => HandledBy p .created t) t
  handled : s.observer = none → HandledBy p .created t
  idle : s.worker = none → Settled env p s.world
  job : ∀ rest ∈ s.worker, ∃ trace, wp ((services env).answers fun _ _ => False) (fun _ _ => True)
    rest (fun _ s' => Settled env p s'.1 ∧ HasPoints env p s'.1) (s.world, trace)
  submitted : HandledBy p .created t →
    s.queue ≠ [] ∨ s.worker.isSome ∨ HasPoints env p s.world

def Threads.Phase (env : Env) (fs : FileSystem) (h : WatchHandler) (src p : PurePath) (s : Threads) :
    Prop :=
  match s.change with
  | none => s.observer = none
  | some .deleted => ∃ t, AfterDelete env fs h src p t s
  | some .created => ∃ t, AfterCreate env fs p t s

theorem Handles.stores {change : Change} (hc : Handles p change c) :
    c.storesPoints p = false ∧ c.storesHash p = false := by
  cases c with
  | upsert points => cases change <;> cases hc
  | upsertHash q hash => cases change <;> cases hc
  | _ => exact ⟨rfl, rfl⟩

theorem Threads.Phase.handles {k : Except Exn (Services.Reply c) → App Unit}
    (hphase : s.Phase env fs h src p) (hcall : s.observer = some (.call c k)) :
    ∃ change, Handles p change c := by
  unfold Threads.Phase at hphase
  split at hphase
  · rw [hphase] at hcall
    cases hcall
  · obtain ⟨t, hphase⟩ := hphase
    exact ⟨.deleted, (hphase.handler _ hcall).1⟩
  · obtain ⟨t, hphase⟩ := hphase
    exact ⟨.created, (hphase.handler _ hcall).1⟩

/-! ## Steps keep the invariants -/

/-- A confined call keeps what holds in every phase. -/
theorem Threads.Inv.serve (hinv : s.Inv env fs p) (hc : ConfinedTo (ResolvesTo fs p) c s.world) :
    fs.SameLinks (LocalRag.serve env c s.world).2.fs ∧ (LocalRag.serve env c s.world).2.Ready ∧
      (LocalRag.serve env c s.world).2.UuidsDrawn :=
  ⟨(hc.drift hinv.ready hinv.links).links, (hc.ready hinv.ready).1, hc.drawn hinv.drawn⟩

theorem Threads.Inv.edit {fs' : FileSystem} (hinv : s.Inv env fs p)
    (hlinks : s.world.fs.SameLinks fs') (change : Option Change) (observer : Option (App Unit)) :
    Threads.Inv env fs p { s with world := { s.world with fs := fs' }, change, observer } :=
  ⟨hinv.links.trans hlinks, ⟨hinv.ready.table, hinv.ready.layout, hinv.ready.ensured⟩, hinv.drawn,
    hinv.queue, fun rest hrest =>
      (hinv.worker rest hrest).drift ⟨hinv.links.trans hlinks, id, le_rfl⟩⟩

theorem Threads.Inv.step (hinv : s.Inv env fs p) (hphase : s.Phase env fs h src p)
    (hself : fs.normalize p = some p) (hstep : Threads.Step env h src p allowed s s') :
    s'.Inv env fs p := by
  cases hstep with
  | edit fs' hlinks => exact hinv.edit hlinks _ _
  | submit =>
    refine ⟨hinv.links, hinv.ready, hinv.drawn, fun q hq => ?_, hinv.worker⟩
    rcases List.mem_append.mp hq with hq | hq
    · exact hinv.queue q hq
    · exact List.mem_singleton.mp hq
  | take hqueue =>
    refine ⟨hinv.links, hinv.ready, hinv.drawn, fun q hq => ?_, ?_⟩
    · exact hinv.queue q (hqueue ▸ List.mem_cons_of_mem _ hq)
    · obtain rfl := hinv.queue _ (hqueue ▸ List.mem_cons_self)
      rintro _ ⟨⟩
      exact confined_indexIfChanged _ _
  | work hworker =>
    have hconfined := hinv.worker _ hworker
    obtain ⟨hlinks, hready, hdrawn⟩ := hinv.serve hconfined.1
    refine ⟨hlinks, hready, hdrawn, hinv.queue, ?_⟩
    rintro _ ⟨⟩
    exact hconfined.next hinv.links
  | finish => exact ⟨hinv.links, hinv.ready, hinv.drawn, hinv.queue, nofun⟩
  | delete fs' hlinks => exact hinv.edit hlinks _ _
  | create fs' hlinks => exact hinv.edit hlinks _ _
  | observe hcall =>
    obtain ⟨change, hhandles⟩ := hphase.handles hcall
    have hconfined := hhandles.confined hself s.world
    obtain ⟨hlinks, hready, hdrawn⟩ := hinv.serve hconfined
    refine ⟨hlinks, hready, hdrawn, fun q hq => ?_, fun rest hrest => ?_⟩
    · exact (List.mem_append.mp hq).elim (hinv.queue q) (hhandles.submits q)
    · exact (hinv.worker rest hrest).drift (hconfined.drift hinv.ready hinv.links)
  | handled => exact ⟨hinv.links, hinv.ready, hinv.drawn, hinv.queue, hinv.worker⟩

/-- The delete of the points leaves none, whether it is carried out or there is no collection. -/
theorem pointsAt_serve_delete : (serve env (.delete ⟨p, none⟩) w).2.pointsAt p = [] := by
  cases hcol : w.collection with
  | none => simp [serve, onCollection, hcol, World.pointsAt, World.points]
  | some col =>
    simp only [serve, onCollection, hcol]
    rw [pointsAt_mapPoints_delete, if_pos rfl]

theorem hashAt_serve_delete : (serve env (.deleteHash p) w).2.hashAt p = none := by
  cases htable : w.fingerprints with
  | none => simp [serve, onTable, htable, World.hashAt]
  | some table =>
    simp only [serve, onTable, htable]
    rw [hashAt_mapHashes_delete, if_pos rfl]

/-- A delete that is refused says that there is no collection. -/
theorem collection_of_delete_refused {f : Filter}
    (hreply : (serve env (.delete f) w).1.toBool = false) : w.collection = none := by
  cases hcol : w.collection with
  | none => rfl
  | some col =>
    simp only [serve, onCollection, hcol] at hreply
    cases hreply

theorem AfterDelete.step (hafter : AfterDelete env fs h src p t s) (hinv : s.Inv env fs p)
    (hstep : Threads.Step env h src p (DeletesLast env p) s s')
    (hchange : s.change = some .deleted) (hchange' : s'.change = some .deleted) :
    ∃ t, AfterDelete env fs h src p t s' := by
  have hgone : Gone fs p s.world := ⟨hinv.links, hafter.gone⟩
  have hcall : ∀ c k, s.observer = some (.call c k) →
      c.storesPoints p = false ∧ c.storesHash p = false :=
    fun c k hcall => (hafter.handler _ hcall).1.stores
  have hpoints : ∀ done, ⟨Call.delete ⟨p, none⟩, done⟩ ∈ t →
      Erased env fs p (Call.storesPoints p) (fun w => w.pointsAt p = []) s' := fun done hdone =>
    (hafter.points done hdone).step (fun _ _ hc => pointsAt_serve_nil hc) (fun _ _ hw => hw) rfl hgone
      hinv.queue (fun c k hk => (hcall c k hk).1) hstep
  have hhash : (⟨Call.delete ⟨p, none⟩, false⟩ ∈ t ∨ ∃ done, ⟨Call.deleteHash p, done⟩ ∈ t) →
      Erased env fs p (Call.storesHash p) (fun w => w.hashAt p = none) s' := fun hdone =>
    (hafter.hash hdone).step (fun _ _ hc => hashAt_serve_none hc) (fun _ _ hw => hw) rfl hgone
      hinv.queue (fun c k hk => (hcall c k hk).2) hstep
  cases hstep with
  | edit fs' hlinks hmounts habsent =>
    refine ⟨t, ?_, hmounts, hafter.handler, hafter.handled, hpoints, hhash⟩
    rcases habsent with hnone | ⟨-, habsent⟩
    · rw [hchange] at hnone
      cases hnone
    · exact habsent
  | submit => exact ⟨t, hafter.gone, hafter.mounts, hafter.handler, hafter.handled, hpoints, hhash⟩
  | take => exact ⟨t, hafter.gone, hafter.mounts, hafter.handler, hafter.handled, hpoints, hhash⟩
  | work =>
    refine ⟨t, ?_, ?_, hafter.handler, hafter.handled, hpoints, hhash⟩
    · rw [serve_fs]
      exact hafter.gone
    · rw [serve_fs]
      exact hafter.mounts
  | finish => exact ⟨t, hafter.gone, hafter.mounts, hafter.handler, hafter.handled, hpoints, hhash⟩
  | delete fs' hlinks hmounts habsent hnone =>
    rw [hchange] at hnone
    cases hnone
  | create => cases hchange'
  | @observe c k hobserver hallowed =>
    obtain ⟨hhandles, hrest⟩ := hafter.handler _ hobserver
    refine ⟨t ++ [⟨c, (serve env c s.world).1.toBool⟩], ?_, ?_, ?_, fun hnone => (by cases hnone),
      fun done hdone => ?_, fun hdone => ?_⟩
    · rw [serve_fs]
      exact hafter.gone
    · rw [serve_fs]
      exact hafter.mounts
    · rintro _ ⟨⟩
      exact hrest _ _ ⟨⟨s.world, ⟨hinv.links, hafter.mounts⟩, rfl⟩, rfl⟩
    · -- The delete of the points was made before, or it is this call.
      rcases List.mem_append.mp hdone with hdone | hdone
      · exact hpoints done hdone
      · obtain ⟨rfl, -⟩ := Event.mk.inj (List.mem_singleton.mp hdone)
        exact ⟨pointsAt_serve_delete, hallowed.1.sameLinks hinv.links⟩
    · rcases hdone with hdone | ⟨done, hdone⟩
      · rcases List.mem_append.mp hdone with hdone | hdone
        · exact hhash (.inl hdone)
        · obtain ⟨rfl, hrefused⟩ := Event.mk.inj (List.mem_singleton.mp hdone)
          obtain ⟨htracks, hno⟩ := hallowed.2 (collection_of_delete_refused hrefused.symm)
          have hnone : s.world.hashAt p = none := by simpa [World.Tracks] using htracks
          exact ⟨hashAt_serve_none rfl hnone, hno.sameLinks hinv.links⟩
      · rcases List.mem_append.mp hdone with hdone | hdone
        · exact hhash (.inr ⟨done, hdone⟩)
        · obtain ⟨rfl, -⟩ := Event.mk.inj (List.mem_singleton.mp hdone)
          exact ⟨hashAt_serve_delete, hallowed.sameLinks hinv.links⟩
  | handled hreturned =>
    exact ⟨t, hafter.gone, hafter.mounts, fun rest hrest => (by cases hrest),
      fun _ => hafter.handler _ hreturned, hpoints, hhash⟩

theorem AfterCreate.step (hafter : AfterCreate env fs p t s) (hinv : s.Inv env fs p)
    (hself : fs.normalize p = some p) (hstep : Threads.Step env h src p allowed s s')
    (hchange : s.change = some .created) : ∃ t, AfterCreate env fs p t s' := by
  have hreal : s.world.fs.Real p := hinv.links.real.mpr (fs.real_of_normalize hself)
  cases hstep with
  | edit fs' hlinks hmounts habsent =>
    rcases habsent with hnone | ⟨hdeleted, -⟩
    · rw [hchange] at hnone
      cases hnone
    · rw [hchange] at hdeleted
      cases hdeleted
  | submit =>
    exact ⟨t, hafter.handler, hafter.handled, hafter.idle, hafter.job, fun _ => .inl (by simp)⟩
  | take hqueue hworker =>
    obtain rfl := hinv.queue _ (hqueue ▸ List.mem_cons_self)
    refine ⟨t, hafter.handler, hafter.handled, fun hnone => (by cases hnone), ?_,
      fun _ => .inr (.inl rfl)⟩
    rintro _ ⟨⟩
    exact ⟨[], indexIfChanged_settles hinv.ready hinv.drawn hreal (hafter.idle hworker)⟩
  | work hworker =>
    obtain ⟨trace, hjob⟩ := hafter.job _ hworker
    refine ⟨t, hafter.handler, hafter.handled, fun hnone => (by cases hnone), ?_,
      fun _ => .inr (.inl rfl)⟩
    rintro _ ⟨⟩
    exact ⟨_, hjob.2 _ _ (.inl ⟨rfl, rfl⟩)⟩
  | finish hworker =>
    obtain ⟨trace, hsettled, hpoints⟩ := hafter.job _ hworker
    exact ⟨t, hafter.handler, hafter.handled, fun _ => hsettled, fun rest hrest => (by cases hrest),
      fun _ => .inr (.inr hpoints)⟩
  | delete fs' hlinks hmounts habsent hnone =>
    rw [hchange] at hnone
    cases hnone
  | create fs' hlinks hfile hdeleted =>
    rw [hchange] at hdeleted
    cases hdeleted
  | @observe c k hobserver =>
    obtain ⟨hhandles, hrest⟩ := hafter.handler _ hobserver
    have hsame : (serve env c s.world).2 = s.world := serve_looks hhandles.looks s.world
    refine ⟨t ++ [⟨c, (serve env c s.world).1.toBool⟩], ?_, fun hnone => (by cases hnone), ?_, ?_,
      fun hdone => ?_⟩
    · rintro _ ⟨⟩
      exact hrest _ _ ⟨⟨s.world, hinv.links, rfl⟩, rfl⟩
    · rw [hsame]
      exact hafter.idle
    · rw [hsame]
      exact hafter.job
    · rw [hsame]
      rcases List.mem_append.mp hdone with hdone | hdone
      · exact (hafter.submitted hdone).imp (fun hne => by simp [hne]) id
      · obtain ⟨rfl, -⟩ := Event.mk.inj (List.mem_singleton.mp hdone)
        exact .inl (by simp [Call.submitted])
  | handled hreturned =>
    exact ⟨t, fun rest hrest => (by cases hrest), fun _ => hafter.handler _ hreturned, hafter.idle,
      hafter.job, hafter.submitted⟩

/-- At rest nothing is stored of a deleted file. -/
theorem AfterDelete.atRest (hafter : AfterDelete env fs h src p t s) (hrest : s.AtRest) :
    s.world.pointsAt p = [] ∧ s.world.hashAt p = none := by
  rcases hafter.handled hrest.observer with hrefused | ⟨done, hdeleted, hhash⟩
  · exact ⟨(hafter.points _ hrefused).empty, (hafter.hash (.inl hrefused)).empty⟩
  · exact ⟨(hafter.points _ hdeleted).empty, (hafter.hash (.inr ⟨done, hhash⟩)).empty⟩

theorem AfterCreate.atRest (hafter : AfterCreate env fs p t s) (hrest : s.AtRest) :
    HasPoints env p s.world := by
  rcases hafter.submitted (hafter.handled hrest.observer) with hqueue | hworker | hpoints
  · exact absurd hrest.queue hqueue
  · rw [hrest.worker] at hworker
    cases hworker
  · exact hpoints

theorem Threads.Phase.step (hphase : s.Phase env fs h src p) (hinv : s.Inv env fs p)
    (hsrc : fs.normalize src = some p) (hindexable : h.indexable env src = true)
    (hstep : Threads.Step env h src p (DeletesLast env p) s s') : s'.Phase env fs h src p := by
  have hself : fs.normalize p = some p := fs.normalize_of_real (fs.real_of_normalize hsrc)
  unfold Threads.Phase at hphase ⊢
  cases hchange : s.change with
  | none =>
    rw [hchange] at hphase
    have hwatching : s.observer = none := hphase
    cases hstep with
    | delete fs' hlinks hmounts habsent =>
      refine ⟨[], habsent, hmounts, ?_, nofun, nofun, fun hdone => by simp at hdone⟩
      rintro _ ⟨⟩
      exact handling_onDeleted (fun _ hw => hw.1) (fun _ hw => hw.2) hsrc hindexable
    | create fs' hlinks hfile hdeleted =>
      rw [hchange] at hdeleted
      cases hdeleted
    | observe hcall =>
      rw [hwatching] at hcall
      cases hcall
    | handled => simp [hchange]
    | _ => simp [hchange, hwatching]
  | some change =>
    cases change with
    | deleted =>
      rw [hchange] at hphase
      obtain ⟨t, hafter⟩ := hphase
      by_cases hchange' : s'.change = some .deleted
      · rw [hchange']
        exact hafter.step hinv hstep hchange hchange'
      cases hstep with
      | create fs' hlinks hfile hdeleted hrest =>
        obtain ⟨hpoints, hhash⟩ := hafter.atRest hrest
        refine ⟨[], ?_, nofun, fun _ => .inl ⟨hhash, hpoints⟩, ?_, nofun⟩
        · rintro _ ⟨⟩
          exact handling_onCreated (fun _ hw => hw) hsrc hindexable
        · intro rest hjob
          rw [hrest.worker] at hjob
          cases hjob
      | delete fs' hlinks hmounts habsent hnone => exact absurd rfl hchange'
      | _ => exact absurd hchange hchange'
    | created =>
      rw [hchange] at hphase
      obtain ⟨t, hafter⟩ := hphase
      have hchange' : s'.change = some .created := by
        cases hstep with
        | delete fs' hlinks hmounts habsent hnone =>
          rw [hchange] at hnone
          cases hnone
        | create => rfl
        | _ => exact hchange
      rw [hchange']
      exact hafter.step hinv hself hstep hchange

theorem Threads.Start.inv (hstart : s.Start env h src p) :
    s.Inv env s.world.fs p ∧ s.Phase env s.world.fs h src p := by
  refine ⟨⟨.refl _, hstart.ready, hstart.drawn, hstart.queue, fun rest hjob => ?_⟩, ?_⟩
  · rw [hstart.worker] at hjob
    cases hjob
  · unfold Threads.Phase
    rw [hstart.change]
    exact hstart.observer

/-- The invariants hold in every run. -/
theorem Threads.Start.run {s₀ : Threads} (hstart : s₀.Start env h src p)
    (hrun : Relation.ReflTransGen (Threads.Step env h src p (DeletesLast env p)) s₀ s) :
    s.Inv env s₀.world.fs p ∧ s.Phase env s₀.world.fs h src p := by
  have hself : s₀.world.fs.normalize p = some p :=
    s₀.world.fs.normalize_of_real (s₀.world.fs.real_of_normalize hstart.resolves)
  induction hrun with
  | refl => exact hstart.inv
  | tail _ hstep ih =>
    exact ⟨ih.1.step ih.2 hself hstep, ih.2.step ih.1 hstart.resolves hstart.indexable hstep⟩

/-- As long as the observer deletes only what the job in hand does not store again, the deletion
wins. -/
theorem onDeleted_wins (env : Env) (h : WatchHandler) (src p : PurePath) :
    DeletionWins env h src p (DeletesLast env p) := by
  intro s₀ s hstart hrun hrest
  obtain ⟨-, hphase⟩ := hstart.run hrun
  unfold Threads.Phase at hphase
  refine ⟨fun hdeleted => ?_, fun hcreated => ?_⟩
  · rw [hdeleted] at hphase
    obtain ⟨t, hafter⟩ := hphase
    obtain ⟨hpoints, hhash⟩ := hafter.atRest hrest
    exact ⟨hpoints, by simp [World.Tracks, hhash]⟩
  · rw [hcreated] at hphase
    obtain ⟨t, hafter⟩ := hphase
    exact hafter.atRest hrest

/-! ## Examples -/

namespace Threads

/-- The next step of the worker. -/
def workerStep (env : Env) (s : Threads) : Threads :=
  match s.worker, s.queue with
  | some (.call c k), _ =>
    { s with world := (serve env c s.world).2, worker := some (k (serve env c s.world).1) }
  | some (.ret _), _ => { s with worker := none }
  | none, q :: rest => { s with queue := rest, worker := some (indexIfChanged env q) }
  | none, [] => s

/-- The next step of the observer. -/
def observerStep (env : Env) (s : Threads) : Threads :=
  match s.observer with
  | some (.call c k) =>
    { s with
      world := (serve env c s.world).2
      queue := s.queue ++ c.submitted
      observer := some (k (serve env c s.world).1) }
  | some (.ret _) => { s with observer := none }
  | none => s

/-- Runs in which the observer makes its calls at any time. -/
abbrev Freely (env : Env) (h : WatchHandler) (src p : PurePath) : Threads → Threads → Prop :=
  Relation.ReflTransGen (Step env h src p fun _ _ => True)

theorem freely_workerStep (s : Threads) : Freely env h src p s (s.workerStep env) := by
  unfold workerStep
  split
  · next hworker => exact .single (.work hworker)
  · next hworker => exact .single (.finish hworker)
  · next hworker hqueue => exact .single (.take hqueue hworker)
  · exact .refl

theorem freely_observerStep (s : Threads) : Freely env h src p s (s.observerStep env) := by
  unfold observerStep
  split
  · next hcall => exact .single (.observe hcall trivial)
  · next hreturned => exact .single (.handled hreturned)
  · exact .refl

theorem freely_iterate {step : Threads → Threads} (hstep : ∀ s, Freely env h src p s (step s))
    (n : ℕ) (s : Threads) : Freely env h src p s (step^[n] s) :=
  rel_iterate (fun _ => .refl) .trans hstep n s

end Threads

/-- The sample file was submitted. -/
def sampleSubmitted : Threads where
  world := sampleWorld [104, 105]
  queue := [samplePath]
  worker := none
  change := none
  observer := none

/-- The worker has read the file. -/
def sampleRead : Threads := (Threads.workerStep Env.sample)^[14] sampleSubmitted

/-- The file is deleted. -/
def sampleDeleted : Threads :=
  { sampleRead with
    world := { sampleRead.world with fs := sampleRead.world.fs.remove samplePath.names }
    change := some .deleted
    observer := some (sampleHandler.onDeleted Env.sample { srcPath := samplePath }) }

/-- The observer handles the deletion, and then the worker ends its job. -/
def sampleStored : Threads :=
  (Threads.workerStep Env.sample)^[20] ((Threads.observerStep Env.sample)^[7] sampleDeleted)

/-- The worker has read a file when it is deleted; it stores the file after the handler of the
deletion has returned. -/
theorem onDeleted_loses : ¬ DeletionWins Env.sample sampleHandler samplePath samplePath
    fun _ _ => True := by
  intro hwins
  have hnormal : sampleSubmitted.world.fs.normalize samplePath = some samplePath :=
    FileSystem.normalize_of_real (sampleWorld_real _)
  have hstart : sampleSubmitted.Start Env.sample sampleHandler samplePath samplePath :=
    ⟨hnormal, by decide, ⟨rfl, nofun, nofun⟩, fun _ hpt => (List.not_mem_nil hpt).elim,
      fun q hq => List.mem_singleton.mp hq, rfl, rfl, rfl⟩
  have hread : Threads.Freely Env.sample sampleHandler samplePath samplePath sampleSubmitted sampleRead :=
    Threads.freely_iterate Threads.freely_workerStep _ _
  have habsent : (sampleRead.world.fs.remove samplePath.names).pathExists samplePath = false := by
    decide +kernel
  have hdeleted : Threads.Freely Env.sample sampleHandler samplePath samplePath sampleSubmitted
      sampleDeleted :=
    hread.tail (.delete _ FileSystem.sameLinks_remove nofun habsent (by decide +kernel))
  have hrun : Threads.Freely Env.sample sampleHandler samplePath samplePath sampleSubmitted
      sampleStored :=
    hdeleted.trans ((Threads.freely_iterate Threads.freely_observerStep _ _).trans
      (Threads.freely_iterate Threads.freely_workerStep _ _))
  have hrest : sampleStored.AtRest := by
    refine ⟨by decide +kernel, Option.isNone_iff_eq_none.mp ?_, Option.isNone_iff_eq_none.mp ?_⟩
    · decide +kernel
    · decide +kernel
  have hstored : sampleStored.world.pointsAt samplePath ≠ [] := by decide +kernel
  exact hstored ((hwins _ _ hstart hrun hrest).1 (by decide +kernel)).1

end LocalRag
