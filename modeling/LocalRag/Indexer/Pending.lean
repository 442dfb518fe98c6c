-- SUMMARY: What keeps a path pending: the calls of the handlers, the events behind them, and what each step leaves of both.
import LocalRag.Indexer.FailStop

/-!
# Pending paths

A path is pending as long as something is on its way that submits it: a change that
no poll has seen, an event, a handler, or a place in the queue. It stays pending
until its job is taken. A deletion that is queued for a file that is there again is
followed by an event that renews the file.
-/

namespace LocalRag

open PyText PyPath Effects

variable {env : Env} {h : WatchHandler} {po : PollingObserver} {watches : List Watch}
  {fs fs' : FileSystem} {p q x : PurePath} {c : Call} {node : FileNode} {s s' : Running}
  {e : WatchEvent}

/-! ## What a handler calls -/

/-- Handling the event deletes what is stored of `p`. -/
structure Erases (env : Env) (h : WatchHandler) (fs : FileSystem) (e : WatchEvent) (p : PurePath) :
    Prop where
  kind : e.kind = .deleted
  file : e.isDirectory = false
  indexable : h.indexable env e.srcPath = true
  resolves : fs.normalize e.srcPath = some p

/-- The calls in the handler of an event. -/
def HandlerCall (env : Env) (h : WatchHandler) (fs : FileSystem) (e : WatchEvent) : Call → Prop
  | .delete f => Erases env h fs e f.filepath
  | .deleteHash q => Erases env h fs e q
  | .submit q => fs.normalize e.srcPath = some q
  | c => c.looks = true

/-- Whatever the calls of a program reply and whichever fail, while the links stay, they are as `G`
says. -/
abbrev Within {α : Type} (env : Env) (fs : FileSystem) (G : Call → Prop) (prog : App α) : Prop :=
  wp (answersIn env (fun _ => True) fun w => fs.SameLinks w.fs) (fun c _ => G c) prog
    (fun _ _ => True) ()

/-- What is left of the handler of an event. -/
abbrev HandlesEvent {α : Type} (env : Env) (h : WatchHandler) (fs : FileSystem) (e : WatchEvent)
    (prog : App α) : Prop :=
  Within env fs (HandlerCall env h fs e) prog

variable {G : Call → Prop}

theorem Within.bind {α β : Type} {prog : App α} {f : α → App β} (hprog : Within env fs G prog)
    (hf : ∀ a, Within env fs G (f a)) : Within env fs G (prog >>= f) := by
  refine wp_bind.mpr (wp_mono hprog fun r _ _ => ?_)
  cases r with
  | ok a => exact hf a
  | error _ => trivial

theorem Within.call (hc : G c) : Within env fs G (LocalRag.call c) :=
  wp_answersIn hc (fun _ _ _ _ => trivial) fun _ => trivial

theorem Within.normalizePath_bind {α : Type} {f : PurePath → App α} (hc : G (.normalizePath q))
    (hf : ∀ r, fs.normalize q = some r → Within env fs G (f r)) :
    Within env fs G (normalizePath q >>= f) := by
  refine wp_bind.mpr (wp_answersIn hc (fun w (r : PurePath) hw hr => ?_) fun _ => trivial)
  exact hf r ((hw.normalize q).symm.trans (orRaise_eq_ok_iff.mp hr))

theorem handlesEvent_brokenMountFor (src : PurePath) (roots : List PurePath) :
    HandlesEvent env h fs e (WatchHandler.brokenMountFor src roots) := by
  induction roots with
  | nil => trivial
  | cons root rest ih =>
    unfold WatchHandler.brokenMountFor
    split
    case isFalse => exact ih
    refine wp_bind.mpr (wp_tryCatch.mpr (wp_bind.mpr (wp_answersIn rfl ?_ fun _ => ih)))
    intro w (children : List PurePath) _ _
    change HandlesEvent env h fs e (if children.isEmpty = true then pure (some root)
      else WatchHandler.brokenMountFor src rest)
    split
    · trivial
    · exact ih

theorem handlesEvent_removeIndexedDocument (herases : Erases env h fs e p) :
    HandlesEvent env h fs e (removeIndexedDocument p) := by
  have hself : fs.normalize p = some p := fs.normalize_of_real (fs.real_of_normalize herases.resolves)
  have hsame : ∀ r, fs.normalize p = some r → r = p := fun r hr =>
    Option.some_inj.mp (hr.symm.trans hself)
  unfold removeIndexedDocument deleteDocument deleteHash
  refine .normalizePath_bind rfl fun r hr => ?_
  obtain rfl := hsame r hr
  refine .bind (.normalizePath_bind rfl fun r' hr' => ?_) fun _ =>
    .normalizePath_bind rfl fun r' hr' => ?_
  · obtain rfl := hsame r' hr'
    exact .call herases
  · obtain rfl := hsame r' hr'
    exact .call herases

theorem handlesEvent_onCreated :
    HandlesEvent env h fs e (h.onCreated env e.toFileEvent) := by
  unfold WatchHandler.onCreated WatchHandler.enqueue
  split
  · trivial
  split
  · exact .normalizePath_bind rfl fun r hr => .call hr
  · trivial

theorem handlesEvent_onDeleted (hkind : e.kind = .deleted) :
    HandlesEvent env h fs e (h.onDeleted env e.toFileEvent) := by
  unfold WatchHandler.onDeleted
  split
  · trivial
  next hfile =>
  rw [Bool.or_eq_true, not_or, Bool.not_eq_true, Bool.not_eq_true', Bool.not_eq_false] at hfile
  refine .bind (handlesEvent_brokenMountFor _ _) fun brokenRoot => ?_
  split
  · trivial
  refine .normalizePath_bind rfl fun r hr => wp_tryCatch.mpr ?_
  refine wp_mono (handlesEvent_removeIndexedDocument ⟨hkind, hfile.1, hfile.2, hr⟩) fun o _ _ => ?_
  cases o <;> trivial

theorem handlesEvent_dispatch (e : WatchEvent) : HandlesEvent env h fs e (h.dispatch env e) := by
  unfold WatchHandler.dispatch
  cases hkind : e.kind with
  | created => exact handlesEvent_onCreated
  | modified => exact handlesEvent_onCreated
  | deleted => exact handlesEvent_onDeleted hkind
  | moved => trivial

/-- The handler of a renewed file submits what its name resolves to. -/
theorem submits_dispatch (hrenews : e.Renews x) (hindexable : h.indexable env x = true)
    (hx : fs.normalize x = some p) :
    Submits env (fun w => fs.SameLinks w.fs) x p (h.dispatch env e) [] := by
  obtain ⟨rfl, hfile, hkind⟩ := hrenews
  unfold WatchHandler.dispatch
  rcases hkind with hkind | hkind <;> rw [hkind] <;>
    exact submits_onCreated (fun _ hw => hw) hfile hindexable hx

/-! ## What the call of a handler changes -/

theorem HandlerCall.cases (hc : HandlerCall env h fs e c) :
    c.looks = true ∨ (∃ f, c = .delete f) ∨ ∃ q, c = .deleteHash q := by
  cases c with
  | delete f => exact .inr (.inl ⟨f, rfl⟩)
  | deleteHash q => exact .inr (.inr ⟨q, rfl⟩)
  | submit q => exact .inl rfl
  | _ => exact .inl hc

theorem HandlerCall.keepsReady (hc : HandlerCall env h fs e c) : c.keepsReady = true := by
  cases c <;> first | rfl | cases hc

theorem HandlerCall.setsHash (hc : HandlerCall env h fs e c) (hkept : ¬ Erases env h fs e p) :
    c.setsHash p = false := by
  cases c with
  | upsertHash q hash => cases hc
  | clearHashes => cases hc
  | deleteHash q =>
    refine decide_eq_false fun hq => hkept ?_
    exact hq ▸ hc
  | _ => rfl

/-- A handler leaves alone what the job on another path sees. -/
theorem HandlerCall.rely (hc : HandlerCall env h fs e c) (hkept : ¬ Erases env h fs e p) (w : World) :
    Rely p w (serve env c w).2 := by
  have hhash : (serve env c w).2.hashAt p = w.hashAt p := serve_hashAt (hc.setsHash hkept)
  have hfs : (serve env c w).2.fs = w.fs := serve_fs
  rcases hc.cases with hlooks | ⟨f, rfl⟩ | ⟨q, rfl⟩
  · rw [serve_looks hlooks]
    exact .refl p w
  · refine ⟨hfs ▸ .refl _, by rw [hfs], hhash, ?_, ?_, ?_⟩ <;>
      cases hcol : w.collection <;>
        simp [serve, onCollection, hcol, World.mapPoints, Collection.sparseVectors]
  · refine ⟨hfs ▸ .refl _, by rw [hfs], hhash, ?_, ?_, ?_⟩ <;>
      cases htable : w.fingerprints <;> simp [serve, onTable, htable, World.mapHashes]

/-! ## Invariants -/

/-- What holds of the whole system. -/
structure Running.Inv (env : Env) (h : WatchHandler) (fs : FileSystem) (s : Running) : Prop where
  links : fs.SameLinks s.world.fs
  ready : s.world.Ready
  resolved : ∀ p ∈ s.queue, fs.normalize p = some p
  seen : ∀ watch x st, (s.snapshots watch).lookup x = some st → watch.Covers x
  job : ∀ p rest, s.worker = some (p, rest) → fs.normalize p = some p ∧
    Confined env fs (ResolvesTo fs p) rest (fun _ _ => True) s.world ∧
    Stops env rest fun _ _ => True
  handler : ∀ e rest, s.observer = some (e, rest) → HandlesEvent env h fs e rest

/-- Nothing erases what is stored of the file for good: after each deletion that is queued or in
hand the path is renewed. -/
structure Running.Renews (env : Env) (h : WatchHandler) (watches : List Watch) (fs : FileSystem)
    (p : PurePath) (s : Running) : Prop where
  queued : ∀ pre e post, s.events = pre ++ e :: post → Erases env h fs e p →
    Renewed env h watches fs s p post
  inHand : ∀ e rest, s.observer = some (e, rest) → Erases env h fs e p →
    Renewed env h watches fs s p s.events

/-- A job that has failed makes no further call. -/
theorem Stops.over {rest : App IndexDecision}
    (hstops : wp (FailureMarked env) (fun _ failed => failed = false) rest (fun _ _ => True) true) :
    ∃ r, rest = .ret r := by
  cases rest with
  | ret r => exact ⟨r, rfl⟩
  | call c k => cases hstops.1

theorem statAt_eq (hlinks : fs.SameLinks s.world.fs) (hx : fs.normalize x = some p)
    (hfile : s.world.fs.fileAt p = some node) :
    statAt s.world.fs x = some ⟨node.inode, node.mtime, node.bytes.length⟩ := by
  rw [statAt, hlinks.normalize, hx, Option.bind_some, hfile, Option.map_some]

/-! ### Renewals -/

/-- A renewal stays while files and snapshots are as they were. -/
theorem Renewed.congr {events : List WatchEvent} (hr : Renewed env h watches fs s p events)
    (hsnapshots : s'.snapshots = s.snapshots) (hfs : s'.world.fs = s.world.fs) :
    Renewed env h watches fs s' p events := by
  unfold Renewed at hr ⊢
  rwa [hsnapshots, hfs]

/-- The poll of an emitter queues an event for each name of the file that it saw changed. -/
theorem Renewed.poll {events : List WatchEvent} {watch : Watch} {new : Snapshot}
    (hr : Renewed env h watches fs s p events) (hlinks : fs.SameLinks s.world.fs)
    (hnew : ∀ x st, new.lookup x = some st ↔ watch.Covers x ∧ statAt s.world.fs x = some st)
    (hmoves : NoMoves env h (s.snapshots watch) new) (hfile : s.world.fs.fileAt p = some node) :
    Renewed env h watches fs
      { s with
        snapshots := Function.update s.snapshots watch new
        events := s.events ++ po.events (s.snapshots watch) new } p
      (events ++ po.events (s.snapshots watch) new) := by
  rcases hr with ⟨e, he, hr⟩ | ⟨watch', hwatch', x, hcovers, hindexable, hx, hchanged⟩
  · exact .inl ⟨e, List.mem_append_left _ he, hr⟩
  have hstat := statAt_eq hlinks hx hfile
  by_cases hsame : watch' = watch
  · subst hsame
    have hlookup := (hnew x _).mpr ⟨hcovers, hstat⟩
    rw [hstat] at hchanged
    obtain ⟨e, he, hrenews⟩ := po.renews _ _ x _ hlookup hchanged (hmoves x _ hindexable hlookup hchanged)
    exact .inl ⟨e, List.mem_append_right _ he, x, hrenews, hindexable, hx⟩
  · refine .inr ⟨watch', hwatch', x, hcovers, hindexable, hx, ?_⟩
    dsimp only
    rwa [Function.update_of_ne hsame]

/-- A deletion that a poll queues of a file that is there is followed by its renewal. -/
theorem renewed_of_replaced {watch : Watch} {new : Snapshot} {pre post : List WatchEvent}
    (hinv : s.Inv env h fs)
    (hnew : ∀ x st, new.lookup x = some st ↔ watch.Covers x ∧ statAt s.world.fs x = some st)
    (hmoves : NoMoves env h (s.snapshots watch) new) (hfile : s.world.fs.fileAt p = some node)
    (hevents : po.events (s.snapshots watch) new = pre ++ e :: post) (herases : Erases env h fs e p) :
    Renewed env h watches fs s' p post := by
  obtain ⟨hkind, hdir, hindexable, hx⟩ := herases
  have hstat := statAt_eq hinv.links hx hfile
  have hmem : e ∈ po.events (s.snapshots watch) new := hevents ▸ List.mem_append_right _ List.mem_cons_self
  have hchanged := po.changed _ _ e hmem hdir
  have hcovers : watch.Covers e.srcPath := by
    cases hold : (s.snapshots watch).lookup e.srcPath with
    | some st => exact hinv.seen _ _ _ hold
    | none =>
      rw [hold] at hchanged
      obtain ⟨st, hst⟩ := Option.ne_none_iff_exists'.mp (Ne.symm hchanged)
      exact ((hnew _ _).mp hst).1
  have hlookup := (hnew _ _).mpr ⟨hcovers, hstat⟩
  rw [hlookup] at hchanged
  obtain ⟨e', he', hrenews⟩ := po.replaced _ _ pre e post _ hevents hkind hdir hlookup
    (hmoves _ _ hindexable hlookup hchanged)
  exact .inl ⟨e', he', e.srcPath, hrenews, hindexable, hx⟩

/-- A changed file is renewed: no emitter has seen its new stat data. -/
theorem renewed_of_noticed {events : List WatchEvent} (hlinks : fs.SameLinks s.world.fs)
    (hlinks' : fs.SameLinks fs') (hfollowed : Followed env h watches fs p)
    (hnoticed : s.Noticed watches fs') (hfile : fs'.fileAt p = some node)
    (hchanged : fs'.fileAt p ≠ s.world.fs.fileAt p) :
    Renewed env h watches fs { s with world := { s.world with fs := fs' } } p events := by
  obtain ⟨watch, hwatch, x, hcovers, hindexable, hx⟩ := hfollowed
  have hstat : statAt fs' x = some ⟨node.inode, node.mtime, node.bytes.length⟩ := by
    rw [statAt, hlinks'.normalize, hx, Option.bind_some, hfile, Option.map_some]
  refine .inr ⟨watch, hwatch, x, hcovers, hindexable, hx, ?_⟩
  rw [hstat]
  exact hnoticed watch hwatch x p hcovers ((hlinks.normalize x).trans hx) hchanged _ hstat

/-- An unchanged file is renewed as before. -/
theorem Renewed.edit {events : List WatchEvent} (hr : Renewed env h watches fs s p events)
    (hlinks : fs.SameLinks s.world.fs) (hlinks' : fs.SameLinks fs')
    (hsame : fs'.fileAt p = s.world.fs.fileAt p) :
    Renewed env h watches fs { s with world := { s.world with fs := fs' } } p events := by
  rcases hr with hr | ⟨watch, hwatch, x, hcovers, hindexable, hx, hchanged⟩
  · exact .inl hr
  · refine .inr ⟨watch, hwatch, x, hcovers, hindexable, hx, ?_⟩
    rw [statAt, hlinks.normalize, hx, Option.bind_some] at hchanged
    rwa [statAt, hlinks'.normalize, hx, Option.bind_some, hsame]

/-! ### Steps -/

variable {mayFail : Running → Prop}

theorem Running.Inv.step (hinv : s.Inv env h fs)
    (hstep : Running.Step env h po watches mayFail (NoMoves env h) s s') : s'.Inv env h fs := by
  cases hstep with
  | edit fs' hlinks =>
    have hlinks' := hinv.links.trans hlinks
    refine ⟨hlinks', ⟨hinv.ready.table, hinv.ready.layout, hinv.ready.ensured⟩, hinv.resolved,
      hinv.seen, fun p rest hjob => ?_, hinv.handler⟩
    obtain ⟨hself, hconfined, hstops⟩ := hinv.job p rest hjob
    exact ⟨hself, hconfined.drift ⟨hlinks', id, le_rfl⟩, hstops⟩
  | @poll watch new hwatch hnew =>
    refine ⟨hinv.links, hinv.ready, hinv.resolved, fun watch' x st hst => ?_, hinv.job, hinv.handler⟩
    dsimp only at hst
    by_cases hsame : watch' = watch
    · subst hsame
      rw [Function.update_self] at hst
      exact ((hnew x st).mp hst).1
    · rw [Function.update_of_ne hsame] at hst
      exact hinv.seen watch' x st hst
  | next =>
    refine ⟨hinv.links, hinv.ready, hinv.resolved, hinv.seen, hinv.job, ?_⟩
    rintro _ _ ⟨⟩
    exact handlesEvent_dispatch _
  | @observe e c k hobserver =>
    obtain ⟨hc, hrest⟩ := hinv.handler _ _ hobserver
    obtain ⟨hready, hcollection⟩ : (serve env c s.world).2.Ready ∧
        (serve env c s.world).2.collection.isSome = s.world.collection.isSome :=
      serve_ready hc.keepsReady hinv.ready
    have hlinks : fs.SameLinks (serve env c s.world).2.fs := by
      rw [serve_fs]
      exact hinv.links
    refine ⟨hlinks, hready, fun p hp => ?_, hinv.seen, fun p rest hjob => ?_, ?_⟩
    · rcases List.mem_append.mp hp with hp | hp
      · exact hinv.resolved p hp
      · cases c with
        | submit q =>
          obtain rfl := List.mem_singleton.mp hp
          exact fs.normalize_of_real (fs.real_of_normalize hc)
        | _ => cases hp
    · obtain ⟨hself, hconfined, hstops⟩ := hinv.job p rest hjob
      exact ⟨hself, hconfined.drift ⟨hlinks, fun hsome => hcollection ▸ hsome, serve_nextUuid_le⟩, hstops⟩
    · rintro _ _ ⟨⟩
      exact hrest _ _ (.inl ⟨s.world, hinv.links, rfl⟩)
  | observeFails hobserver =>
    refine ⟨hinv.links, hinv.ready, hinv.resolved, hinv.seen, hinv.job, ?_⟩
    rintro _ _ ⟨⟩
    exact (hinv.handler _ _ hobserver).2 _ _ (.inr ⟨trivial, rfl⟩)
  | handled => exact ⟨hinv.links, hinv.ready, hinv.resolved, hinv.seen, hinv.job, nofun⟩
  | take hqueue =>
    refine ⟨hinv.links, hinv.ready, fun p hp => ?_, hinv.seen, ?_, hinv.handler⟩
    · exact hinv.resolved p (hqueue ▸ List.mem_cons_of_mem _ hp)
    · rintro _ _ ⟨⟩
      exact ⟨hinv.resolved _ (hqueue ▸ List.mem_cons_self), confined_indexIfChanged _ _,
        stops_indexIfChanged _⟩
  | work hworker =>
    obtain ⟨hself, hconfined, hstops⟩ := hinv.job _ _ hworker
    refine ⟨(hconfined.1.drift hinv.ready hinv.links).links, (hconfined.1.ready hinv.ready).1,
      hinv.resolved, hinv.seen, ?_, hinv.handler⟩
    rintro _ _ ⟨⟩
    exact ⟨hself, hconfined.next hinv.links, hstops.2 _ _ (.inl ⟨rfl, s.world, rfl⟩)⟩
  | @workFails p c k hworker hremote =>
    obtain ⟨hself, hconfined, hstops⟩ := hinv.job _ _ hworker
    refine ⟨hinv.links, hinv.ready, hinv.resolved, hinv.seen, ?_, hinv.handler⟩
    rintro _ _ ⟨⟩
    obtain ⟨r, hr⟩ := Stops.over (hstops.2 _ _ (.inr ⟨hremote, rfl, rfl⟩))
    rw [hr]
    refine ⟨hself, ?_, trivial⟩
    cases r <;> trivial
  | finish => exact ⟨hinv.links, hinv.ready, hinv.resolved, hinv.seen, nofun, hinv.handler⟩

theorem Running.Renews.congr (hrenews : s.Renews env h watches fs p)
    (hsnapshots : s'.snapshots = s.snapshots) (hfs : s'.world.fs = s.world.fs)
    (hevents : s'.events = s.events)
    (hobserver : ∀ e rest, s'.observer = some (e, rest) → ∃ rest, s.observer = some (e, rest)) :
    s'.Renews env h watches fs p := by
  refine ⟨fun pre e post hsplit herases => ?_, fun e rest hhand herases => ?_⟩
  · exact (hrenews.queued pre e post (hevents ▸ hsplit) herases).congr hsnapshots hfs
  · obtain ⟨rest', hhand'⟩ := hobserver e rest hhand
    rw [hevents]
    exact (hrenews.inHand e rest' hhand' herases).congr hsnapshots hfs

/-- As long as the file stays as it is, it is renewed after each deletion. -/
theorem Running.Renews.step_of_same (hinv : s.Inv env h fs) (hrenews : s.Renews env h watches fs p)
    (hfile : s.world.fs.fileAt p = some node) (hsame : s'.world.fs.fileAt p = s.world.fs.fileAt p)
    (hstep : Running.Step env h po watches mayFail (NoMoves env h) s s') :
    s'.Renews env h watches fs p := by
  cases hstep with
  | edit fs' hlinks =>
    have hlinks' := hinv.links.trans hlinks
    exact ⟨fun pre e post hsplit herases =>
        (hrenews.queued pre e post hsplit herases).edit hinv.links hlinks' hsame,
      fun e rest hhand herases => (hrenews.inHand e rest hhand herases).edit hinv.links hlinks' hsame⟩
  | @poll watch new hwatch hnew hmoves =>
    refine ⟨fun pre e post hsplit herases => ?_, fun e rest hhand herases => ?_⟩
    · rcases List.append_eq_append_iff.mp hsplit with ⟨pre', rfl, hnewEvents⟩ | ⟨post', hpost, hnewEvents⟩
      · exact renewed_of_replaced hinv hnew hmoves hfile hnewEvents herases
      · cases post' with
        | nil =>
          rw [List.nil_append] at hnewEvents
          have hsplit' : po.events (s.snapshots watch) new = [] ++ e :: post := hnewEvents.symm
          exact renewed_of_replaced hinv hnew hmoves hfile hsplit' herases
        | cons e' post' =>
          obtain ⟨rfl, rfl⟩ := List.cons_eq_cons.mp hnewEvents
          exact (hrenews.queued pre _ post' hpost herases).poll hinv.links hnew hmoves hfile
    · exact (hrenews.inHand e rest hhand herases).poll hinv.links hnew hmoves hfile
  | @next e rest hevents hobserver =>
    refine ⟨fun pre e' post hsplit herases => ?_, ?_⟩
    · have hsplit' : s.events = (e :: pre) ++ e' :: post := hevents.trans (congrArg (e :: ·) hsplit)
      exact (hrenews.queued (e :: pre) e' post hsplit' herases).congr rfl rfl
    · rintro _ _ ⟨⟩ herases
      exact (hrenews.queued [] e rest hevents herases).congr rfl rfl
  | observe hobserver =>
    refine hrenews.congr rfl serve_fs rfl ?_
    rintro _ _ ⟨⟩
    exact ⟨_, hobserver⟩
  | observeFails hobserver =>
    refine hrenews.congr rfl rfl rfl ?_
    rintro _ _ ⟨⟩
    exact ⟨_, hobserver⟩
  | handled => exact hrenews.congr rfl rfl rfl nofun
  | take => exact hrenews.congr rfl rfl rfl fun e rest he => ⟨rest, he⟩
  | work => exact hrenews.congr rfl serve_fs rfl fun e rest he => ⟨rest, he⟩
  | workFails => exact hrenews.congr rfl rfl rfl fun e rest he => ⟨rest, he⟩
  | finish => exact hrenews.congr rfl rfl rfl fun e rest he => ⟨rest, he⟩

/-- Only an edit changes the files. -/
theorem Running.Step.files {mayPoll : Snapshot → Snapshot → Prop}
    (hstep : Running.Step env h po watches mayFail mayPoll s s') :
    s'.world.fs = s.world.fs ∨ ∃ fs', s.world.fs.SameLinks fs' ∧ s.Noticed watches fs' ∧
      s' = { s with world := { s.world with fs := fs' } } := by
  cases hstep with
  | edit fs' hlinks hnoticed => exact .inr ⟨fs', hlinks, hnoticed, rfl⟩
  | observe => exact .inl serve_fs
  | work => exact .inl serve_fs
  | _ => exact .inl rfl

/-- A file that an edit changes is renewed. -/
theorem Running.Step.renewed {events : List WatchEvent} (hinv : s.Inv env h fs)
    (hfollowed : Followed env h watches fs p) (hfile : s'.world.fs.fileAt p = some node)
    (hchanged : s'.world.fs.fileAt p ≠ s.world.fs.fileAt p)
    (hstep : Running.Step env h po watches mayFail (NoMoves env h) s s') :
    Renewed env h watches fs s' p events := by
  rcases hstep.files with hfs | ⟨fs', hlinks, hnoticed, rfl⟩
  · exact absurd (by rw [hfs]) hchanged
  · exact renewed_of_noticed hinv.links (hinv.links.trans hlinks) hfollowed hnoticed hfile hchanged

/-- As long as the file is there, it is renewed after each deletion. -/
theorem Running.Renews.step (hinv : s.Inv env h fs) (hfollowed : Followed env h watches fs p)
    (hrenews : (∃ node, s.world.fs.fileAt p = some node) → s.Renews env h watches fs p)
    (hstep : Running.Step env h po watches mayFail (NoMoves env h) s s') :
    (∃ node, s'.world.fs.fileAt p = some node) → s'.Renews env h watches fs p := by
  rintro ⟨node, hfile⟩
  by_cases hsame : s'.world.fs.fileAt p = s.world.fs.fileAt p
  · have hold : s.world.fs.fileAt p = some node := hsame ▸ hfile
    exact (hrenews ⟨node, hold⟩).step_of_same hinv hold hsame hstep
  · exact ⟨fun _ _ _ _ _ => hstep.renewed hinv hfollowed hfile hsame,
      fun _ _ _ _ => hstep.renewed hinv hfollowed hfile hsame⟩

/-- A pending path stays pending until its job is taken, as long as the file is as it was. -/
theorem Pending.step (hpending : Pending env h watches fs s p) (hinv : s.Inv env h fs)
    (hfile : s.world.fs.fileAt p = some node) (hsame : s'.world.fs.fileAt p = some node)
    (hstep : Running.Step env h po watches mayFail (NoMoves env h) s s') :
    Pending env h watches fs s' p ∨ s'.worker = some (p, indexIfChanged env p) := by
  rcases hpending with hqueue | ⟨e, rest, src, t, hhand, hnot, hsubmits⟩ | hrenewed
  · -- The path is queued.
    cases hstep with
    | observe => exact .inl (.inl (List.mem_append_left _ hqueue))
    | take hq =>
      rw [hq] at hqueue
      rcases List.mem_cons.mp hqueue with rfl | hqueue
      · exact .inr rfl
      · exact .inl (.inl hqueue)
    | _ => exact .inl (.inl hqueue)
  · -- The handler in hand will submit the path.
    cases hstep with
    | next hevents hnone =>
      rw [hnone] at hhand
      cases hhand
    | @observe e' c k hobserver =>
      obtain ⟨rfl, rfl⟩ : e' = e ∧ Prog.call c k = rest := by simpa [hobserver] using hhand
      obtain ⟨hc, hrest⟩ := hsubmits
      have hnext := hrest _ _ ⟨⟨s.world, hinv.links, rfl⟩, rfl⟩
      rcases hc with rfl | rfl
      · refine .inl (.inr (.inl ⟨e', _, src, _, rfl, fun hmem => ?_, hnext⟩))
        rcases List.mem_append.mp hmem with hmem | hmem
        · exact hnot hmem
        · cases (Event.mk.inj (List.mem_singleton.mp hmem)).1
      · exact .inl (.inl (List.mem_append_right _ (List.mem_singleton_self p)))
    | @observeFails e' c k hobserver hremote =>
      obtain ⟨rfl, rfl⟩ : e' = e ∧ Prog.call c k = rest := by simpa [hobserver] using hhand
      rcases hsubmits.1 with rfl | rfl <;> cases hremote
    | @handled e' r hobserver =>
      obtain ⟨rfl, rfl⟩ : e' = e ∧ Prog.ret r = rest := by simpa [hobserver] using hhand
      exact absurd hsubmits hnot
    | _ => exact .inl (.inr (.inl ⟨e, rest, src, t, hhand, hnot, hsubmits⟩))
  · -- The path is renewed.
    cases hstep with
    | edit fs' hlinks =>
      exact .inl (.inr (.inr
        (hrenewed.edit hinv.links (hinv.links.trans hlinks) (hsame.trans hfile.symm))))
    | poll new hwatch hnew hmoves =>
      exact .inl (.inr (.inr (hrenewed.poll hinv.links hnew hmoves hfile)))
    | @next e rest hevents hobserver =>
      rcases hrenewed with ⟨e', he', x, hrenews, hindexable, hx⟩ | hchanged
      · rw [hevents] at he'
        rcases List.mem_cons.mp he' with rfl | he'
        · exact .inl (.inr (.inl ⟨e', _, x, [], rfl, List.not_mem_nil,
            submits_dispatch hrenews hindexable hx⟩))
        · exact .inl (.inr (.inr (.inl ⟨e', he', x, hrenews, hindexable, hx⟩)))
      · exact .inl (.inr (.inr (.inr hchanged)))
    | observe => exact .inl (.inr (.inr (hrenewed.congr rfl serve_fs)))
    | work => exact .inl (.inr (.inr (hrenewed.congr rfl serve_fs)))
    | _ => exact .inl (.inr (.inr (hrenewed.congr rfl rfl)))

/-- What names resolve to does not depend on the files. -/
theorem Pending.sameLinks (hlinks : fs.SameLinks fs') (hpending : Pending env h watches fs' s p) :
    Pending env h watches fs s p := by
  have hsame : (fun w : World => fs'.SameLinks w.fs) = fun w : World => fs.SameLinks w.fs :=
    funext fun w => propext ⟨hlinks.trans, hlinks.symm.trans⟩
  unfold Pending Renewed at hpending ⊢
  simpa only [hsame, hlinks.normalize] using hpending

theorem Followed.sameLinks (hlinks : fs.SameLinks fs') (hfollowed : Followed env h watches fs p) :
    Followed env h watches fs' p := by
  unfold Followed at hfollowed ⊢
  simpa only [hlinks.normalize] using hfollowed

theorem Followed.normalize (hfollowed : Followed env h watches fs p) : fs.normalize p = some p := by
  obtain ⟨watch, -, x, -, -, hx⟩ := hfollowed
  exact fs.normalize_of_real (fs.real_of_normalize hx)

end LocalRag
