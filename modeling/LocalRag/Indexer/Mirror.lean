-- SUMMARY: When the handled events keep the index a mirror of the files: changes delivered as events, with the worker drained in between.
import LocalRag.Indexer.CleanJob
import LocalRag.Indexer.Retry

/-!
# The index as a mirror

Every change of a watched file is delivered as events for its names. The handler of an
event submits the file or removes what is stored of it, and then the worker runs the
submitted jobs. Nothing is done for a renamed file.
-/

namespace LocalRag

open PyText PyPath Effects

/-! ## Handling events -/

/-- The jobs of the paths run one after the other, without failures. -/
inductive Drained (env : Env) : List PurePath → World → World → Prop where
  | done {w : World} : Drained env [] w w
  | job {p : PurePath} {rest : List PurePath} {w w₁ w₂ : World} {r : Except Exn IndexDecision}
    {t : List (Event Services)}
    (hrun : (indexIfChanged env p).Steps ((services env).answers fun _ _ => False) (w, []) (.ret r)
      (w₁, t))
    (hrest : Drained env rest w₁ w₂) : Drained env (p :: rest) w w₂

/-- The handlers of the events run one after the other, without failures, and each time the worker
drains the queue. -/
inductive Handled (env : Env) (h : WatchHandler) : List WatchEvent → World → World → Prop where
  | done {w : World} : Handled env h [] w w
  | event {e : WatchEvent} {rest : List WatchEvent} {w w₁ w₂ w₃ : World} {r : Except Exn Unit}
    {t : List (Event Services)}
    (hrun : (h.dispatch env e).Steps ((services env).answers fun _ _ => False) (w, []) (.ret r) (w₁, t))
    (hdrained : Drained env (submissions t) w₁ w₂) (hrest : Handled env h rest w₂ w₃) :
    Handled env h (e :: rest) w w₃

/-! ## Changes -/

inductive FileChange where
  | created (p : PurePath)
  | modified (p : PurePath)
  | deleted (p : PurePath)
  | moved (src dest : PurePath)

/-- The emitters list the file. -/
def Watched (watches : List Watch) (fs : FileSystem) (p : PurePath) : Prop :=
  ∃ watch ∈ watches, ∃ x, watch.Covers x ∧ fs.normalize x = some p

/-- There are events of the kind for all names of the file, and for no others. -/
structure Reported (watches : List Watch) (fs : FileSystem) (p : PurePath) (kind : EventKind)
    (events : List WatchEvent) : Prop where
  names : ∀ e ∈ events, e.isDirectory = false → e.kind = kind ∧ fs.normalize e.srcPath = some p ∧
    ∃ watch ∈ watches, watch.Covers e.srcPath
  complete : ∀ watch ∈ watches, ∀ x, watch.Covers x → fs.normalize x = some p →
    ∃ e ∈ events, e.isDirectory = false ∧ e.srcPath = x

namespace FileChange

def paths : FileChange → List PurePath
  | .created p | .modified p | .deleted p => [p]
  | .moved src dest => [src, dest]

/-- What the change does to its files. -/
def Applies (fs fs' : FileSystem) : FileChange → Prop
  | .created p => fs.fileAt p = none ∧ (fs'.fileAt p).isSome
  | .modified p => (fs.fileAt p).isSome ∧ (fs'.fileAt p).isSome
  | .deleted p => (fs.fileAt p).isSome ∧ fs'.fileAt p = none
  | .moved src dest => (fs.fileAt src).isSome ∧ fs'.fileAt src = none ∧
      fs'.fileAt dest = fs.fileAt src

/-- The events of the change. A file that is renamed inside the tree gets a single event. -/
def Delivered (watches : List Watch) (fs : FileSystem) (events : List WatchEvent) : FileChange → Prop
  | .created p => Reported watches fs p .created events
  | .modified p => Reported watches fs p .modified events
  | .deleted p => Reported watches fs p .deleted events
  | .moved src dest => Watched watches fs src ∧ Watched watches fs dest ∧
      ∃ e, events.filter (fun e => !e.isDirectory) = [e] ∧ e.kind = .moved ∧
        fs.normalize e.srcPath = some src

end FileChange

/-- A change of the files, handled. -/
inductive ChangeHandled (env : Env) (h : WatchHandler) (watches : List Watch)
    (allowed : FileChange → FileSystem → FileSystem → Prop) : World → World → Prop where
  | change {w w' : World} (fs : FileSystem) (change : FileChange) (events : List WatchEvent)
    (hlinks : w.fs.SameLinks fs) (happlies : change.Applies w.fs fs)
    (hothers : ∀ p, Watched watches w.fs p → p ∉ change.paths → fs.fileAt p = w.fs.fileAt p)
    (hallowed : allowed change w.fs fs) (hdelivered : change.Delivered watches w.fs events)
    (hmounts : ∀ e ∈ events, MountsFilled h e.srcPath fs)
    (hhandled : Handled env h events { w with fs } w') :
    ChangeHandled env h watches allowed w w'

/-- Each indexable file with chunkable content has its fingerprint and its points, and nothing else
is stored. -/
structure Mirrors (env : Env) (h : WatchHandler) (watches : List Watch) (w : World) : Prop where
  followed : ∀ p, Followed env h watches w.fs p → Stores env p w (chunkableContent env w.fs p)
  nothingElse : ∀ p, ¬ Followed env h watches w.fs p → Stores env p w none

/-- An index that mirrors the files mirrors them after each change that is handled. -/
def KeepsMirror (env : Env) (h : WatchHandler) (watches : List Watch)
    (allowed : FileChange → FileSystem → FileSystem → Prop) : Prop :=
  ∀ w w', w.Ready → w.UuidsDrawn → Mirrors env h watches w →
    Relation.ReflTransGen (ChangeHandled env h watches allowed) w w' → Mirrors env h watches w'

/-- Neither name of a renamed file has content to be indexed that was not there before, and a file
is not modified to another content of the same SHA-256. -/
def KeepsContent (env : Env) (h : WatchHandler) (watches : List Watch) :
    FileChange → FileSystem → FileSystem → Prop
  | .moved src dest, fs, fs' =>
    (Followed env h watches fs src → chunkableContent env fs src = none) ∧
    (Followed env h watches fs dest → chunkableContent env fs' dest = chunkableContent env fs dest)
  | .modified p, fs, fs' => ∀ bytes node, chunkableContent env fs p = some bytes →
      fs'.fileAt p = some node → env.sha256 bytes = env.sha256 node.bytes → bytes = node.bytes
  | _, _, _ => True

variable {env : Env} {h : WatchHandler} {watches : List Watch} {fs fs' : FileSystem} {p q : PurePath}
  {w w' : World} {e : WatchEvent} {events : List WatchEvent} {prev : Option Bytes} {node : FileNode}

/-! ## What is stored of one path -/

/-- Only what is stored of `p` has changed. -/
structure OnlyAt (p : PurePath) (w w' : World) : Prop extends Kept (· = p) w w' where
  points : ∀ q, q ≠ p → w'.pointsAt q = w.pointsAt q

theorem OnlyAt.refl (hready : w.Ready) (hdrawn : w.UuidsDrawn) : OnlyAt p w w :=
  ⟨.refl hready hdrawn, fun _ _ => rfl⟩

theorem OnlyAt.trans {w₁ w₂ : World} (h : OnlyAt p w w₁) (h' : OnlyAt p w₁ w₂) : OnlyAt p w w₂ :=
  ⟨h.toKept.trans h'.toKept, fun q hq => (h'.points q hq).trans (h.points q hq)⟩

theorem OnlyAt.stores (h : OnlyAt p w w') (hq : q ≠ p) (hs : Stores env q w prev) :
    Stores env q w' prev :=
  hs.congr (h.hashes q hq) (h.points q hq)

theorem Kept.onlyAt {P : PurePath → Prop} (h : Kept P w w') (hP : ∀ q, P q → q = p)
    (hpoints : ∀ q, q ≠ p → w'.pointsAt q = w.pointsAt q) : OnlyAt p w w' :=
  ⟨⟨h.fs, h.ready, h.drawn, fun q hq => h.hashes q fun hPq => hq (hP q hPq)⟩, hpoints⟩

theorem resolvesTo_eq {src : PurePath} (hsrc : fs.normalize src = some p) :
    ∀ q, ResolvesTo fs src q → q = p :=
  fun _ hq => Option.some_inj.mp (hq.symm.trans hsrc)

/-- The stored content is told from the content that is there. -/
def Distinguished (env : Env) (fs : FileSystem) (p : PurePath) (prev : Option Bytes) : Prop :=
  ∀ bytes node, prev = some bytes → fs.fileAt p = some node →
    env.sha256 bytes = env.sha256 node.bytes → prev = chunkableContent env fs p

/-! ## Jobs -/

/-- A job on a path without a file changes nothing. -/
theorem indexIfChanged_missing (hfile : w.fs.fileAt p = none) :
    wp ((services env).answers fun _ _ => False) (fun _ _ => True) (indexIfChanged env p)
      (fun _ s' => s'.1 = w) (w, []) := by
  unfold indexIfChanged
  refine wp_bind.mpr (wp_replies (c := .pathExists p) (a := w.fs.pathExists p) rfl rfl fun t₁ _ => ?_)
  dsimp only [onOk]
  split
  case isFalse => rfl
  unfold indexChanged sha256File
  refine wp_tryCatch.mpr (wp_bind.mpr (wp_bind.mpr (wp_call.mpr ⟨trivial, ?_, fun h => h.elim⟩)))
  simp only [serve, hfile, orRaise, onOk]
  rfl

/-- After the job the content that is there is stored, and nothing else has changed. -/
theorem job_updates {r : Except Exn IndexDecision} {s' : Traced} (hworks : env.EmbeddingWorks)
    (hready : w.Ready) (hdrawn : w.UuidsDrawn) (hreal : w.fs.Real p) (hs : Stores env p w prev)
    (hprev : Distinguished env w.fs p prev) (hnone : w.fs.fileAt p = none → prev = none)
    (hrun : (indexIfChanged env p).Steps ((services env).answers fun _ _ => False) (w, []) (.ret r) s') :
    OnlyAt p w s'.1 ∧ Stores env p s'.1 (chunkableContent env w.fs p) := by
  have hkept := kept_of_guarded ((confined_indexIfChanged p w).guarded (s := (w, [])) (.refl w.fs))
    hready hdrawn hrun
  have hself := resolvesTo_eq (w.fs.normalize_of_real hreal)
  cases hfile : w.fs.fileAt p with
  | none =>
    have hsame : s'.1 = w := wp_steps_post (indexIfChanged_missing hfile) hrun
    rw [hsame, chunkableContent_of_missing hfile]
    exact ⟨.refl hready hdrawn, hnone hfile ▸ hs⟩
  | some node =>
    have hdone := wp_steps_post (indexIfChanged_stores hworks hready hdrawn hreal hfile hs
      fun bytes hbytes hhash => hprev bytes node hbytes hfile hhash) hrun
    exact ⟨hkept.onlyAt hself hdone.2, hdone.1⟩

theorem Distinguished.chunkable : Distinguished env fs p (chunkableContent env fs p) :=
  fun _ _ _ _ _ => rfl

theorem Drained.updates {paths : List PurePath} (hdrained : Drained env paths w w')
    (hworks : env.EmbeddingWorks) (hready : w.Ready) (hdrawn : w.UuidsDrawn) (hreal : w.fs.Real p)
    (hpaths : ∀ q ∈ paths, q = p) (hs : Stores env p w (chunkableContent env w.fs p)) :
    OnlyAt p w w' ∧ Stores env p w' (chunkableContent env w.fs p) := by
  induction hdrained with
  | done => exact ⟨.refl hready hdrawn, hs⟩
  | @job q rest w w₁ w₂ r t hrun _ ih =>
    obtain rfl : q = p := hpaths q List.mem_cons_self
    obtain ⟨honly, hs₁⟩ := job_updates hworks hready hdrawn hreal hs .chunkable
      chunkableContent_of_missing hrun
    have hfs : w₁.fs = w.fs := honly.fs
    obtain ⟨honly', hs₂⟩ := ih honly.ready honly.drawn (hfs ▸ hreal)
      (fun p hp => hpaths p (List.mem_cons_of_mem _ hp)) (hfs ▸ hs₁)
    exact ⟨honly.trans honly', hfs ▸ hs₂⟩

/-! ## Events -/

/-- The event tells of the file that is there, or that there is none. -/
structure TellsOf (h : WatchHandler) (fs : FileSystem) (p : PurePath) (e : WatchEvent) : Prop where
  resolves : fs.normalize e.srcPath = some p
  kind : (e.kind = .created ∨ e.kind = .modified) ∧ (fs.fileAt p).isSome ∨
    e.kind = .deleted ∧ fs.fileAt p = none
  mounts : MountsFilled h e.srcPath fs

/-- The events that the handler acts upon. -/
def WatchHandler.actsOn (h : WatchHandler) (env : Env) (e : WatchEvent) : Bool :=
  !e.isDirectory && h.indexable env e.srcPath

theorem dispatch_idle (hidle : e.kind = .moved ∨ h.actsOn env e = false) :
    h.dispatch env e = pure () := by
  have hnot : h.actsOn env e = false → e.isDirectory = true ∨ h.indexable env e.srcPath = false := by
    intro hacts
    simpa [WatchHandler.actsOn, or_iff_not_imp_left] using hacts
  unfold WatchHandler.dispatch WatchHandler.onModified WatchHandler.onDeleted WatchHandler.onCreated
    WatchHandler.enqueue
  rcases hidle with hkind | hacts
  · rw [hkind]
  · rcases hnot hacts with hdir | hfiltered
    · cases e.kind <;> simp [hdir]
    · cases e.kind <;> simp [hfiltered]

theorem dispatch_submits (hkind : e.kind = .created ∨ e.kind = .modified)
    (hacts : h.actsOn env e = true) (hsrc : w.fs.normalize e.srcPath = some p) :
    wp ((services env).answers fun _ _ => False) (fun _ _ => True) (h.dispatch env e)
      (fun _ s' => s'.1 = w ∧ submissions s'.2 = [p]) (w, []) := by
  rw [WatchHandler.actsOn, Bool.and_eq_true, Bool.not_eq_true'] at hacts
  have hdispatch : h.dispatch env e = h.enqueue env e.srcPath := by
    unfold WatchHandler.dispatch WatchHandler.onModified WatchHandler.onCreated
    rcases hkind with hkind | hkind <;> simp [hkind, hacts.1]
  rw [hdispatch, WatchHandler.enqueue, if_pos hacts.2]
  refine wp_bind.mpr (wp_call.mpr ⟨trivial, ?_, fun h => h.elim⟩)
  simp only [serve, hsrc, orRaise, onOk]
  exact wp_call.mpr ⟨trivial, ⟨rfl, rfl⟩, fun h => h.elim⟩

theorem brokenMountFor_none {src : PurePath} {roots : List PurePath} {t : List (Event Services)}
    (hroots : ∀ root ∈ roots, src.isRelativeTo root = true → w.fs.iterdir root ≠ some []) :
    wp ((services env).answers fun _ _ => False) (fun _ _ => True)
      (WatchHandler.brokenMountFor src roots) (fun r s' => r = .ok none ∧ s'.1 = w) (w, t) := by
  induction roots generalizing t with
  | nil => exact ⟨rfl, rfl⟩
  | cons root rest ih =>
    have hrest : ∀ t, wp ((services env).answers fun _ _ => False) (fun _ _ => True)
        (WatchHandler.brokenMountFor src rest) (fun r s' => r = .ok none ∧ s'.1 = w) (w, t) :=
      fun _ => ih fun root hroot => hroots root (List.mem_cons_of_mem _ hroot)
    unfold WatchHandler.brokenMountFor
    split
    case isFalse => exact hrest t
    next hrelative =>
    refine wp_bind.mpr (wp_tryCatch.mpr (wp_bind.mpr (wp_call.mpr ⟨trivial, ?_, fun h => h.elim⟩)))
    cases hlist : w.fs.iterdir root with
    | none =>
      simp only [serve, hlist, orRaise, onOk]
      exact hrest _
    | some children =>
      have hfilled : children.isEmpty = false := by
        have hne := hroots root List.mem_cons_self hrelative
        rw [hlist, ne_eq, Option.some_inj] at hne
        simpa using hne
      simp only [serve, hlist, orRaise, onOk]
      change wp _ _ (if children.isEmpty = true then pure (some root)
        else WatchHandler.brokenMountFor src rest) _ _
      rw [if_neg (by simp [hfilled])]
      exact hrest _

theorem dispatch_removes (hkind : e.kind = .deleted) (hacts : h.actsOn env e = true)
    (hsrc : w.fs.normalize e.srcPath = some p) (hmounts : MountsFilled h e.srcPath w.fs)
    (htable : w.fingerprints.isSome) (hs : Stores env p w prev) :
    wp ((services env).answers fun _ _ => False) (fun _ _ => True) (h.dispatch env e)
      (fun _ s' => Stores env p s'.1 none ∧ ∀ q, q ≠ p → s'.1.pointsAt q = w.pointsAt q) (w, []) := by
  rw [WatchHandler.actsOn, Bool.and_eq_true, Bool.not_eq_true'] at hacts
  unfold WatchHandler.dispatch WatchHandler.onDeleted
  rw [hkind]
  dsimp only
  rw [if_neg (by simp [hacts])]
  refine wp_bind.mpr (wp_mono (brokenMountFor_none hmounts) ?_)
  rintro _ ⟨w', t⟩ ⟨rfl, rfl⟩
  dsimp only [onOk]
  refine wp_bind.mpr (wp_replies_normalizePath hsrc fun t₁ _ => wp_tryCatch.mpr ?_)
  refine wp_mono (removeIndexedDocument_clean htable (w'.fs.real_of_normalize hsrc) hs) ?_
  rintro r s' hdone
  cases r <;> exact hdone

theorem HandlerCall.confined {c : Call} (hc : HandlerCall env h fs e c) (w : World) :
    ConfinedTo (ResolvesTo fs e.srcPath) c w := by
  cases c with
  | delete f => exact hc.resolves
  | deleteHash q => exact hc.resolves
  | submit q => exact hc
  | _ => trivial

/-- After the event and the jobs the content that is there is stored, and nothing else has
changed. -/
theorem event_updates {r : Except Exn Unit} {w₁ w₂ : World} {t : List (Event Services)}
    (hworks : env.EmbeddingWorks) (hready : w.Ready) (hdrawn : w.UuidsDrawn)
    (htells : TellsOf h w.fs p e) (hacts : h.actsOn env e = true) (hs : Stores env p w prev)
    (hprev : Distinguished env w.fs p prev)
    (hrun : (h.dispatch env e).Steps ((services env).answers fun _ _ => False) (w, []) (.ret r) (w₁, t))
    (hdrained : Drained env (submissions t) w₁ w₂) :
    OnlyAt p w w₂ ∧ Stores env p w₂ (chunkableContent env w.fs p) := by
  have hreal := w.fs.real_of_normalize htells.resolves
  have hcalls : wp ((services env).answers fun _ _ => False) (fun c _ => HandlerCall env h w.fs e c)
      (h.dispatch env e) (fun _ _ => True) (w, []) :=
    wp_of_answersIn (fun w' hw => hw ▸ FileSystem.SameLinks.refl w.fs) (handlesEvent_dispatch e)
  rcases htells.kind with ⟨hkind, hfile⟩ | ⟨hkind, hmissing⟩
  · obtain ⟨hw₁, hsubmitted⟩ :=
      wp_steps_post (dispatch_submits hkind hacts htells.resolves) hrun
    obtain rfl : w₁ = w := hw₁
    rw [hsubmitted] at hdrained
    cases hdrained with
    | @job _ _ _ w₃ _ _ _ hjob hdone =>
    cases hdone
    exact job_updates hworks hready hdrawn hreal hs hprev
      (fun hnone => by rw [hnone] at hfile; cases hfile) hjob
  · have hkept := kept_of_guarded (wp_conseq hcalls (fun c s hc => hc.confined s.1) fun _ _ h => h)
      hready hdrawn hrun
    obtain ⟨hnone, hothers⟩ := wp_steps_post
      (dispatch_removes hkind hacts htells.resolves htells.mounts hready.table hs) hrun
    have honly : OnlyAt p w w₁ := hkept.onlyAt (resolvesTo_eq htells.resolves) hothers
    have hsubmitted : ∀ q ∈ submissions t, q = p := by
      intro q hq
      obtain ⟨e', he', hcall⟩ := exists_of_mem_submissions hq
      have hc := mem_trace_of_wp hcalls hrun e' he'
      rw [hcall] at hc
      exact resolvesTo_eq htells.resolves q hc
    have hfs : w₁.fs = w.fs := honly.fs
    have hs₁ : Stores env p w₁ (chunkableContent env w₁.fs p) := by
      rw [hfs, chunkableContent_of_missing hmissing]
      exact hnone
    obtain ⟨honly', hs₂⟩ := hdrained.updates hworks honly.ready honly.drawn (hfs ▸ hreal) hsubmitted hs₁
    exact ⟨honly.trans honly', hfs ▸ hs₂⟩

/-- After the events the content that is there is stored, if the handler acts upon one of them. -/
theorem Handled.updates (hhandled : Handled env h events w w') (hworks : env.EmbeddingWorks)
    (hready : w.Ready) (hdrawn : w.UuidsDrawn)
    (htells : ∀ e ∈ events, h.actsOn env e = true → TellsOf h w.fs p e) (hs : Stores env p w prev)
    (hprev : Distinguished env w.fs p prev) :
    OnlyAt p w w' ∧
      Stores env p w' (if events.any (h.actsOn env) then chunkableContent env w.fs p else prev) := by
  induction hhandled generalizing prev with
  | done => exact ⟨.refl hready hdrawn, hs⟩
  | @event e rest w w₁ w₂ w₃ r t hrun hdrained _ ih =>
    rw [List.any_cons]
    cases hacts : h.actsOn env e with
    | false =>
      rw [dispatch_idle (.inr hacts)] at hrun
      cases hrun
      cases hdrained
      exact ih hready hdrawn (fun e he => htells e (List.mem_cons_of_mem _ he)) hs hprev
    | true =>
      obtain ⟨honly, hs₂⟩ := event_updates hworks hready hdrawn (htells e List.mem_cons_self hacts)
        hacts hs hprev hrun hdrained
      have hfs : w₂.fs = w.fs := honly.fs
      obtain ⟨honly', hs₃⟩ := ih honly.ready honly.drawn
        (fun e he => hfs ▸ htells e (List.mem_cons_of_mem _ he)) hs₂ (hfs ▸ Distinguished.chunkable)
      refine ⟨honly.trans honly', ?_⟩
      rw [hfs] at hs₃
      simpa using hs₃

theorem Handled.idle (hhandled : Handled env h events w w')
    (hidle : ∀ e ∈ events, e.kind = .moved ∨ h.actsOn env e = false) : w' = w := by
  induction hhandled with
  | done => rfl
  | @event e rest w w₁ w₂ w₃ r t hrun hdrained _ ih =>
    rw [dispatch_idle (hidle e List.mem_cons_self)] at hrun
    cases hrun
    cases hdrained
    exact ih fun e he => hidle e (List.mem_cons_of_mem _ he)

/-! ## Changes -/

theorem chunkableContent_congr (hfile : fs'.fileAt p = fs.fileAt p) :
    chunkableContent env fs' p = chunkableContent env fs p := by
  rw [chunkableContent, hfile]
  rfl

theorem Watched.of_followed (hp : Followed env h watches fs p) : Watched watches fs p := by
  obtain ⟨watch, hwatch, x, hcovers, -, hx⟩ := hp
  exact ⟨watch, hwatch, x, hcovers, hx⟩

theorem followed_congr (hlinks : fs.SameLinks fs') :
    Followed env h watches fs' p ↔ Followed env h watches fs p :=
  ⟨fun hp => hp.sameLinks hlinks.symm, fun hp => hp.sameLinks hlinks⟩

/-- What the mirror says of one path. -/
def MirrorsAt (env : Env) (h : WatchHandler) (watches : List Watch) (w : World) (p : PurePath) : Prop :=
  (Followed env h watches w.fs p → Stores env p w (chunkableContent env w.fs p)) ∧
  (¬ Followed env h watches w.fs p → Stores env p w none)

theorem mirrors_iff : Mirrors env h watches w ↔ ∀ p, MirrorsAt env h watches w p :=
  ⟨fun hm p => ⟨hm.followed p, hm.nothingElse p⟩, fun hm => ⟨fun p => (hm p).1, fun p => (hm p).2⟩⟩

/-- A path stays mirrored if neither its file nor what is stored of it changes. -/
theorem MirrorsAt.congr (hm : MirrorsAt env h watches w p) (hlinks : w.fs.SameLinks w'.fs)
    (hcontent : Followed env h watches w.fs p →
      chunkableContent env w'.fs p = chunkableContent env w.fs p)
    (hstores : ∀ prev, Stores env p w prev → Stores env p w' prev) : MirrorsAt env h watches w' p := by
  rw [MirrorsAt, followed_congr hlinks]
  exact ⟨fun hp => hcontent hp ▸ hstores _ (hm.1 hp), fun hp => hstores _ (hm.2 hp)⟩

/-- Where the handler acts upon an event, a name of the file passes the filters. -/
theorem Reported.followed {kind : EventKind} (hreported : Reported watches fs p kind events)
    (hacts : events.any (h.actsOn env) = true) : Followed env h watches fs p := by
  obtain ⟨e, he, hacts⟩ := List.any_eq_true.mp hacts
  rw [WatchHandler.actsOn, Bool.and_eq_true, Bool.not_eq_true'] at hacts
  obtain ⟨-, hx, watch, hwatch, hcovers⟩ := hreported.names e he hacts.1
  exact ⟨watch, hwatch, e.srcPath, hcovers, hacts.2, hx⟩

theorem Reported.acts {kind : EventKind} (hreported : Reported watches fs p kind events)
    (hfollowed : Followed env h watches fs p) : events.any (h.actsOn env) = true := by
  obtain ⟨watch, hwatch, x, hcovers, hindexable, hx⟩ := hfollowed
  obtain ⟨e, he, hfile, rfl⟩ := hreported.complete watch hwatch x hcovers hx
  exact List.any_eq_true.mpr ⟨e, he, by simp [WatchHandler.actsOn, hfile, hindexable]⟩

/-- The events for a change of one file restore the mirror. -/
theorem Reported.mirrors {kind : EventKind} (hreported : Reported watches w.fs p kind events)
    (hworks : env.EmbeddingWorks) (hready : w.Ready) (hdrawn : w.UuidsDrawn)
    (hm : Mirrors env h watches w) (hlinks : w.fs.SameLinks fs)
    (hothers : ∀ q, Watched watches w.fs q → q ≠ p → fs.fileAt q = w.fs.fileAt q)
    (hkind : (kind = .created ∨ kind = .modified) ∧ (fs.fileAt p).isSome ∨
      kind = .deleted ∧ fs.fileAt p = none)
    (hprev : Distinguished env fs p (chunkableContent env w.fs p))
    (hmounts : ∀ e ∈ events, MountsFilled h e.srcPath fs)
    (hhandled : Handled env h events { w with fs } w') :
    Mirrors env h watches w' ∧ w'.Ready ∧ w'.UuidsDrawn := by
  have hready₁ : World.Ready { w with fs } := ⟨hready.table, hready.layout, hready.ensured⟩
  have htells : ∀ e ∈ events, h.actsOn env e = true → TellsOf h fs p e := by
    intro e he hacts
    rw [WatchHandler.actsOn, Bool.and_eq_true, Bool.not_eq_true'] at hacts
    obtain ⟨hkind', hx, -⟩ := hreported.names e he hacts.1
    exact ⟨(hlinks.normalize _).trans hx, hkind' ▸ hkind, hmounts e he⟩
  have hupdates : ∀ prev, Stores env p w prev → Distinguished env fs p prev → OnlyAt p { w with fs } w' ∧
      Stores env p w' (if events.any (h.actsOn env) then chunkableContent env fs p else prev) :=
    fun prev hs hprev => hhandled.updates hworks hready₁ hdrawn htells (hs.congr rfl rfl) hprev
  have hat : OnlyAt p { w with fs } w' ∧ MirrorsAt env h watches w' p := by
    by_cases hfollowed : Followed env h watches w.fs p
    · obtain ⟨honly, hs⟩ := hupdates _ (hm.followed p hfollowed) hprev
      rw [hreported.acts hfollowed, if_pos rfl] at hs
      refine ⟨honly, ?_, fun hnot => absurd ?_ hnot⟩
      · rw [honly.fs]
        exact fun _ => hs
      · rw [honly.fs]
        exact (followed_congr hlinks).mpr hfollowed
    · obtain ⟨honly, hs⟩ := hupdates none (hm.nothingElse p hfollowed) fun _ _ h => by cases h
      rw [if_neg fun hacts => hfollowed (hreported.followed hacts)] at hs
      refine ⟨honly, fun hyes => absurd ?_ hfollowed, fun _ => hs⟩
      rw [honly.fs] at hyes
      exact (followed_congr hlinks).mp hyes
  obtain ⟨honly, hp⟩ := hat
  have hfs : w'.fs = fs := honly.fs
  refine ⟨mirrors_iff.mpr fun q => ?_, honly.ready, honly.drawn⟩
  by_cases hq : q = p
  · exact hq ▸ hp
  · refine (mirrors_iff.mp hm q).congr (hfs ▸ hlinks) (fun hfollowed => ?_) fun prev hs => ?_
    · rw [hfs]
      exact chunkableContent_congr (hothers q (.of_followed hfollowed) hq)
    · exact honly.stores hq (hs.congr rfl rfl)

theorem ChangeHandled.mirrors
    (hstep : ChangeHandled env h watches (KeepsContent env h watches) w w')
    (hworks : env.EmbeddingWorks) (hready : w.Ready) (hdrawn : w.UuidsDrawn)
    (hm : Mirrors env h watches w) : Mirrors env h watches w' ∧ w'.Ready ∧ w'.UuidsDrawn := by
  obtain ⟨fs, change, events, hlinks, happlies, hothers, hallowed, hdelivered, hmounts, hhandled⟩ := hstep
  have hone : ∀ {p}, change.paths = [p] → ∀ q, Watched watches w.fs q → q ≠ p →
      fs.fileAt q = w.fs.fileAt q :=
    fun hpaths q hq hne => hothers q hq (by simpa [hpaths] using hne)
  cases change with
  | created p =>
    refine Reported.mirrors hdelivered hworks hready hdrawn hm hlinks (hone rfl)
      (.inl ⟨.inl rfl, happlies.2⟩) (fun bytes node hbytes _ _ => ?_) hmounts hhandled
    rw [chunkableContent_of_missing happlies.1] at hbytes
    cases hbytes
  | modified p =>
    refine Reported.mirrors hdelivered hworks hready hdrawn hm hlinks (hone rfl)
      (.inl ⟨.inr rfl, happlies.2⟩) (fun bytes node hbytes hnode hhash => ?_) hmounts hhandled
    obtain rfl := hallowed bytes node hbytes hnode hhash
    obtain ⟨node', -, -, hsize, hchunks⟩ := exists_file_of_chunkable hbytes
    rw [hbytes, chunkableContent, hnode]
    exact (if_pos ⟨hsize, hchunks⟩).symm
  | deleted p =>
    refine Reported.mirrors hdelivered hworks hready hdrawn hm hlinks (hone rfl)
      (.inr ⟨rfl, happlies.2⟩) (fun bytes node _ hnode _ => ?_) hmounts hhandled
    rw [happlies.2] at hnode
    cases hnode
  | moved src dest =>
    obtain ⟨-, -, e, hevents, hkind, -⟩ := hdelivered
    have hidle : ∀ e' ∈ events, e'.kind = .moved ∨ h.actsOn env e' = false := by
      intro e' he'
      cases hdir : e'.isDirectory with
      | true => exact .inr (by simp [WatchHandler.actsOn, hdir])
      | false =>
        have hmem : e' ∈ events.filter (fun e => !e.isDirectory) :=
          List.mem_filter.mpr ⟨he', by simp [hdir]⟩
        rw [hevents] at hmem
        exact .inl (List.mem_singleton.mp hmem ▸ hkind)
    obtain rfl := hhandled.idle hidle
    refine ⟨mirrors_iff.mpr fun q => (mirrors_iff.mp hm q).congr hlinks (fun hfollowed => ?_)
      fun prev hs => hs.congr rfl rfl, ⟨hready.table, hready.layout, hready.ensured⟩, hdrawn⟩
    by_cases hsrc : q = src
    · obtain rfl := hsrc
      rw [hallowed.1 hfollowed]
      exact chunkableContent_of_missing happlies.2.1
    by_cases hdest : q = dest
    · obtain rfl := hdest
      exact hallowed.2 hfollowed
    · exact chunkableContent_congr (hothers q (.of_followed hfollowed) (by
        simp [FileChange.paths, hsrc, hdest]))

/-- The index stays a mirror of the files, as long as no renamed file is to be indexed under its old
name, or otherwise than before under its new one. -/
theorem handled_events_keep_mirror (env : Env) (h : WatchHandler) (watches : List Watch)
    (hworks : env.EmbeddingWorks) : KeepsMirror env h watches (KeepsContent env h watches) := by
  intro w w' hready hdrawn hm hsteps
  have hall : Mirrors env h watches w' ∧ w'.Ready ∧ w'.UuidsDrawn := by
    induction hsteps with
    | refl => exact ⟨hm, hready, hdrawn⟩
    | tail _ hstep ih => exact hstep.mirrors hworks ih.2.1 ih.2.2 ih.1
  exact hall.1

/-- The watched directory, with nothing in it. -/
def emptyWorld : World := World.sample [] [["w".toList]]

/-- A file appears in it. -/
def createdFs : FileSystem := emptyWorld.fs.write samplePath.names ⟨[104, 105], 1, 1⟩

/-- The new name of the file. -/
def renamedPath : PurePath := PurePath.parse "/w/b.txt".toList

/-- The file is renamed. -/
def renamedFs : FileSystem :=
  (createdFs.remove samplePath.names).write renamedPath.names ⟨[104, 105], 1, 1⟩

def sampleEvent (kind : EventKind) : WatchEvent := { srcPath := samplePath, kind }

/-- The world after the job of the created file. -/
def afterCreated : World :=
  ((indexIfChanged Env.sample samplePath).run (services Env.sample) (fun _ _ => False) []
    ({ emptyWorld with fs := createdFs }, [])).2.1

theorem emptyWorld_real (x : PurePath) (hx : sampleWatch.Covers x) : emptyWorld.fs.Real x := by
  obtain ⟨dirs, name, rfl, hdots, -⟩ := hx
  refine ⟨rfl, ?_, fun _ _ => AList.lookup_empty _⟩
  change dotdot ∉ "w".toList :: (dirs ++ [name])
  exact fun hmem => (List.mem_cons.mp hmem).elim (by decide) hdots

theorem emptyWorld_mirrors : Mirrors Env.sample sampleHandler [sampleWatch] emptyWorld := by
  have hnothing : ∀ p, Stores Env.sample p emptyWorld none := fun p => ⟨rfl, rfl⟩
  refine ⟨fun p hp => ?_, fun p _ => hnothing p⟩
  obtain ⟨watch, hwatch, x, hcovers, -, hx⟩ := hp
  have hreal := emptyWorld.fs.real_of_normalize hx
  have hnone : emptyWorld.fs.fileAt p = none := by
    rw [FileSystem.fileAt_of_real hreal]
    exact AList.lookup_empty _
  rw [chunkableContent_of_missing hnone]
  exact hnothing p

/-- A created file is handled by running its job. -/
theorem handled_created (hacts : h.actsOn env e = true) (hkind : e.kind = .created)
    (hsrc : w.fs.normalize e.srcPath = some p) :
    Handled env h [e] w
      ((indexIfChanged env p).run (services env) (fun _ _ => False) [] (w, [])).2.1 := by
  have hrun := Prog.run_steps (services env) (fun _ _ => False) (h.dispatch env e) [] (w, [])
  obtain ⟨hw, hsubmitted⟩ := wp_steps_post (dispatch_submits (.inl hkind) hacts hsrc) hrun
  refine .event hrun ?_ .done
  rw [hsubmitted, hw]
  exact .job (Prog.run_steps (services env) (fun _ _ => False) (indexIfChanged env p) [] (w, [])) .done

theorem reported_samplePath {kind : EventKind} :
    Reported [sampleWatch] emptyWorld.fs samplePath kind [sampleEvent kind] := by
  refine ⟨fun e he _ => ?_, fun watch hwatch x hcovers hx => ?_⟩
  · obtain rfl := List.mem_singleton.mp he
    exact ⟨rfl, emptyWorld.fs.normalize_of_real (emptyWorld_real _ sampleWatch_covers), sampleWatch,
      List.mem_singleton_self _, sampleWatch_covers⟩
  · obtain rfl := List.mem_singleton.mp hwatch
    rw [FileSystem.normalize_of_real (emptyWorld_real x hcovers), Option.some_inj] at hx
    exact ⟨_, List.mem_singleton_self _, rfl, hx.symm⟩

/-- The created file is handled. -/
theorem created_handled (allowed : FileChange → FileSystem → FileSystem → Prop)
    (hallowed : allowed (.created samplePath) emptyWorld.fs createdFs) :
    ChangeHandled Env.sample sampleHandler [sampleWatch] allowed emptyWorld afterCreated := by
  have hreal : emptyWorld.fs.Real samplePath := emptyWorld_real _ sampleWatch_covers
  have hnormal : createdFs.normalize samplePath = some samplePath :=
    createdFs.normalize_of_real (FileSystem.sameLinks_write.real.mpr hreal)
  have hhandled : Handled Env.sample sampleHandler [sampleEvent .created]
      { emptyWorld with fs := createdFs } afterCreated := by
    unfold afterCreated
    exact handled_created (by decide) rfl hnormal
  refine .change createdFs (.created samplePath) [sampleEvent .created] FileSystem.sameLinks_write
    ⟨rfl, rfl⟩ (fun p hp hother => ?_) hallowed reported_samplePath (fun _ _ => nofun) hhandled
  obtain ⟨watch, hwatch, x, hcovers, hx⟩ := hp
  have hp := emptyWorld.fs.real_of_normalize hx
  exact FileSystem.fileAt_write_of_ne hp fun hnames =>
    hother (List.mem_singleton.mpr (hp.eq_of_names hreal hnames))

theorem afterCreated_fs : afterCreated.fs = createdFs :=
  steps_fs (Prog.run_steps (services Env.sample) (fun _ _ => False)
    (indexIfChanged Env.sample samplePath) [] ({ emptyWorld with fs := createdFs }, []))

theorem watched_of_covers {x : PurePath} (hlinks : emptyWorld.fs.SameLinks fs)
    (hcovers : sampleWatch.Covers x) : Watched [sampleWatch] fs x :=
  ⟨_, List.mem_singleton_self _, x, hcovers,
    fs.normalize_of_real (hlinks.real.mpr (emptyWorld_real x hcovers))⟩

theorem followed_samplePath (hlinks : emptyWorld.fs.SameLinks fs) :
    Followed Env.sample sampleHandler [sampleWatch] fs samplePath :=
  ⟨_, List.mem_singleton_self _, samplePath, sampleWatch_covers, by decide,
    fs.normalize_of_real (hlinks.real.mpr (emptyWorld_real _ sampleWatch_covers))⟩

theorem handled_events_keep_mirror_sample :
    Stores Env.sample samplePath afterCreated (some [104, 105]) := by
  have hm := handled_events_keep_mirror Env.sample sampleHandler [sampleWatch] sample_embeddingWorks
    emptyWorld afterCreated ⟨rfl, nofun, nofun⟩ (fun _ => nofun) emptyWorld_mirrors
    (.single (created_handled _ trivial))
  have hcontent : chunkableContent Env.sample createdFs samplePath = some [104, 105] := by
    decide +kernel
  have hstored := hm.followed samplePath
  rw [afterCreated_fs, hcontent] at hstored
  exact hstored (followed_samplePath FileSystem.sameLinks_write)

theorem createdFs_links : emptyWorld.fs.SameLinks createdFs := FileSystem.sameLinks_write

theorem renamedFs_links : createdFs.SameLinks renamedFs :=
  FileSystem.sameLinks_remove.trans FileSystem.sameLinks_write

theorem renamedPath_covers : sampleWatch.Covers renamedPath :=
  ⟨[], "b.txt".toList, by decide, by decide, nofun⟩

/-- The event of the rename changes nothing. -/
theorem renamed_handled (hfs : w.fs = createdFs) :
    ChangeHandled Env.sample sampleHandler [sampleWatch] (fun _ _ _ => True) w
      { w with fs := renamedFs } := by
  have hreal : ∀ {x}, sampleWatch.Covers x → createdFs.Real x :=
    fun hx => createdFs_links.real.mpr (emptyWorld_real _ hx)
  have happlies : (FileChange.moved samplePath renamedPath).Applies createdFs renamedFs :=
    ⟨by decide +kernel, by decide +kernel, by decide +kernel⟩
  refine .change renamedFs (.moved samplePath renamedPath) [sampleEvent .moved]
    (hfs ▸ renamedFs_links) (hfs ▸ happlies) (fun p hp hother => ?_) trivial ?_
    (fun _ _ => nofun) (.event .refl .done .done)
  · rw [hfs] at hp ⊢
    obtain ⟨watch, hwatch, x, hcovers, hx⟩ := hp
    have hp := createdFs.real_of_normalize hx
    have hne : p ≠ samplePath ∧ p ≠ renamedPath := by simpa [FileChange.paths] using hother
    rw [renamedFs, FileSystem.fileAt_write_of_ne (FileSystem.sameLinks_remove.real.mpr hp)
      fun hnames => hne.2 (hp.eq_of_names (hreal renamedPath_covers) hnames)]
    exact FileSystem.fileAt_remove_of_ne hp
      fun hnames => hne.1 (hp.eq_of_names (hreal sampleWatch_covers) hnames)
  · rw [hfs]
    exact ⟨watched_of_covers createdFs_links sampleWatch_covers,
      watched_of_covers createdFs_links renamedPath_covers, sampleEvent .moved, rfl, rfl,
      createdFs.normalize_of_real (hreal sampleWatch_covers)⟩

theorem not_mirrors_renamed {hash : Text} (hhash : w.hashAt samplePath = some hash) :
    ¬ Mirrors Env.sample sampleHandler [sampleWatch] { w with fs := renamedFs } := by
  intro hm
  have hgone : chunkableContent Env.sample renamedFs samplePath = none := by decide +kernel
  have hstored := hm.followed samplePath (followed_samplePath (createdFs_links.trans renamedFs_links))
  rw [show World.fs { w with fs := renamedFs } = renamedFs from rfl, hgone] at hstored
  have hnone : w.hashAt samplePath = none := hstored.1
  rw [hhash] at hnone
  cases hnone

/-- After a rename the index keeps the old name. -/
theorem rename_breaks_mirror :
    ¬ KeepsMirror Env.sample sampleHandler [sampleWatch] (fun _ _ _ => True) := by
  intro hkeeps
  have hhash : afterCreated.hashAt samplePath = some (Env.sample.sha256 [104, 105]) := by
    decide +kernel
  have hrun := (Relation.ReflTransGen.single (created_handled _ trivial)).tail
    (renamed_handled afterCreated_fs)
  exact not_mirrors_renamed hhash
    (hkeeps emptyWorld _ ⟨rfl, nofun, nofun⟩ (fun _ => nofun) emptyWorld_mirrors hrun)

end LocalRag
