-- SUMMARY: When the startup leaves no gap: every change falls where the cleanup, the scan, the queue or a poll catches it.
import LocalRag.Indexer.Mirror
import LocalRag.Indexer.StartupCalls

/-!
# Gaps of the startup

Between the listing of a directory by the scan and the baseline of the observer
nothing looks at it: a file that is created there belongs to the baseline and is never
submitted, and one that is deleted there is in no snapshot. If every change is caught
by the cleanup, the scan, the queue or a later poll, the index is in step with the
files once everything is handled.
-/

namespace LocalRag

open PyText PyPath Effects

variable {env : Env} {h : WatchHandler} {po : DeletionObserver} {watches : List Watch}
  {fs fs' : FileSystem} {p q x : PurePath} {w : World} {c : Call} {node : FileNode}
  {pair : WatchEntry × PurePath} {pairs : List (WatchEntry × PurePath)}

/-! ## Changed links -/

theorem answersIn_mono {mayFail : Call → Prop} {V V' : World → Prop} (hV : ∀ w, V w → V' w) (c : Call)
    (u : Unit) (o : Except Exn (Services.Reply c)) (u' : Unit) (ha : answersIn env mayFail V c u o u') :
    answersIn env mayFail V' c u o u' :=
  ha.imp_left fun ⟨w, hw, ho⟩ => ⟨w, hV w hw, ho⟩

theorem WillSubmit.sameLinks {rest : App (List Watch)} (hlinks : fs.SameLinks fs')
    (hwill : WillSubmit env fs' pair x p rest) : WillSubmit env fs pair x p rest :=
  wpUntil_answers (answersIn_mono fun _ hw => ⟨hlinks.symm.trans hw.1, hw.2⟩) hwill

theorem WillRemove.sameLinks {rest : App ℕ} (hlinks : fs.SameLinks fs')
    (hwill : WillRemove env fs' p rest) : WillRemove env fs p rest :=
  wpUntil_answers (answersIn_mono fun _ hw => ⟨hlinks.symm.trans hw.1, hw.2⟩) hwill

theorem Erases.sameLinks {e : WatchEvent} (hlinks : fs.SameLinks fs') (herases : Erases env h fs' e p) :
    Erases env h fs e p :=
  ⟨herases.kind, herases.file, herases.indexable, (hlinks.normalize _).symm.trans herases.resolves⟩

section Threads

variable {s s' : Running}

theorem Running.Forgotten.sameLinks (hlinks : fs.SameLinks fs') (hforgotten : s.Forgotten env fs' p) :
    s.Forgotten env fs p :=
  ⟨hforgotten.hash, fun rest hrest => (hforgotten.job rest hrest).sameLinks hlinks⟩

theorem Running.Removing.sameLinks (hlinks : fs.SameLinks fs')
    (hremoving : s.Removing env h watches fs' p) : s.Removing env h watches fs p := by
  rcases hremoving with ⟨watch, hwatch, x, hindexable, hx, hseen⟩ | ⟨e, he, herases⟩ |
    ⟨e, rest, hhand, herases, huntil⟩
  · exact .inl ⟨watch, hwatch, x, hindexable, (hlinks.normalize x).symm.trans hx, hseen⟩
  · exact .inr (.inl ⟨e, he, herases.sameLinks hlinks⟩)
  · refine .inr (.inr ⟨e, rest, hhand, herases.sameLinks hlinks, wpUntil_answers ?_ huntil⟩)
    rintro c u o u' ⟨⟨w, hw, ho⟩, hdelete⟩
    exact ⟨⟨w, ⟨hlinks.symm.trans hw.1, hw.2⟩, ho⟩, hdelete⟩

/-! ## What the threads keep -/

/-- A missing path that is forgotten stays so: no job stores its fingerprint. -/
theorem Running.Forgotten.step {mayPoll : Snapshot → Snapshot → Prop} (hinv : s.Inv env h fs)
    (hmissing : s.world.fs.pathExists p = false) (hforgotten : s.Forgotten env fs p)
    (hstep : Running.Step env h po.toPollingObserver watches (fun _ => False) mayPoll s s') :
    s'.Forgotten env fs p := by
  obtain ⟨hhash, hjob⟩ := hforgotten
  cases hstep with
  | edit => exact ⟨hhash, hjob⟩
  | poll => exact ⟨hhash, hjob⟩
  | next => exact ⟨hhash, hjob⟩
  | observe hobserver =>
    have hc := (hinv.handler _ _ hobserver).1
    exact ⟨hashAt_serve_none hc.storesHash hhash, hjob⟩
  | observeFails => exact ⟨hhash, hjob⟩
  | handled => exact ⟨hhash, hjob⟩
  | @take q rest hqueue hworker =>
    refine ⟨hhash, ?_⟩
    rintro _ ⟨⟩
    exact .taken rfl
  | @work q c k hworker =>
    by_cases hq : q = p
    · subst hq
      obtain ⟨hstores, hrest⟩ := (hjob _ hworker).next ⟨hinv.links, hmissing⟩
      refine ⟨hashAt_serve_none hstores hhash, ?_⟩
      rintro _ ⟨⟩
      exact hrest
    · obtain ⟨hself, hconfined, -⟩ := hinv.job q _ hworker
      refine ⟨?_, ?_⟩
      · rw [serve_hashAt (hconfined.1.setsHash fun hp => ?_)]
        · exact hhash
        · exact hq (Option.some_inj.mp (hself.symm.trans hp))
      · rintro _ ⟨⟩
        exact absurd rfl hq
  | workFails _ _ hfail => exact hfail.elim
  | finish => exact ⟨hhash, fun _ hrest => by cases hrest⟩

end Threads

variable {s s' : Startup}

theorem statAt_of_missing (hx : fs.normalize x = some p) (hmissing : fs.pathExists p = false) :
    statAt fs x = none := by
  have hfile : fs.fileAt p = none := by
    simpa [FileSystem.isFile] using (Bool.or_eq_false_iff.mp hmissing).1
  rw [statAt, hx, Option.bind_some, hfile, Option.map_none]

/-- A poll reports a path that is missing and recorded. -/
theorem Startup.removing_poll {watch : Watch} {new : Snapshot} (hlinks : fs.SameLinks s.world.fs)
    (hmissing : s.world.fs.pathExists p = false) (hremoving : s.Removing env h watches fs p)
    (hnew : ∀ x st, new.lookup x = some st ↔ watch.Covers x ∧ statAt s.world.fs x = some st)
    (hpoll : MovesNothing env h (s.snapshots watch) new) :
    Running.Removing env h watches fs p { s.toRunning with
      snapshots := Function.update s.snapshots watch new
      events := s.events ++ po.events (s.snapshots watch) new } := by
  rcases hremoving with ⟨watch', hwatch', x, hindexable, hx, hseen⟩ | ⟨e, he, herases⟩ | hhand
  · by_cases hsame : watch' = watch
    · subst hsame
      obtain ⟨st, hst⟩ := Option.ne_none_iff_exists'.mp hseen
      have hgone : new.lookup x = none := by
        refine Option.eq_none_iff_forall_ne_some.mpr fun st₁ hst₁ => ?_
        have hstat := ((hnew x st₁).mp hst₁).2
        rw [statAt_of_missing ((hlinks.normalize x).trans hx) hmissing] at hstat
        cases hstat
      obtain ⟨e, he, hkind, hfile, rfl⟩ :=
        po.deletes _ _ x st hst hgone (hpoll.gone x st hindexable hst hgone)
      exact .inr (.inl ⟨e, List.mem_append_right _ he, hkind, hfile, hindexable, hx⟩)
    · refine .inl ⟨watch', hwatch', x, hindexable, hx, ?_⟩
      dsimp only
      rwa [Function.update_of_ne hsame]
  · exact .inr (.inl ⟨e, List.mem_append_left _ he, herases⟩)
  · exact .inr (.inr hhand)

/-- A call of a handler forgets the path, or the handler is still to forget it. -/
theorem Startup.removing_observe {e : WatchEvent} {c : Call}
    {k : Except Exn (Services.Reply c) → App Unit} (hinv : s.toRunning.Inv env h fs)
    (hmounts : MountsUp h s.world.fs) (hmissing : s.world.fs.pathExists p = false)
    (hremoving : s.Removing env h watches fs p) (hobserver : s.observer = some (e, .call c k))
    (hallowed : s.RemovesLast env c) (hstep : s' = { s with
      world := (serve env c s.world).2
      queue := s.queue ++ c.submitted
      observer := some (e, k (serve env c s.world).1) }) :
    s'.Forgotten env fs p ∨ s'.Removing env h watches fs p := by
  subst hstep
  rcases hremoving with hseen | hevent | ⟨e', rest', hhand, herases, huntil⟩
  · exact .inr (.inl hseen)
  · exact .inr (.inr (.inl hevent))
  obtain ⟨rfl, rfl⟩ : e' = e ∧ rest' = Prog.call c k := by simpa [hobserver] using hhand.symm
  have hc := (hinv.handler _ _ hobserver).1
  have hself : ∀ {r}, Erases env h fs e' r → r = p := fun herases' =>
    Option.some_inj.mp (herases'.resolves.symm.trans herases.resolves)
  rcases huntil with rfl | hrest
  · refine .inl ⟨hashAt_serve_delete, fun job hjob => ?_⟩
    exact (hallowed hmissing job hjob).sameLinks hinv.links
  by_cases hrefused : ∃ f, c = .delete f ∧ (serve env c s.world).1.toBool = false
  · obtain ⟨f, rfl, hreply⟩ := hrefused
    have hf : f.filepath = p := hself hc
    have hforgotten := hallowed (hf ▸ hmissing) (collection_of_delete_refused hreply)
    rw [hf] at hforgotten
    have hforgotten := hforgotten.sameLinks hinv.links
    exact .inl ⟨hashAt_serve_none rfl hforgotten.hash, hforgotten.job⟩
  · refine .inr (.inr (.inr ⟨e', _, rfl, herases, hrest _ () ⟨⟨s.world, ⟨hinv.links, ?_⟩, rfl⟩, ?_⟩⟩))
    · exact fun root hroot _ => hmounts root hroot
    · rintro f rfl
      exact Bool.not_eq_false _ ▸ fun hreply => hrefused ⟨f, rfl, hreply⟩

/-- A deletion that was noticed is handled to its end, or what it removes is gone. -/
theorem Startup.removing_step (hinv : s.toRunning.Inv env h fs) (hmounts : MountsUp h s.world.fs)
    (hmain : s.main = .watching watches) (hmissing : s.world.fs.pathExists p = false)
    (hremoving : s.Removing env h watches fs p)
    (hstep : Startup.Step env h po pairs (Startup.Catches env h pairs) (Startup.RemovesLast env)
      (MovesNothing env h) s s') :
    s'.Forgotten env fs p ∨ s'.Removing env h watches fs p := by
  cases hstep with
  | edit => exact .inr hremoving
  | main hstep =>
    cases hstep with
    | clean hother => rw [hmain] at hother; cases hother
    | cleaned hother => rw [hmain] at hother; cases hother
    | scan hother => rw [hmain] at hother; cases hother
    | baseline _ hother => rw [hmain] at hother; cases hother
  | @poll watch new hwatch hnew hpoll =>
    exact .inr (removing_poll hinv.links hmissing hremoving hnew hpoll)
  | @next e rest hevents hobserver =>
    refine .inr ?_
    rcases hremoving with hseen | ⟨e', he', herases⟩ | ⟨e', rest', hhand, -⟩
    · exact .inl hseen
    · rw [hevents] at he'
      rcases List.mem_cons.mp he' with rfl | he'
      · exact .inr (.inr ⟨e', _, rfl, herases, removes_dispatch herases⟩)
      · exact .inr (.inl ⟨e', he', herases⟩)
    · rw [hobserver] at hhand
      cases hhand
  | @observe e c k hobserver hallowed =>
    exact removing_observe hinv hmounts hmissing hremoving hobserver hallowed rfl
  | handled hobserver =>
    rcases hremoving with hseen | hevent | ⟨e', rest', hhand, -, huntil⟩
    · exact .inr (.inl hseen)
    · exact .inr (.inr (.inl hevent))
    · cases hobserver.symm.trans hhand
      exact huntil.elim
  | take => exact .inr hremoving
  | work => exact .inr hremoving
  | finish => exact .inr hremoving

/-! ## Invariants -/

/-- What `main` is about to call; before the baseline the observer is idle, and the worker too
before the scan. -/
def Startup.MainInv (env : Env) (fs : FileSystem) (s : Startup) : Prop :=
  match s.main with
  | .cleaning rest => Within env fs CleanupCall rest ∧ s.queue = [] ∧ s.worker = none ∧
      s.events = [] ∧ s.observer = none
  | .scanning rest => Within env fs (ScanCall fs) rest ∧ s.events = [] ∧ s.observer = none
  | .watching _ => True

/-- The file `p`, found by the name `x`, will be processed, or is up to date. -/
def Startup.Expects (env : Env) (h : WatchHandler) (fs : FileSystem) (pair : WatchEntry × PurePath)
    (x p : PurePath) (s : Startup) : Prop :=
  match s.main with
  | .cleaning _ => True
  | .scanning rest => WillSubmit env fs pair x p rest ∨ s.Safe env h [] fs p
  | .watching watches => s.Renews env h watches fs p ∧ s.Safe env h watches fs p

structure Startup.Inv (env : Env) (h : WatchHandler) (pairs : List (WatchEntry × PurePath))
    (fs : FileSystem) (s : Startup) : Prop where
  running : s.toRunning.Inv env h fs
  mounts : MountsUp h s.world.fs
  main : s.MainInv env fs
  expects : ∀ pair ∈ pairs, ∀ x p node, FindsFile env h s.world.fs pair x p →
    ToIndex env s.world.fs p node → s.Expects env h fs pair x p
  forgets : ∀ p, isUnderAnyRoot p (pairs.map Prod.snd) = true → s.world.fs.pathExists p = false →
    s.Forgets env h fs p

theorem Startup.Forgets.sameLinks (hlinks : fs.SameLinks fs') (hforgets : s.Forgets env h fs' p) :
    s.Forgets env h fs p := by
  unfold Startup.Forgets at hforgets ⊢
  rcases hforgets with hforgotten | hmain
  · exact .inl (hforgotten.sameLinks hlinks)
  · refine .inr ?_
    split at hmain
    · exact WillRemove.sameLinks hlinks hmain
    · exact hmain
    · exact hmain.sameLinks hlinks

/-- What is forgotten does not depend on the files. -/
theorem Startup.Forgets.edit (hforgets : s.Forgets env h fs p) :
    Startup.Forgets env h fs p { s with world := { s.world with fs := fs' } } := by
  rcases hforgets with hforgotten | hmain
  · exact .inl ⟨hforgotten.hash, hforgotten.job⟩
  · exact .inr hmain

/-- Before the baseline there is nothing to renew. -/
theorem renews_of_idle {s : Running} (hevents : s.events = []) (hobserver : s.observer = none) :
    s.Renews env h watches fs p := by
  refine ⟨fun pre e post hsplit => ?_, fun e rest hhand => ?_⟩
  · rw [hevents] at hsplit
    simp at hsplit
  · rw [hobserver] at hhand
    cases hhand

/-! ### Steps beside main -/

theorem Startup.watches_of_watching (hmain : s.main = .watching watches) : s.watches = watches := by
  rw [Startup.watches, hmain]

theorem Startup.watches_of_scanning {rest : App (List Watch)} (hmain : s.main = .scanning rest) :
    s.watches = [] := by
  rw [Startup.watches, hmain]

/-- As long as the file stays as it is. -/
theorem Startup.Expects.step_of_same (hworks : env.EmbeddingWorks) (hinv : s.Inv env h pairs fs)
    (hself : fs.normalize p = some p) (hexpects : s.Expects env h fs pair x p)
    (hindex : ToIndex env s.world.fs p node)
    (hsame : s'.world.fs.fileAt p = s.world.fs.fileAt p) (hmain : s'.main = s.main)
    (hstep : Running.Step env h po.toPollingObserver s.watches (fun _ => False) (NoMoves env h)
      s.toRunning s'.toRunning) : s'.Expects env h fs pair x p := by
  unfold Startup.Expects at hexpects ⊢
  rw [hmain]
  have hinvMain := hinv.main
  unfold Startup.MainInv at hinvMain
  split at hexpects
  · trivial
  · next rest hphase =>
    rw [hphase] at hinvMain
    rw [Startup.watches_of_scanning hphase] at hstep
    refine hexpects.imp_right fun hsafe => ?_
    exact hsafe.step_of_same hworks hinv.running hself (renews_of_idle hinvMain.2.1 hinvMain.2.2) hindex
      hsame (fun hfail => hfail.elim) hstep
  · next watches hphase =>
    rw [Startup.watches_of_watching hphase] at hstep
    obtain ⟨hrenews, hsafe⟩ := hexpects
    exact ⟨hrenews.step_of_same hinv.running hindex.file hsame hstep,
      hsafe.step_of_same hworks hinv.running hself hrenews hindex hsame (fun hfail => hfail.elim) hstep⟩

/-- A change that is awaited is processed. -/
theorem Startup.Awaits.expects (hawaits : s.Awaits env pair x p fs') (hlinks : fs.SameLinks s.world.fs)
    (hindexable : h.indexable env x = true) (hx : fs.normalize x = some p) :
    Startup.Expects env h fs pair x p { s with world := { s.world with fs := fs' } } := by
  unfold Startup.Awaits at hawaits
  unfold Startup.Expects
  dsimp only
  cases hphase : s.main with
  | cleaning rest => trivial
  | scanning rest =>
    rw [hphase] at hawaits
    rcases hawaits with hqueue | hwill | ⟨job, hjob, hsucceeds⟩
    · exact .inr (.inl (.inl hqueue))
    · exact .inl (WillSubmit.sameLinks hlinks hwill)
    · exact .inr (.inr (.inl ⟨job, hjob, hsucceeds⟩))
  | watching watches =>
    rw [hphase] at hawaits
    obtain ⟨watch, hwatch, hcovers, hunseen⟩ := hawaits
    have hrenewed : ∀ events, Renewed env h watches fs
        { s.toRunning with world := { s.world with fs := fs' } } p events :=
      fun _ => .inr ⟨watch, hwatch, x, hcovers, hindexable, hx, hunseen⟩
    exact ⟨⟨fun _ _ _ _ _ => hrenewed _, fun _ _ _ _ => hrenewed _⟩, .inl (.inr (.inr (hrenewed _)))⟩

/-- Without emitters the observer stays idle, and so does the worker as long as nothing is queued. -/
theorem Running.Step.idle {s s' : Running} {mayPoll : Snapshot → Snapshot → Prop}
    (hevents : s.events = []) (hobserver : s.observer = none)
    (hstep : Running.Step env h po.toPollingObserver [] (fun _ => False) mayPoll s s') :
    (s'.events = [] ∧ s'.observer = none) ∧
      (s.queue = [] → s.worker = none → s'.queue = [] ∧ s'.worker = none) := by
  cases hstep with
  | edit => exact ⟨⟨hevents, hobserver⟩, fun hqueue hworker => ⟨hqueue, hworker⟩⟩
  | poll _ hwatch => cases hwatch
  | next hother =>
    rw [hevents] at hother
    cases hother
  | observe hother =>
    rw [hobserver] at hother
    cases hother
  | observeFails hother =>
    rw [hobserver] at hother
    cases hother
  | handled hother =>
    rw [hobserver] at hother
    cases hother
  | take hother =>
    refine ⟨⟨hevents, hobserver⟩, fun hqueue _ => ?_⟩
    rw [hqueue] at hother
    cases hother
  | work hother =>
    refine ⟨⟨hevents, hobserver⟩, fun _ hworker => ?_⟩
    rw [hworker] at hother
    cases hother
  | workFails _ _ hfail => exact hfail.elim
  | finish => exact ⟨⟨hevents, hobserver⟩, fun hqueue _ => ⟨hqueue, rfl⟩⟩

/-- What `main` is about to call does not change. -/
theorem Startup.MainInv.step (hinv : s.MainInv env fs) (hmain : s'.main = s.main)
    (hstep : Running.Step env h po.toPollingObserver s.watches (fun _ => False) (NoMoves env h)
      s.toRunning s'.toRunning) : s'.MainInv env fs := by
  unfold Startup.MainInv at hinv ⊢
  rw [hmain]
  split at hinv
  · next rest hphase =>
    obtain ⟨hcalls, hqueue, hworker, hevents, hobserver⟩ := hinv
    rw [Startup.watches, hphase] at hstep
    obtain ⟨hidle, hthread⟩ := hstep.idle hevents hobserver
    obtain ⟨hqueue', hworker'⟩ := hthread hqueue hworker
    exact ⟨hcalls, hqueue', hworker', hidle⟩
  · next rest hphase =>
    obtain ⟨hcalls, hevents, hobserver⟩ := hinv
    rw [Startup.watches, hphase] at hstep
    exact ⟨hcalls, (hstep.idle hevents hobserver).1⟩
  · trivial

theorem FindsFile.self (hlinks : fs.SameLinks fs') (hfinds : FindsFile env h fs' pair x p) :
    fs.normalize x = some p ∧ fs.normalize p = some p := by
  have hx := (hlinks.normalize x).symm.trans hfinds.resolves
  exact ⟨hx, fs.normalize_of_real (fs.real_of_normalize hx)⟩

/-- A step beside `main` keeps the invariant. -/
theorem Startup.Inv.thread (hworks : env.EmbeddingWorks) (hinv : s.Inv env h pairs fs)
    (hstep : Startup.Step env h po pairs (Startup.Catches env h pairs) (Startup.RemovesLast env)
      (MovesNothing env h) s s') (hmain : s'.main = s.main)
    (hthread : Running.Step env h po.toPollingObserver s.watches (fun _ => False) (NoMoves env h)
      s.toRunning s'.toRunning) (hfs : s'.world.fs = s.world.fs) : s'.Inv env h pairs fs := by
  refine ⟨hinv.running.step hthread, hfs ▸ hinv.mounts, hinv.main.step hmain hthread, ?_, ?_⟩
  · rw [hfs]
    intro pair hpair x p node hfinds hindex
    exact (hinv.expects pair hpair x p node hfinds hindex).step_of_same hworks hinv
      (hfinds.self hinv.running.links).2 hindex (by rw [hfs]) hmain hthread
  · rw [hfs]
    intro p hunder hmissing
    have hforgets := hinv.forgets p hunder hmissing
    unfold Startup.Forgets at hforgets ⊢
    rw [hmain]
    rcases hforgets with hforgotten | hother
    · exact .inl (hforgotten.step hinv.running hmissing hthread)
    split at hother
    · exact .inr hother
    · exact .inr hother
    · next watches hphase =>
      exact Startup.removing_step hinv.running hinv.mounts hphase hmissing hother hstep

/-- An edit that is caught keeps the invariant. -/
theorem Startup.Inv.edit (po : DeletionObserver) (hworks : env.EmbeddingWorks)
    (hinv : s.Inv env h pairs fs) (hlinks : s.world.fs.SameLinks fs') (hnoticed : s.Noticed s.watches fs')
    (hcatches : s.Catches env h pairs fs') :
    Startup.Inv env h pairs fs { s with world := { s.world with fs := fs' } } := by
  have hthread : Running.Step env h po.toPollingObserver s.watches (fun _ => False) (NoMoves env h)
      s.toRunning { s.toRunning with world := { s.world with fs := fs' } } := .edit fs' hlinks hnoticed
  have hlinks' := hinv.running.links
  refine ⟨hinv.running.step hthread, hcatches.mounts, hinv.main.step rfl hthread, ?_, ?_⟩
  · intro pair hpair x p node hfinds hindex
    obtain ⟨hx, hp⟩ := hfinds.self (hlinks'.trans hlinks)
    by_cases hold : FindsFile env h s.world.fs pair x p ∧ s.world.fs.fileAt p = some node
    · have hindex' : ToIndex env s.world.fs p node := ⟨hold.2, hindex.size, hindex.content⟩
      exact (hinv.expects pair hpair x p node hold.1 hindex').step_of_same hworks hinv hp hindex'
        (hindex.file.trans hold.2.symm) rfl hthread
    · exact (hcatches.changed pair hpair x p node hfinds hindex hold).expects hlinks' hfinds.indexable hx
  · intro p hunder hmissing
    cases hexists : s.world.fs.pathExists p with
    | true => exact ((hcatches.missing p hunder hmissing hexists).sameLinks hlinks').edit
    | false => exact (hinv.forgets p hunder hexists).edit

/-! ### Steps of main -/

theorem Startup.Inv.main_clean {k : Except Exn (Services.Reply c) → App ℕ} (hinv : s.Inv env h pairs fs)
    (hphase : s.main = .cleaning (.call c k)) :
    Startup.Inv env h pairs fs
      { s with
        world := (serve env c s.world).2
        main := .cleaning (k (serve env c s.world).1) } := by
  obtain ⟨hcalls, hqueue, hworker, hevents, hobserver⟩ :
      Within env fs CleanupCall (.call c k) ∧ s.queue = [] ∧ s.worker = none ∧ s.events = [] ∧
        s.observer = none := by
    have hmain := hinv.main
    rwa [Startup.MainInv, hphase] at hmain
  have hfs : (serve env c s.world).2.fs = s.world.fs := serve_fs
  have hlinks := hinv.running.links
  refine ⟨⟨hfs.symm ▸ hlinks, (serve_ready hcalls.1.keepsReady hinv.running.ready).1,
    hinv.running.resolved, hinv.running.seen, ?_, hinv.running.handler⟩, hfs.symm ▸ hinv.mounts,
    ⟨hcalls.2 _ _ (.inl ⟨s.world, hlinks, rfl⟩), hqueue, hworker, hevents, hobserver⟩,
    fun _ _ _ _ _ _ _ => trivial, fun p hunder hmissing => ?_⟩
  · intro p rest hjob
    rw [hworker] at hjob
    cases hjob
  have hmissing : s.world.fs.pathExists p = false := hfs ▸ hmissing
  -- Nothing is in hand, so a path without a fingerprint is forgotten.
  have hforgotten : (serve env c s.world).2.hashAt p = none → Startup.Forgets env h fs p
      { s with
        world := (serve env c s.world).2
        main := .cleaning (k (serve env c s.world).1) } := by
    intro hhash
    refine .inl ⟨hhash, fun rest hjob => ?_⟩
    rw [hworker] at hjob
    cases hjob
  have hforgets := hinv.forgets p hunder hmissing
  unfold Startup.Forgets at hforgets
  rw [hphase] at hforgets
  rcases hforgets with hold | rfl | hrest
  · exact hforgotten (hashAt_serve_none hcalls.1.storesHash hold.hash)
  · exact hforgotten hashAt_serve_delete
  · by_cases htracks : s.world.Tracks p
    · exact .inr (hrest _ () (.inl ⟨s.world, ⟨hlinks, hmissing, htracks⟩, rfl⟩))
    · have hhash : s.world.hashAt p = none := by simpa [World.Tracks] using htracks
      exact hforgotten (hashAt_serve_none hcalls.1.storesHash hhash)

theorem Startup.Inv.main_cleaned {removed : ℕ} (hinv : s.Inv env h pairs fs)
    (hphase : s.main = .cleaning (.ret (.ok removed))) :
    Startup.Inv env h pairs fs { s with main := .scanning (scanAndSchedule h env pairs) } := by
  have hmain := hinv.main
  rw [Startup.MainInv, hphase] at hmain
  obtain ⟨-, -, -, hevents, hobserver⟩ := hmain
  refine ⟨hinv.running, hinv.mounts, ⟨within_scanAndSchedule pairs, hevents, hobserver⟩, ?_, ?_⟩
  · intro pair hpair x p node hfinds _
    exact .inl (willSubmit_scanAndSchedule hpair hfinds.indexable (hfinds.self hinv.running.links).1)
  · intro p hunder hmissing
    have hforgets := hinv.forgets p hunder hmissing
    unfold Startup.Forgets at hforgets
    rw [hphase] at hforgets
    rcases hforgets with hforgotten | ⟨e, herror⟩
    · exact .inl hforgotten
    · cases herror

/-- Once main scans, what is missing is forgotten. -/
theorem Startup.Inv.forgotten_of_scanning {prog : App (List Watch)} (hinv : s.Inv env h pairs fs)
    (hphase : s.main = .scanning prog) (hunder : isUnderAnyRoot p (pairs.map Prod.snd) = true)
    (hmissing : s.world.fs.pathExists p = false) : s.toRunning.Forgotten env fs p := by
  have hforgets := hinv.forgets p hunder hmissing
  unfold Startup.Forgets at hforgets
  rw [hphase] at hforgets
  exact hforgets.resolve_right id

theorem Startup.Inv.main_scan {k : Except Exn (Services.Reply c) → App (List Watch)}
    (hinv : s.Inv env h pairs fs) (hphase : s.main = .scanning (.call c k)) :
    Startup.Inv env h pairs fs
      { s with
        world := (serve env c s.world).2
        queue := s.queue ++ c.submitted
        main := .scanning (k (serve env c s.world).1) } := by
  obtain ⟨hcalls, hidle⟩ : Within env fs (ScanCall fs) (.call c k) ∧ s.events = [] ∧ s.observer = none := by
    have hmain := hinv.main
    rwa [Startup.MainInv, hphase] at hmain
  have hlinks := hinv.running.links
  have hworld : (serve env c s.world).2 = s.world := serve_looks hcalls.1.looks _
  rw [hworld]
  refine ⟨⟨hlinks, hinv.running.ready, ?_, hinv.running.seen, hinv.running.job, hinv.running.handler⟩,
    hinv.mounts, ⟨hcalls.2 _ _ (.inl ⟨s.world, hlinks, rfl⟩), hidle⟩, ?_, ?_⟩
  · intro p hp
    rcases List.mem_append.mp hp with hp | hp
    · exact hinv.running.resolved p hp
    · cases c with
      | submit q =>
        obtain rfl := List.mem_singleton.mp hp
        exact hcalls.1
      | _ => cases hp
  · intro pair hpair x p node hfinds hindex
    have hexpects := hinv.expects pair hpair x p node hfinds hindex
    unfold Startup.Expects at hexpects
    rw [hphase] at hexpects
    rcases hexpects with (rfl | hrest) | (hqueue | hhand | hrenewed) | hsafe
    · exact .inr (.inl (.inl (List.mem_append_right _ (List.mem_singleton_self p))))
    · exact .inl (hrest _ () (.inl ⟨s.world, ⟨hlinks, hfinds.finds, hfinds.isFile⟩, rfl⟩))
    · exact .inr (.inl (.inl (List.mem_append_left _ hqueue)))
    · exact .inr (.inl (.inr (.inl hhand)))
    · exact .inr (.inl (.inr (.inr hrenewed)))
    · exact .inr (.inr hsafe)
  · intro p hunder hmissing
    have hforgotten := hinv.forgotten_of_scanning hphase hunder hmissing
    exact .inl ⟨hforgotten.hash, hforgotten.job⟩

theorem Startup.Inv.main_baseline {snapshots : Watch → Snapshot} (hinv : s.Inv env h pairs fs)
    (hphase : s.main = .scanning (.ret (.ok watches)))
    (hsnapshots : ∀ watch x st, (snapshots watch).lookup x = some st ↔
      watch ∈ watches ∧ watch.Covers x ∧ statAt s.world.fs x = some st) :
    Startup.Inv env h pairs fs { s with snapshots, main := .watching watches } := by
  have hmain := hinv.main
  rw [Startup.MainInv, hphase] at hmain
  obtain ⟨-, hevents, hobserver⟩ := hmain
  refine ⟨⟨hinv.running.links, hinv.running.ready, hinv.running.resolved, ?_, hinv.running.job,
    hinv.running.handler⟩, hinv.mounts, trivial, ?_, ?_⟩
  · intro watch x st hst
    exact ((hsnapshots watch x st).mp hst).2.1
  · intro pair hpair x p node hfinds hindex
    have hexpects := hinv.expects pair hpair x p node hfinds hindex
    unfold Startup.Expects at hexpects
    rw [hphase] at hexpects
    refine ⟨renews_of_idle hevents hobserver, ?_⟩
    rcases hexpects with ⟨e, herror⟩ | (hqueue | ⟨e, rest, src, t, hhand, -⟩ | hrenewed) | hsafe
    · cases herror
    · exact .inl (.inl hqueue)
    · rw [hobserver] at hhand
      cases hhand
    · rcases hrenewed with ⟨e, he, -⟩ | ⟨watch, hwatch, -⟩
      · rw [hevents] at he
        cases he
      · cases hwatch
    · exact .inr hsafe
  · intro p hunder hmissing
    have hforgotten := hinv.forgotten_of_scanning hphase hunder hmissing
    exact .inl ⟨hforgotten.hash, hforgotten.job⟩

theorem Startup.Inv.step (hworks : env.EmbeddingWorks) (hinv : s.Inv env h pairs fs)
    (hstep : Startup.Step env h po pairs (Startup.Catches env h pairs) (Startup.RemovesLast env)
      (MovesNothing env h) s s') : s'.Inv env h pairs fs := by
  have hwhole := hstep
  cases hstep with
  | main hmain =>
    cases hmain with
    | clean hphase => exact hinv.main_clean hphase
    | cleaned hphase => exact hinv.main_cleaned hphase
    | scan hphase => exact hinv.main_scan hphase
    | baseline snapshots hphase hsnapshots => exact hinv.main_baseline hphase hsnapshots
  | edit fs' hlinks hnoticed hcatches => exact hinv.edit po hworks hlinks hnoticed hcatches
  | poll new hwatch hnew hpoll =>
    exact hinv.thread hworks hwhole rfl (.poll new hwatch hnew hpoll.there) rfl
  | next hevents hobserver => exact hinv.thread hworks hwhole rfl (.next hevents hobserver) rfl
  | observe hobserver => exact hinv.thread hworks hwhole rfl (.observe hobserver) serve_fs
  | handled hobserver => exact hinv.thread hworks hwhole rfl (.handled hobserver) rfl
  | take hqueue hworker => exact hinv.thread hworks hwhole rfl (.take hqueue hworker) rfl
  | work hworker => exact hinv.thread hworks hwhole rfl (.work hworker) serve_fs
  | finish hworker => exact hinv.thread hworks hwhole rfl (.finish hworker) rfl

/-! ## Runs -/

theorem Startup.Start.inv (hstart : s.Start pairs) (hintact : s.StartsIntact h) :
    s.Inv env h pairs s.world.fs := by
  have hrunning : s.toRunning.Inv env h s.world.fs := by
    refine ⟨.refl _, hstart.ready, fun p hp => ?_, fun watch x st hst => ?_, fun p rest hjob => ?_,
      fun e rest hhand => ?_⟩
    · rw [hstart.queue] at hp
      cases hp
    · rw [hstart.snapshots watch] at hst
      cases hst
    · rw [hstart.worker] at hjob
      cases hjob
    · rw [hstart.observer] at hhand
      cases hhand
  refine ⟨hrunning, hintact.mounts, ?_, fun pair hpair x p node _ _ => ?_, fun p hunder hmissing => ?_⟩
  · rw [Startup.MainInv, hstart.main]
    exact ⟨within_cleanupStale _, hstart.queue, hstart.worker, hstart.events, hstart.observer⟩
  · rw [Startup.Expects, hstart.main]
    trivial
  · rw [Startup.Forgets, hstart.main]
    by_cases htracks : s.world.Tracks p
    · exact .inr (willRemove_cleanupStale (hintact.real p htracks) hunder)
    · refine .inl ⟨by simpa [World.Tracks] using htracks, fun rest hjob => ?_⟩
      rw [hstart.worker] at hjob
      cases hjob

namespace PollingObserver

end PollingObserver

namespace Startup

variable {mayEdit : Startup → FileSystem → Prop} {mayObserve : Startup → Call → Prop}
  {mayPoll : Snapshot → Snapshot → Prop}

abbrev Run (env : Env) (h : WatchHandler) (po : DeletionObserver)
    (pairs : List (WatchEntry × PurePath)) (mayEdit : Startup → FileSystem → Prop)
    (mayObserve : Startup → Call → Prop) (mayPoll : Snapshot → Snapshot → Prop) :
    Startup → Startup → Prop :=
  Relation.ReflTransGen (Step env h po pairs mayEdit mayObserve mayPoll)

/-- The directories that `main` has scheduled, once it is about to start the observer. -/
def scheduled (s : Startup) : Option (List Watch) :=
  match s.main with
  | .scanning (.ret (.ok watches)) => some watches
  | _ => none

theorem run_iterate {step : Startup → Startup}
    (hstep : ∀ s, Run env h po pairs mayEdit mayObserve mayPoll s (step s)) (n : ℕ) (s : Startup) :
    Run env h po pairs mayEdit mayObserve mayPoll s (step^[n] s) :=
  rel_iterate (fun _ => .refl) .trans hstep n s

end Startup

def samplePair : WatchEntry × PurePath :=
  ({ path := PurePath.parse "/w".toList }, PurePath.parse "/w".toList)

/-- `main` starts the observer, which sees the sample file. -/
def baselined (s : Startup) : Startup :=
  { s with
    snapshots := Function.update (fun _ => ∅) sampleWatch sampleSnapshot
    main := .watching [sampleWatch] }

theorem quiet_baselined (hfs : s.world.fs = (sampleWorld [104, 105]).fs) (hqueue : s.queue = [])
    (hworker : s.worker.isNone = true) (hevents : s.events.isEmpty = true)
    (hobserver : s.observer.isNone = true) : (baselined s).Quiet [sampleWatch] := by
  refine quiet_of_seen hfs ?_ hqueue hworker hevents hobserver
  simp only [baselined, Function.update_self]

/-- If the index is in step, the sample file has its fingerprint. -/
theorem InStep.sample (hfs : w.fs = (sampleWorld [104, 105]).fs)
    (hinStep : InStep Env.sample sampleHandler [samplePair] w) :
    w.hashAt samplePath = some (Env.sample.sha256 [104, 105]) := by
  have hlisted : ((sampleWorld [104, 105]).fs.globAll samplePair.2).contains samplePath = true := by
    decide +kernel
  have hfinds : FindsFile Env.sample sampleHandler w.fs samplePair samplePath samplePath := by
    rw [hfs]
    exact ⟨List.contains_iff_mem.mp hlisted, by decide +kernel, by decide +kernel,
      FileSystem.normalize_of_real (sampleWorld_real _)⟩
  have hfile : w.fs.fileAt samplePath = some ⟨[104, 105], 1, 1⟩ := by
    rw [hfs]
    exact fileAt_sample
  exact hinStep.upToDate samplePair (List.mem_singleton_self _) samplePath samplePath hfinds _ hfile
    (by decide) (by decide)

/-- Nothing is left to do but the baseline. -/
structure Startup.Settled (s : Startup) : Prop where
  scheduled : s.scheduled = some [sampleWatch]
  queue : s.queue = []
  worker : s.worker.isNone = true
  events : s.events.isEmpty = true
  observer : s.observer.isNone = true

theorem Startup.Settled.quiet (hsettled : s.Settled) (hfs : s.world.fs = (sampleWorld [104, 105]).fs) :
    (baselined s).Quiet [sampleWatch] :=
  quiet_baselined hfs hsettled.queue hsettled.worker hsettled.events hsettled.observer

/-- Now a file is created. -/
def Startup.created (s : Startup) : Startup := { s with world := { s.world with fs := createdFs } }

theorem Startup.Settled.created (hsettled : s.Settled) : s.created.Settled where
  scheduled := hsettled.scheduled
  queue := hsettled.queue
  worker := hsettled.worker
  events := hsettled.events
  observer := hsettled.observer

end LocalRag
