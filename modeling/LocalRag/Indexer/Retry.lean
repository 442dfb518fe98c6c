-- SUMMARY: When no update is lost: as long as each failure strikes a path that is pending again, every file ends with its fingerprint.
import LocalRag.Indexer.Pending
import LocalRag.Ingest.Reindexing

/-!
# Failures and updates

A job that fails leaves the fingerprint of its path as it was, and nothing submits the
path again. So an update survives a failure only if the path is pending once more.
-/

namespace LocalRag

open PyText PyPath Effects

variable {env : Env} {h : WatchHandler} {po : PollingObserver} {watches : List Watch}
  {fs : FileSystem} {p : PurePath} {w w₁ : World} {c : Call} {node : FileNode} {s s' : Running}
  {mayFail : Running → Prop} {mayPoll : Snapshot → Snapshot → Prop}

/-! ## The job in hand -/

/-- What is stored is up to date, and there is a file. -/
def Current (env : Env) (p : PurePath) (w : World) : Prop :=
  ∃ node, w.fs.fileAt p = some node ∧ w.hashAt p = some (env.sha256 node.bytes)

/-- What is left of the job brings the path up to date, if nothing fails from now on. -/
abbrev Succeeds (env : Env) (p : PurePath) (rest : App IndexDecision) (w : World) : Prop :=
  wp (Undisturbed env p) (fun _ _ => True) rest (fun _ => Current env p) w

theorem Rely.trans {w₂ : World} (hw : Rely p w w₁) (hw' : Rely p w₁ w₂) : Rely p w w₂ :=
  ⟨hw.links.trans hw'.links, hw'.file.trans hw.file, hw'.hash.trans hw.hash, hw'.table.trans hw.table,
    hw'.layout.trans hw.layout, hw'.ensured.trans hw.ensured⟩

theorem Rely.fileAt (hw : Rely p w w₁) (hreal : w.fs.Real p) : w₁.fs.fileAt p = w.fs.fileAt p := by
  rw [w.fs.fileAt_of_real hreal, w₁.fs.fileAt_of_real (hw.links.real.mpr hreal), hw.file]

theorem Current.rely (hcurrent : Current env p w) (hw : Rely p w w₁) (hreal : w.fs.Real p) :
    Current env p w₁ := by
  obtain ⟨node, hfile, hhash⟩ := hcurrent
  exact ⟨node, (hw.fileAt hreal).trans hfile, hw.hash.trans hhash⟩

theorem Succeeds.rely {rest : App IndexDecision} (hjob : Succeeds env p rest w) (hw : Rely p w w₁)
    (hreal : w.fs.Real p) : Succeeds env p rest w₁ := by
  cases rest with
  | ret r => exact Current.rely hjob hw hreal
  | call c k =>
    refine ⟨trivial, ?_⟩
    rintro o w' ⟨w₂, hw', ho, rfl⟩
    exact hjob.2 o _ ⟨w₂, hw.trans hw', ho, rfl⟩

theorem Succeeds.next {k : Except Exn (Services.Reply c) → App IndexDecision}
    (hjob : Succeeds env p (.call c k) w) :
    Succeeds env p (k (serve env c w).1) (serve env c w).2 :=
  hjob.2 _ _ ⟨w, .refl p w, rfl, rfl⟩

theorem succeeds_indexIfChanged {vectors : List (List ℚ)}
    (hindexable : Indexable env w.fs p node vectors) (hready : w.Ready) :
    Succeeds env p (indexIfChanged env p) w := by
  have hsees : Sees env p node vectors (w.hashAt p) w.collection.isSome w :=
    ⟨hindexable, rfl, rfl, hready⟩
  refine wp_mono (indexIfChanged_progress hsees) ?_
  rintro _ w' ⟨found, hsees'⟩
  exact ⟨node, hsees'.indexable.fileAt, hsees'.hash⟩

/-! ## Files to be indexed -/

theorem indexable_of_works (hworks : env.EmbeddingWorks) (hreal : fs.Real p)
    (hfile : fs.fileAt p = some node) (hsize : node.bytes.length ≤ Settings.maxFileSize)
    (hblank : strip (env.decode node.bytes) ≠ []) :
    ∃ vectors, Indexable env fs p node vectors := by
  obtain ⟨vectors, hembed⟩ := embedTexts_of_works hworks p (env.decode node.bytes)
  refine ⟨vectors, hreal, fs.fileAt_of_real hreal ▸ hfile, hsize, ?_, hembed⟩
  have hwritten : nw (env.decode node.bytes) ≠ [] := fun hnil => hblank (strip_eq_nil_iff.mpr hnil)
  obtain ⟨c, hc, hne⟩ := exists_chunk_of_nw_ne_nil env p hwritten
  have hmem : strip c ∈ documentChunks env p (env.decode node.bytes) := by
    refine List.mem_map_of_mem (List.mem_filter.mpr ⟨hc, ?_⟩)
    rw [decide_eq_true_eq]
    exact ⟨fun hnil => hne (by rw [hnil]; rfl), hne⟩
  exact List.ne_nil_of_mem hmem

/-! ## Steps -/

/-- The path is pending, or the job in hand brings it up to date, or it is up to date. -/
def Running.Safe (env : Env) (h : WatchHandler) (watches : List Watch) (fs : FileSystem)
    (p : PurePath) (s : Running) : Prop :=
  Pending env h watches fs s p ∨
  (∃ rest, s.worker = some (p, rest) ∧ Succeeds env p rest s.world) ∨
  (Current env p s.world ∧ ∀ rest, s.worker = some (p, rest) → ∃ r, rest = .ret r)

/-- A file that is to be indexed. -/
structure ToIndex (env : Env) (fs : FileSystem) (p : PurePath) (node : FileNode) : Prop where
  file : fs.fileAt p = some node
  size : node.bytes.length ≤ Settings.maxFileSize
  content : strip (env.decode node.bytes) ≠ []

/-- A step of the worker. -/
inductive WorkerStep (env : Env) (mayFail : Running → Prop) (s s' : Running) : Prop where
  | take {q : PurePath} (hworker : s.worker = none)
    (hworker' : s'.worker = some (q, indexIfChanged env q)) (hworld : s'.world = s.world)
  | work {q : PurePath} {c : Call} {k : Except Exn (Services.Reply c) → App IndexDecision}
    (hworker : s.worker = some (q, .call c k))
    (hworker' : s'.worker = some (q, k (serve env c s.world).1))
    (hworld : s'.world = (serve env c s.world).2)
  | workFails {q : PurePath} {c : Call} {k : Except Exn (Services.Reply c) → App IndexDecision}
    (hworker : s.worker = some (q, .call c k)) (hremote : c.remote = true)
    (hfail : mayFail s)
    (hworker' : s'.worker = some (q, k (.error (serviceFault c)))) (hworld : s'.world = s.world)
  | finish {q : PurePath} {r : Except Exn IndexDecision} (hworker : s.worker = some (q, .ret r))
    (hworker' : s'.worker = none) (hworld : s'.world = s.world)

/-- Any other step leaves alone what the worker sees of the file, or the file is renewed. -/
theorem Running.Step.beside (hinv : s.Inv env h fs) (hreal : s.world.fs.Real p)
    (hrenews : s.Renews env h watches fs p) (hsame : s'.world.fs.fileAt p = s.world.fs.fileAt p)
    (hstep : Running.Step env h po watches mayFail (NoMoves env h) s s') :
    (s'.worker = s.worker ∧ Rely p s.world s'.world) ∨ Pending env h watches fs s' p ∨
      WorkerStep env mayFail s s' := by
  cases hstep with
  | edit fs' hlinks =>
    refine .inl ⟨rfl, hlinks, ?_, rfl, rfl, rfl, rfl⟩
    rw [s.world.fs.fileAt_of_real hreal] at hsame
    exact (FileSystem.fileAt_of_real (hlinks.real.mpr hreal)).symm.trans hsame
  | poll => exact .inl ⟨rfl, .refl _ _⟩
  | next => exact .inl ⟨rfl, .refl _ _⟩
  | @observe e c k hobserver =>
    by_cases herases : Erases env h fs e p
    · exact .inr (.inl (.inr (.inr ((hrenews.inHand e _ hobserver herases).congr rfl serve_fs))))
    · exact .inl ⟨rfl, (hinv.handler _ _ hobserver).1.rely herases _⟩
  | observeFails => exact .inl ⟨rfl, .refl _ _⟩
  | handled => exact .inl ⟨rfl, .refl _ _⟩
  | take hqueue hworker => exact .inr (.inr (.take hworker rfl rfl))
  | work hworker => exact .inr (.inr (.work hworker rfl rfl))
  | workFails hworker hremote hfail => exact .inr (.inr (.workFails hworker hremote hfail rfl rfl))
  | finish hworker => exact .inr (.inr (.finish hworker rfl rfl))

theorem Running.Inv.indexable (hinv : s.Inv env h fs) (hworks : env.EmbeddingWorks)
    (hself : fs.normalize p = some p) (hindex : ToIndex env s.world.fs p node) :
    ∃ vectors, Indexable env s.world.fs p node vectors :=
  indexable_of_works hworks (hinv.links.real.mpr (fs.real_of_normalize hself)) hindex.file hindex.size
    hindex.content

theorem Pending.safe (hpending : Pending env h watches fs s p) (hworks : env.EmbeddingWorks)
    (hinv : s.Inv env h fs) (hself : fs.normalize p = some p) (hfile : s.world.fs.fileAt p = some node)
    (hindex : ToIndex env s'.world.fs p node)
    (hstep : Running.Step env h po watches mayFail (NoMoves env h) s s') :
    s'.Safe env h watches fs p := by
  rcases hpending.step hinv hfile hindex.file hstep with hpending | htaken
  · exact .inl hpending
  · have hinv' := hinv.step hstep
    obtain ⟨vectors, hindexable⟩ := hinv'.indexable hworks hself hindex
    exact .inr (.inl ⟨_, htaken, succeeds_indexIfChanged hindexable hinv'.ready⟩)

/-- A file is safe as long as it stays as it is. -/
theorem Running.Safe.step_of_same (hworks : env.EmbeddingWorks) (hinv : s.Inv env h fs)
    (hself : fs.normalize p = some p) (hrenews : s.Renews env h watches fs p)
    (hsafe : s.Safe env h watches fs p) (hindex : ToIndex env s.world.fs p node)
    (hsame : s'.world.fs.fileAt p = s.world.fs.fileAt p)
    (hfail : mayFail s → ∀ rest, s.worker = some (p, rest) →
      Pending env h watches fs s p ∨ UpToDate env s.world p)
    (hstep : Running.Step env h po watches mayFail (NoMoves env h) s s') :
    s'.Safe env h watches fs p := by
  have hreal : s.world.fs.Real p := hinv.links.real.mpr (fs.real_of_normalize hself)
  have hindex' : ToIndex env s'.world.fs p node := ⟨hsame.trans hindex.file, hindex.size, hindex.content⟩
  have hpend : ∀ hpending : Pending env h watches fs s p, s'.Safe env h watches fs p :=
    fun hpending => hpending.safe hworks hinv hself hindex.file hindex' hstep
  have hinv' := hinv.step hstep
  obtain ⟨vectors, hindexable⟩ := hinv'.indexable hworks hself hindex'
  rcases hsafe with
    hpending | ⟨rest, hjob, hsucceeds⟩ | ⟨hcurrent, hover⟩
  · exact hpend hpending
  · -- The job in hand brings the path up to date.
    rcases hstep.beside hinv hreal hrenews hsame with
      ⟨hworker, hrely⟩ | hpending | hworker
    · exact .inr (.inl ⟨rest, hworker.trans hjob, hsucceeds.rely hrely hreal⟩)
    · exact .inl hpending
    cases hworker with
    | take hworker =>
      rw [hworker] at hjob
      cases hjob
    | work hworker hworker' hworld =>
      cases hworker.symm.trans hjob
      refine .inr (.inl ⟨_, hworker', ?_⟩)
      rw [hworld]
      exact hsucceeds.next
    | workFails hworker hremote hmayFail hworker' hworld =>
      cases hworker.symm.trans hjob
      rcases hfail hmayFail _ hworker with hpending | hupToDate
      · exact hpend hpending
      · have hhash := hupToDate node hindex.file hindex.size hindex.content
        refine .inr (.inr ⟨⟨node, hindex'.file, hworld ▸ hhash⟩, ?_⟩)
        intro rest' hrest'
        cases hworker'.symm.trans hrest'
        exact Stops.over ((hinv.job p _ hworker).2.2.2 _ _ (.inr ⟨hremote, rfl, rfl⟩))
    | finish hworker hworker' hworld =>
      cases hworker.symm.trans hjob
      refine .inr (.inr ⟨?_, fun rest' hrest' => ?_⟩)
      · rw [hworld]
        exact hsucceeds
      · rw [hworker'] at hrest'
        cases hrest'
  · -- The path is up to date.
    rcases hstep.beside hinv hreal hrenews hsame with
      ⟨hworker, hrely⟩ | hpending | hworker
    · exact .inr (.inr ⟨hcurrent.rely hrely hreal, fun rest' hrest' =>
        hover rest' (hworker.symm.trans hrest')⟩)
    · exact .inl hpending
    cases hworker with
    | @take q hworker hworker' hworld =>
      by_cases hq : q = p
      · subst hq
        exact .inr (.inl ⟨_, hworker', succeeds_indexIfChanged hindexable hinv'.ready⟩)
      · refine .inr (.inr ⟨hworld ▸ hcurrent, fun rest' hrest' => ?_⟩)
        cases hworker'.symm.trans hrest'
        exact absurd rfl hq
    | @work q c k hworker hworker' hworld =>
      have hq : q ≠ p := by
        rintro rfl
        obtain ⟨r, hr⟩ := hover _ hworker
        cases hr
      obtain ⟨hqself, hconfined, -⟩ := hinv.job q _ hworker
      obtain ⟨node', hfile', hhash⟩ := hcurrent
      refine .inr (.inr ⟨⟨node', hsame.trans hfile', ?_⟩, fun rest' hrest' => ?_⟩)
      · rw [hworld, serve_hashAt (hconfined.1.setsHash fun hp => ?_)]
        · exact hhash
        · exact hq (Option.some_inj.mp (hqself.symm.trans hp))
      · cases hworker'.symm.trans hrest'
        exact absurd rfl hq
    | @workFails q c k hworker hremote hmayFail hworker' hworld =>
      refine .inr (.inr ⟨hworld ▸ hcurrent, fun rest' hrest' => ?_⟩)
      cases hworker'.symm.trans hrest'
      obtain ⟨r, hr⟩ := hover _ hworker
      cases hr
    | finish hworker hworker' hworld =>
      refine .inr (.inr ⟨hworld ▸ hcurrent, fun rest' hrest' => ?_⟩)
      rw [hworker'] at hrest'
      cases hrest'

theorem Running.Safe.step (hworks : env.EmbeddingWorks) (hinv : s.Inv env h fs)
    (hfollowed : Followed env h watches fs p)
    (hrenews : (∃ node, s.world.fs.fileAt p = some node) → s.Renews env h watches fs p)
    (hsafe : (∃ node, ToIndex env s.world.fs p node) → s.Safe env h watches fs p)
    (hstep : Running.Step env h po watches (Recovers env h watches) (NoMoves env h) s s') :
    (∃ node, ToIndex env s'.world.fs p node) → s'.Safe env h watches fs p := by
  rintro ⟨node, hindex⟩
  by_cases hsame : s'.world.fs.fileAt p = s.world.fs.fileAt p
  case neg => exact .inl (.inr (.inr (hstep.renewed hinv hfollowed hindex.file hsame)))
  have hold : ToIndex env s.world.fs p node := ⟨hsame ▸ hindex.file, hindex.size, hindex.content⟩
  refine (hsafe ⟨node, hold⟩).step_of_same hworks hinv hfollowed.normalize (hrenews ⟨node, hold.file⟩)
    hold hsame (fun hrecovers rest hworker => ?_) hstep
  rcases hrecovers p rest hworker (hfollowed.sameLinks hinv.links) with hpending | hupToDate
  · exact .inl (hpending.sameLinks hinv.links)
  · exact .inr hupToDate

/-! ## Runs -/

theorem Running.Start.inv (hstart : s.Start env h watches) : s.Inv env h s.world.fs := by
  refine ⟨.refl _, hstart.ready, hstart.resolved, hstart.seen, fun p rest hjob => ?_,
    fun e rest hhand => ?_⟩
  · rw [hstart.worker] at hjob
    cases hjob
  · rw [hstart.observer] at hhand
    cases hhand

theorem Running.Start.renews (hstart : s.Start env h watches) :
    s.Renews env h watches s.world.fs p := by
  refine ⟨fun pre e post hsplit => ?_, fun e rest hhand => ?_⟩
  · rw [hstart.events] at hsplit
    simp at hsplit
  · rw [hstart.observer] at hhand
    cases hhand

/-- The initial scan has submitted the file, or no emitter has seen it yet. -/
theorem Running.Start.safe (hstart : s.Start env h watches)
    (hfollowed : Followed env h watches s.world.fs p) (hindex : ToIndex env s.world.fs p node) :
    s.Safe env h watches s.world.fs p := by
  obtain ⟨watch, hwatch, x, hcovers, hindexable, hx⟩ := hfollowed
  by_cases hnone : (s.snapshots watch).lookup x = none
  · refine .inl (.inr (.inr (.inr ⟨watch, hwatch, x, hcovers, hindexable, hx, ?_⟩)))
    rw [hnone, statAt_eq (.refl _) hx hindex.file]
    exact nofun
  rcases hstart.scanned watch hwatch x p hnone hindexable hx with hqueue | hupToDate
  · exact .inl (.inl hqueue)
  · refine .inr (.inr ⟨⟨node, hindex.file, hupToDate node hindex.file hindex.size hindex.content⟩, ?_⟩)
    intro rest hjob
    rw [hstart.worker] at hjob
    cases hjob

theorem Running.Start.run {s₀ : Running} (hworks : env.EmbeddingWorks) (hstart : s₀.Start env h watches)
    (hfollowed : Followed env h watches s₀.world.fs p)
    (hrun : Relation.ReflTransGen
      (Running.Step env h po watches (Recovers env h watches) (NoMoves env h)) s₀ s) :
    s.Inv env h s₀.world.fs ∧
      ((∃ node, s.world.fs.fileAt p = some node) → s.Renews env h watches s₀.world.fs p) ∧
      ((∃ node, ToIndex env s.world.fs p node) → s.Safe env h watches s₀.world.fs p) := by
  induction hrun with
  | refl =>
    exact ⟨hstart.inv, fun _ => hstart.renews, fun ⟨_, hindex⟩ => hstart.safe hfollowed hindex⟩
  | tail _ hstep ih =>
    obtain ⟨hinv, hrenews, hsafe⟩ := ih
    exact ⟨hinv.step hstep, Running.Renews.step hinv hfollowed hrenews hstep,
      Running.Safe.step hworks hinv hfollowed hrenews hsafe hstep⟩

/-- In a quiet state a file that is safe is up to date. -/
theorem Running.Quiet.upToDate (hquiet : s.Quiet watches) (hsafe : s.Safe env h watches fs p) :
    UpToDate env s.world p := by
  intro node hfile _ _
  rcases hsafe with
    (hqueue | ⟨e, rest, src, t, hhand, -⟩ | hrenewed) | ⟨rest, hjob, -⟩ | ⟨⟨node', hfile', hhash⟩, -⟩
  · rw [hquiet.queue] at hqueue
    cases hqueue
  · rw [hquiet.observer] at hhand
    cases hhand
  · rcases hrenewed with ⟨e, he, -⟩ | ⟨watch, hwatch, x, hcovers, -, -, hchanged⟩
    · rw [hquiet.events] at he
      cases he
    · exact absurd (hquiet.delivered watch hwatch x hcovers) hchanged
  · rw [hquiet.worker] at hjob
    cases hjob
  · obtain rfl : node' = node := Option.some_inj.mp (hfile'.symm.trans hfile)
    exact hhash

/-- As long as a job fails only while its path is pending again or up to date, and no file is taken
for a moved one, no update is lost. -/
theorem watcher_loses_no_update (env : Env) (h : WatchHandler) (po : PollingObserver)
    (watches : List Watch) (hworks : env.EmbeddingWorks) :
    NoUpdateLost env h po watches (Recovers env h watches) (NoMoves env h) := by
  intro s₀ s hstart hrun hquiet p hfollowed node hfile hsize hcontent
  have hlinks : s₀.world.fs.SameLinks s.world.fs := by
    clear hquiet hfollowed hfile
    induction hrun with
    | refl => exact .refl _
    | tail _ hstep ih =>
      rcases hstep.files with hfs | ⟨fs', hlinks, -, rfl⟩
      · exact hfs ▸ ih
      · exact ih.trans hlinks
  obtain ⟨-, -, hsafe⟩ := hstart.run hworks (hfollowed.sameLinks hlinks.symm) hrun
  exact hquiet.upToDate (hsafe ⟨node, hfile, hsize, hcontent⟩) node hfile hsize hcontent

/-! ## Examples -/

namespace PollingObserver

/-- The events for the difference of two polls, deletions first. No file is taken for a moved one. -/
def differences (old new : Snapshot) : List WatchEvent :=
  ((old.keys.filter fun x => (new.lookup x).isNone).map fun x => { srcPath := x, kind := .deleted }) ++
  (new.keys.filter fun x => old.lookup x ≠ new.lookup x).map fun x =>
    { srcPath := x, kind := if (old.lookup x).isNone then .created else .modified }

theorem mem_differences {old new : Snapshot} {e : WatchEvent} (he : e ∈ differences old new) :
    (e.kind = .deleted ∧ old.lookup e.srcPath ≠ none ∧ new.lookup e.srcPath = none) ∨
      (e.kind ≠ .deleted ∧ old.lookup e.srcPath ≠ new.lookup e.srcPath) := by
  rcases List.mem_append.mp he with he | he
  · obtain ⟨x, hx, rfl⟩ := List.mem_map.mp he
    obtain ⟨hkey, hnone⟩ := List.mem_filter.mp hx
    exact .inl ⟨rfl, fun hold => AList.lookup_eq_none.mp hold hkey, Option.isNone_iff_eq_none.mp hnone⟩
  · obtain ⟨x, hx, rfl⟩ := List.mem_map.mp he
    refine .inr ⟨?_, of_decide_eq_true (List.mem_filter.mp hx).2⟩
    dsimp only
    split <;> exact nofun

def plain : PollingObserver where
  events := differences
  changed old new e he _ := by
    rcases mem_differences he with ⟨-, hold, hnew⟩ | ⟨-, hchanged⟩
    · exact hnew ▸ hold
    · exact hchanged
  renews old new x st hnew hold _ := by
    have hkey : x ∈ new.keys := AList.lookup_isSome.mp (hnew ▸ rfl)
    have hchanged : old.lookup x ≠ new.lookup x := hnew ▸ hold
    refine ⟨_, List.mem_append_right _ (List.mem_map_of_mem
      (List.mem_filter.mpr ⟨hkey, decide_eq_true hchanged⟩)), rfl, rfl, ?_⟩
    dsimp only
    split
    · exact .inl rfl
    · exact .inr rfl
  replaced old new pre e post st hevents hkind _ hnew _ := by
    have he : e ∈ differences old new := hevents ▸ List.mem_append_right _ List.mem_cons_self
    rcases mem_differences he with ⟨-, -, hnone⟩ | ⟨hother, -⟩
    · rw [hnone] at hnew
      cases hnew
    · exact absurd hkind hother

end PollingObserver

namespace Running

/-- The next step of the worker. -/
def workerStep (env : Env) (s : Running) : Running :=
  match s.worker, s.queue with
  | some (p, .call c k), _ =>
    { s with world := (serve env c s.world).2, worker := some (p, k (serve env c s.world).1) }
  | some (_, .ret _), _ => { s with worker := none }
  | none, p :: rest => { s with queue := rest, worker := some (p, indexIfChanged env p) }
  | none, [] => s

/-- The next call of the worker fails, if it can. -/
def failStep (s : Running) : Running :=
  match s.worker with
  | some (p, .call c k) =>
    if c.remote then { s with worker := some (p, k (.error (serviceFault c))) } else s
  | _ => s

/-- The next step of the observer. -/
def observerStep (env : Env) (h : WatchHandler) (s : Running) : Running :=
  match s.observer, s.events with
  | some (e, .call c k), _ =>
    { s with
      world := (serve env c s.world).2
      queue := s.queue ++ c.submitted
      observer := some (e, k (serve env c s.world).1) }
  | some (_, .ret _), _ => { s with observer := none }
  | none, e :: rest => { s with events := rest, observer := some (e, h.dispatch env e) }
  | none, [] => s

abbrev Run (env : Env) (h : WatchHandler) (po : PollingObserver) (watches : List Watch)
    (mayFail : Running → Prop) (mayPoll : Snapshot → Snapshot → Prop) : Running → Running → Prop :=
  Relation.ReflTransGen (Step env h po watches mayFail mayPoll)

theorem run_workerStep (s : Running) :
    Run env h po watches mayFail mayPoll s (s.workerStep env) := by
  unfold workerStep
  split
  · next hworker => exact .single (.work hworker)
  · next hworker => exact .single (.finish hworker)
  · next hworker hqueue => exact .single (.take hqueue hworker)
  · exact .refl

theorem run_failStep (hfail : mayFail s) : Run env h po watches mayFail mayPoll s s.failStep := by
  unfold failStep
  split
  · next hworker =>
    split
    · next hremote => exact .single (.workFails hworker hremote hfail)
    · exact .refl
  · exact .refl

theorem run_observerStep (s : Running) :
    Run env h po watches mayFail mayPoll s (s.observerStep env h) := by
  unfold observerStep
  split
  · next hobserver => exact .single (.observe hobserver)
  · next hobserver => exact .single (.handled hobserver)
  · next hobserver hevents => exact .single (.next hevents hobserver)
  · exact .refl

theorem run_iterate {step : Running → Running}
    (hstep : ∀ s, Run env h po watches mayFail mayPoll s (step s)) (n : ℕ) (s : Running) :
    Run env h po watches mayFail mayPoll s (step^[n] s) :=
  rel_iterate (fun _ => .refl) .trans hstep n s

/-- The steps of both threads leave the files and the snapshots alone. -/
structure SameSight (s s' : Running) : Prop where
  fs : s'.world.fs = s.world.fs
  snapshots : s'.snapshots = s.snapshots

theorem sameSight_workerStep (s : Running) : SameSight s (s.workerStep env) := by
  unfold workerStep
  split <;> exact ⟨by first | rfl | exact serve_fs, rfl⟩

theorem sameSight_failStep (s : Running) : SameSight s s.failStep := by
  unfold failStep
  split
  · split <;> exact ⟨rfl, rfl⟩
  · exact ⟨rfl, rfl⟩

theorem sameSight_observerStep (s : Running) : SameSight s (s.observerStep env h) := by
  unfold observerStep
  split <;> exact ⟨by first | rfl | exact serve_fs, rfl⟩

theorem SameSight.trans {s'' : Running} (hs : SameSight s s') (hs' : SameSight s' s'') :
    SameSight s s'' :=
  ⟨hs'.fs.trans hs.fs, hs'.snapshots.trans hs.snapshots⟩

theorem sameSight_iterate {step : Running → Running} (hstep : ∀ s, SameSight s (step s)) (n : ℕ)
    (s : Running) : SameSight s (step^[n] s) :=
  rel_iterate (fun _ => ⟨rfl, rfl⟩) .trans hstep n s

end Running

def sampleWatch : Watch := ⟨PurePath.parse "/w".toList, true⟩

/-- What a poll of `/w` sees in the sample world. -/
def sampleSnapshot : Snapshot := AList.singleton samplePath ⟨1, 1, 2⟩

/-- The sample file was submitted; the emitter of `/w` saw `snapshot`. -/
def sampleScanned (snapshot : Snapshot) : Running where
  world := sampleWorld [104, 105]
  queue := [samplePath]
  worker := none
  snapshots := Function.update (fun _ => ∅) sampleWatch snapshot
  events := []
  observer := none

theorem sampleWatch_covers : sampleWatch.Covers samplePath :=
  ⟨[], "a.txt".toList, by decide, by decide, nofun⟩

theorem sampleSnapshot_lookup {x : PurePath} (hx : sampleWatch.Covers x) :
    sampleSnapshot.lookup x = statAt (sampleWorld [104, 105]).fs x := by
  obtain ⟨dirs, name, rfl, hdots, -⟩ := hx
  set x : PurePath := { sampleWatch.path with names := sampleWatch.path.names ++ dirs ++ [name] }
  have hreal : (sampleWorld [104, 105]).fs.Real x := by
    refine ⟨rfl, ?_, fun _ _ => AList.lookup_empty _⟩
    change dotdot ∉ "w".toList :: (dirs ++ [name])
    exact fun hmem => (List.mem_cons.mp hmem).elim (by decide) hdots
  rw [statAt, FileSystem.normalize_of_real hreal, Option.bind_some, FileSystem.fileAt_of_real hreal]
  by_cases hsame : x = samplePath
  · rw [hsame]
    rfl
  · have hnames : x.names ≠ samplePath.names := fun hnames =>
      hsame (PurePath.mk.injEq .. ▸ ⟨rfl, hnames⟩)
    have hfile : (sampleWorld [104, 105]).fs.files.lookup x.names = none :=
      (AList.lookup_insert_ne hnames).trans (AList.lookup_empty _)
    rw [hfile, Option.map_none, AList.lookup_eq_none, AList.mem_keys]
    exact fun hmem => hsame (List.mem_singleton.mp hmem)

theorem sampleScanned_start {snapshot : Snapshot}
    (hseen : ∀ x st, snapshot.lookup x = some st → x = samplePath) :
    (sampleScanned snapshot).Start Env.sample sampleHandler [sampleWatch] := by
  have hnormal : (sampleWorld [104, 105]).fs.normalize samplePath = some samplePath :=
    FileSystem.normalize_of_real (sampleWorld_real _)
  have hlookup : ∀ watch x st, ((sampleScanned snapshot).snapshots watch).lookup x = some st →
      watch = sampleWatch ∧ x = samplePath := by
    intro watch x st hst
    by_cases hwatch : watch = sampleWatch
    · subst hwatch
      exact ⟨rfl, hseen x st (by simpa [sampleScanned] using hst)⟩
    · simp [sampleScanned, Function.update_of_ne hwatch] at hst
  refine ⟨⟨rfl, nofun, nofun⟩, fun p hp => ?_, fun watch x st hst => ?_, ?_, rfl, rfl, rfl⟩
  · obtain rfl := List.mem_singleton.mp hp
    exact hnormal
  · obtain ⟨rfl, rfl⟩ := hlookup watch x st hst
    exact sampleWatch_covers
  · intro watch _ x p hsome _ hx
    obtain ⟨st, hst⟩ := Option.ne_none_iff_exists'.mp hsome
    obtain ⟨-, rfl⟩ := hlookup watch x st hst
    obtain rfl : samplePath = p := Option.some_inj.mp (hnormal.symm.trans hx)
    exact .inl (List.mem_singleton_self _)

/-- The emitter has seen the sample file as it is, and the threads are at rest. -/
theorem quiet_of_seen (hfs : s.world.fs = (sampleWorld [104, 105]).fs)
    (hsnapshot : s.snapshots sampleWatch = sampleSnapshot) (hqueue : s.queue = [])
    (hworker : s.worker.isNone = true) (hevents : s.events.isEmpty = true)
    (hobserver : s.observer.isNone = true) : s.Quiet [sampleWatch] := by
  refine ⟨hqueue, Option.isNone_iff_eq_none.mp hworker, List.isEmpty_iff.mp hevents,
    Option.isNone_iff_eq_none.mp hobserver, fun watch hwatch x hx => ?_⟩
  obtain rfl := List.mem_singleton.mp hwatch
  rw [hsnapshot, hfs]
  exact sampleSnapshot_lookup hx

theorem followed_sample (hfs : s.world.fs = (sampleWorld [104, 105]).fs) :
    Followed Env.sample sampleHandler [sampleWatch] s.world.fs samplePath := by
  refine ⟨sampleWatch, List.mem_singleton_self _, samplePath, sampleWatch_covers, by decide, ?_⟩
  rw [hfs]
  exact FileSystem.normalize_of_real (sampleWorld_real _)

theorem fileAt_sample : (sampleWorld [104, 105]).fs.fileAt samplePath = some ⟨[104, 105], 1, 1⟩ :=
  FileSystem.fileAt_of_real (sampleWorld_real _)

/-- The call that embeds the sample file fails, and the job ends. -/
def sampleFailed (snapshot : Snapshot) : Running :=
  (Running.workerStep Env.sample)^[8]
    (Running.failStep ((Running.workerStep Env.sample)^[14] (sampleScanned snapshot)))

theorem sampleFailed_sight (snapshot : Snapshot) :
    Running.SameSight (sampleScanned snapshot) (sampleFailed snapshot) :=
  (Running.sameSight_iterate Running.sameSight_workerStep _ _).trans
    ((Running.sameSight_failStep _).trans
      (Running.sameSight_iterate Running.sameSight_workerStep _ _))

/-- The emitter has seen the file, the scan has submitted it, and its job fails: nothing submits the
path again. -/
theorem watcher_loses_update : ¬ NoUpdateLost Env.sample sampleHandler .plain [sampleWatch]
    (fun _ => True) (NoMoves Env.sample sampleHandler) := by
  intro hnone
  have hstart : (sampleScanned sampleSnapshot).Start Env.sample sampleHandler [sampleWatch] :=
    sampleScanned_start fun x st hst => by
      have hkey : x ∈ sampleSnapshot := AList.lookup_isSome.mp (by rw [hst]; rfl)
      exact List.mem_singleton.mp hkey
  have hrun : Running.Run Env.sample sampleHandler .plain [sampleWatch] (fun _ => True)
      (NoMoves Env.sample sampleHandler) (sampleScanned sampleSnapshot) (sampleFailed sampleSnapshot) :=
    (Running.run_iterate Running.run_workerStep _ _).trans
      ((Running.run_failStep trivial).trans (Running.run_iterate Running.run_workerStep _ _))
  obtain ⟨hfs, hsnapshots⟩ := sampleFailed_sight sampleSnapshot
  have hquiet : (sampleFailed sampleSnapshot).Quiet [sampleWatch] := by
    refine quiet_of_seen hfs (by rw [hsnapshots]; rfl) ?_ ?_ ?_ ?_ <;> decide +kernel
  have hhash := hnone _ _ hstart hrun hquiet samplePath (followed_sample hfs) ⟨[104, 105], 1, 1⟩
    (hfs ▸ fileAt_sample) (by decide) (by decide)
  have hlost : (sampleFailed sampleSnapshot).world.hashAt samplePath = none := by decide +kernel
  rw [hlost] at hhash
  cases hhash

/-- No poll had seen the file when its job failed; now the emitter polls. -/
def samplePolled : Running :=
  { sampleFailed ∅ with
    snapshots := Function.update (sampleFailed ∅).snapshots sampleWatch sampleSnapshot
    events := (sampleFailed ∅).events ++
      PollingObserver.plain.events ((sampleFailed ∅).snapshots sampleWatch) sampleSnapshot }

/-- The observer handles the event, and the worker processes the path again. -/
def sampleRetried : Running :=
  (Running.workerStep Env.sample)^[17] ((Running.observerStep Env.sample sampleHandler)^[4] samplePolled)

/-- The job that fails is that of the sample file, which no poll has seen. -/
theorem sample_recovers :
    Recovers Env.sample sampleHandler [sampleWatch]
      ((Running.workerStep Env.sample)^[14] (sampleScanned ∅)) := by
  intro p rest hworker _
  obtain ⟨hfs, hsnapshots⟩ : Running.SameSight (sampleScanned ∅)
      ((Running.workerStep Env.sample)^[14] (sampleScanned ∅)) :=
    Running.sameSight_iterate Running.sameSight_workerStep _ _
  have hjob : ((Running.workerStep Env.sample)^[14] (sampleScanned ∅)).worker.map Prod.fst =
      some samplePath := by decide +kernel
  rw [hworker] at hjob
  obtain rfl : p = samplePath := Option.some_inj.mp hjob
  refine .inl (.inr (.inr (.inr ⟨sampleWatch, List.mem_singleton_self _, samplePath,
    sampleWatch_covers, by decide, ?_, ?_⟩)))
  · rw [hfs]
    exact FileSystem.normalize_of_real (sampleWorld_real _)
  · rw [hfs, hsnapshots]
    decide +kernel

/-- A failure before the first poll is made good by the event of that poll. -/
theorem watcher_loses_no_update_sample :
    sampleRetried.world.hashAt samplePath = some (Env.sample.sha256 [104, 105]) := by
  have hstart : (sampleScanned ∅).Start Env.sample sampleHandler [sampleWatch] :=
    sampleScanned_start fun x st hst => by cases hst
  obtain ⟨hfs, hsnapshots⟩ := sampleFailed_sight ∅
  have hfailed : Running.Run Env.sample sampleHandler .plain [sampleWatch]
      (Recovers Env.sample sampleHandler [sampleWatch]) (NoMoves Env.sample sampleHandler)
      (sampleScanned ∅) (sampleFailed ∅) :=
    (Running.run_iterate Running.run_workerStep _ _).trans
      ((Running.run_failStep sample_recovers).trans (Running.run_iterate Running.run_workerStep _ _))
  have hold : (sampleFailed ∅).snapshots sampleWatch = ∅ := by
    rw [hsnapshots]
    rfl
  have hpolled : Running.Run Env.sample sampleHandler .plain [sampleWatch]
      (Recovers Env.sample sampleHandler [sampleWatch]) (NoMoves Env.sample sampleHandler)
      (sampleScanned ∅) samplePolled := by
    refine hfailed.tail (.poll _ (List.mem_singleton_self _) (fun x st => ?_) ?_)
    · refine ⟨fun hst => ?_, fun ⟨hx, hst⟩ => ?_⟩
      · have hkey : x ∈ sampleSnapshot := AList.lookup_isSome.mp (by rw [hst]; rfl)
        obtain rfl : x = samplePath := List.mem_singleton.mp hkey
        rw [hfs, ← hst]
        exact ⟨sampleWatch_covers, (sampleSnapshot_lookup sampleWatch_covers).symm⟩
      · rw [hfs] at hst
        exact (sampleSnapshot_lookup hx).trans hst
    · intro x st _ _ _ y st₁ hy
      rw [hold] at hy
      cases hy
  have hrun := hpolled.trans
    ((Running.run_iterate Running.run_observerStep 4 _).trans (Running.run_iterate Running.run_workerStep 17 _))
  obtain ⟨hfs', hsnapshots'⟩ : Running.SameSight samplePolled sampleRetried :=
    (Running.sameSight_iterate Running.sameSight_observerStep _ _).trans
      (Running.sameSight_iterate Running.sameSight_workerStep _ _)
  have hfs'' : sampleRetried.world.fs = (sampleWorld [104, 105]).fs := hfs'.trans hfs
  have hquiet : sampleRetried.Quiet [sampleWatch] := by
    refine quiet_of_seen hfs'' ?_ ?_ ?_ ?_ ?_
    · rw [hsnapshots']
      simp only [samplePolled, Function.update_self]
    all_goals decide +kernel
  exact watcher_loses_no_update Env.sample sampleHandler .plain [sampleWatch] sample_embeddingWorks _ _ hstart hrun
    hquiet samplePath (followed_sample hfs'') ⟨[104, 105], 1, 1⟩ (hfs'' ▸ fileAt_sample) (by decide)
    (by decide)

end LocalRag
