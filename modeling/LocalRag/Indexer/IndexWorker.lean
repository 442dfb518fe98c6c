-- SUMMARY: The worker thread, its queue and `stop` (`IndexWorker` in `indexer/watcher.py`), step by step, and when the thread survives.
import LocalRag.Common.ServiceLaws
import LocalRag.Indexer.Watcher
import Mathlib.Data.List.ReduceOption

/-!
# The index worker

The thread takes one path after the other from its queue. A job catches the exceptions of
everything it does but its first call, `Path.exists`: where that one raises, the
exception leaves `_run`, and with the thread all indexing ends.
-/

namespace LocalRag

open PyText PyPath Effects

/-! ## Steps -/

/-- Where the thread is in `_run`. -/
inductive WorkerThread where
  /-- In `queue.get`. -/
  | waiting
  | processing (path : PurePath) (job : App IndexDecision)
  /-- Behind the loop. -/
  | finished
  /-- An exception left `_run`. -/
  | crashed (e : Exn)

/-- Where the caller of `stop` is. -/
inductive StopCall where
  | notCalled
  | joiningQueue
  | joiningThread
  | returned

structure IndexWorker where
  /-- The sentinel is `none`. -/
  queue : List (Option PurePath)
  /-- Items that were put and for which `task_done` was not called yet. -/
  unfinishedTasks : ℕ
  thread : WorkerThread
  stop : StopCall
  /-- All paths that were submitted, in order. -/
  submitted : List PurePath
  /-- The paths for which `task_done` was called, in order. -/
  processed : List PurePath

namespace IndexWorker

/-- `__init__` -/
def init : IndexWorker where
  queue := []
  unfinishedTasks := 0
  thread := .waiting
  stop := .notCalled
  submitted := []
  processed := []

/-- A call of a job gets the answer of any world, since other threads and users act in between; or it
raises where it may. -/
inductive Step (env : Env) (mayFail : Call → Prop) : IndexWorker → IndexWorker → Prop where
  | submit {s : IndexWorker} (path : PurePath) (hstop : s.stop = .notCalled) :
    Step env mayFail s
      { s with
        queue := s.queue ++ [some path]
        unfinishedTasks := s.unfinishedTasks + 1
        submitted := s.submitted ++ [path] }
  | get {s : IndexWorker} {path : PurePath} {rest : List (Option PurePath)}
    (hthread : s.thread = .waiting) (hqueue : s.queue = some path :: rest) :
    Step env mayFail s { s with queue := rest, thread := .processing path (indexIfChanged env path) }
  | sentinel {s : IndexWorker} {rest : List (Option PurePath)}
    (hthread : s.thread = .waiting) (hqueue : s.queue = none :: rest) :
    Step env mayFail s
      { s with queue := rest, unfinishedTasks := s.unfinishedTasks - 1, thread := .finished }
  | call {s : IndexWorker} {path : PurePath} {c : Call}
    {k : Except Exn (Services.Reply c) → App IndexDecision} {o : Except Exn (Services.Reply c)}
    (hthread : s.thread = .processing path (.call c k))
    (hanswer : answersIn env mayFail (fun _ => True) c () o ()) :
    Step env mayFail s { s with thread := .processing path (k o) }
  | taskDone {s : IndexWorker} {path : PurePath} {outcome : IndexDecision}
    (hthread : s.thread = .processing path (.ret (.ok outcome))) :
    Step env mayFail s
      { s with
        unfinishedTasks := s.unfinishedTasks - 1
        thread := .waiting
        processed := s.processed ++ [path] }
  /-- `finally` calls `task_done`, and the exception goes on. -/
  | raise {s : IndexWorker} {path : PurePath} {e : Exn}
    (hthread : s.thread = .processing path (.ret (.error e))) :
    Step env mayFail s
      { s with
        unfinishedTasks := s.unfinishedTasks - 1
        thread := .crashed e
        processed := s.processed ++ [path] }
  | callStop {s : IndexWorker} (hstop : s.stop = .notCalled) :
    Step env mayFail s { s with stop := .joiningQueue }
  | queueJoined {s : IndexWorker} (hstop : s.stop = .joiningQueue) (hdone : s.unfinishedTasks = 0) :
    Step env mayFail s
      { s with
        queue := s.queue ++ [none]
        unfinishedTasks := s.unfinishedTasks + 1
        stop := .joiningThread }
  | threadJoined {s : IndexWorker} (hstop : s.stop = .joiningThread)
    (hended : s.thread = .finished ∨ ∃ e, s.thread = .crashed e) :
    Step env mayFail s { s with stop := .returned }

/-! ## Survival -/

/-- The path in hand, if there is one. -/
def hand (s : IndexWorker) : List PurePath :=
  match s.thread with
  | .processing path _ => [path]
  | _ => []

/-- The thread runs until it gets the sentinel. The submitted paths are processed in order, each
with one `task_done`. -/
structure Sound (s : IndexWorker) : Prop where
  alive : ∀ e, s.thread ≠ .crashed e
  running : s.thread = .finished → s.stop = .joiningThread ∨ s.stop = .returned
  inOrder : s.processed ++ (s.hand ++ s.queue.reduceOption) = s.submitted
  once : s.unfinishedTasks = s.hand.length + s.queue.length

/-- However it goes on, `stop` returns, and then all submitted paths are processed. -/
inductive StopReturns (env : Env) (mayFail : Call → Prop) : IndexWorker → Prop where
  | returned {s : IndexWorker} (hstop : s.stop = .returned) (hdrained : s.processed = s.submitted) :
    StopReturns env mayFail s
  | goesOn {s : IndexWorker} (hstep : ∃ s', Step env mayFail s s')
    (hnext : ∀ s', Step env mayFail s s' → StopReturns env mayFail s') : StopReturns env mayFail s

/-- In every run the worker survives, and `stop` returns whenever it was called. -/
def Survives (env : Env) (mayFail : Call → Prop) : Prop :=
  ∀ s, Relation.ReflTransGen (Step env mayFail) init s →
    s.Sound ∧ (s.stop ≠ .notCalled → StopReturns env mayFail s)

end IndexWorker

/-- The calls that a job makes in its `try` block. -/
def Call.caught : Call → Prop
  | .pathExists _ => False
  | _ => True

variable {env : Env}

/-! ## Jobs -/

/-- The rest of a job returns an outcome. -/
def Job.Returns (env : Env) (job : App IndexDecision) : Prop :=
  wp (answersIn env Call.caught fun _ => True) (fun _ _ => True) job (fun r _ => ∃ outcome, r = .ok outcome) ()

/-- A job returns, as long as `Path.exists` does not raise. -/
theorem indexIfChanged_returns (path : PurePath) : Job.Returns env (indexIfChanged env path) := by
  unfold Job.Returns indexIfChanged
  refine wp_bind.mpr ⟨trivial, ?_⟩
  rintro o ⟨⟩ (⟨w, -, rfl⟩ | ⟨hraises, -⟩)
  · change wp _ _ (if w.fs.pathExists path then orElse (indexChanged env path) .failed else pure .missing) _ _
    split
    · refine wp_tryCatch.mpr (wp_mono (wp_true _) ?_)
      rintro (e | outcome) _ -
      · exact ⟨.failed, rfl⟩
      · exact ⟨outcome, rfl⟩
    · exact ⟨.missing, rfl⟩
  · exact hraises.elim

namespace IndexWorker

variable {s s' : IndexWorker}

/-! ## The invariant -/

/-- What the phase of `stop` says of the queue and the thread. -/
def Phase (s : IndexWorker) : Prop :=
  match s.stop with
  | .notCalled | .joiningQueue => none ∉ s.queue ∧ s.thread ≠ .finished
  | .joiningThread => s.thread = .waiting ∧ s.queue = [none] ∨ s.thread = .finished ∧ s.queue = []
  | .returned => s.thread = .finished ∧ s.queue = []

structure Inv (env : Env) (s : IndexWorker) : Prop where
  alive : ∀ e, s.thread ≠ .crashed e
  job : ∀ path job, s.thread = .processing path job → Job.Returns env job
  phase : s.Phase
  inOrder : s.processed ++ (s.hand ++ s.queue.reduceOption) = s.submitted
  once : s.unfinishedTasks = s.hand.length + s.queue.length

theorem Inv.sound (h : s.Inv env) : s.Sound := by
  refine ⟨h.alive, fun hfinished => ?_, h.inOrder, h.once⟩
  have hphase := h.phase
  unfold Phase at hphase
  split at hphase
  · exact absurd hfinished hphase.2
  · exact absurd hfinished hphase.2
  · next hstop => exact .inl hstop
  · next hstop => exact .inr hstop

theorem hand_waiting (h : s.thread = .waiting) : s.hand = [] := by rw [hand, h]

theorem hand_processing {path : PurePath} {job : App IndexDecision}
    (h : s.thread = .processing path job) : s.hand = [path] := by rw [hand, h]

/-- As long as `stop` waits for the queue or was not called, the sentinel is not in the queue. -/
theorem Inv.no_sentinel (h : s.Inv env) (hstop : s.stop = .notCalled ∨ s.stop = .joiningQueue) :
    none ∉ s.queue ∧ s.thread ≠ .finished := by
  have hphase := h.phase
  rcases hstop with hstop | hstop <;> (rw [Phase, hstop] at hphase; exact hphase)

/-- While the thread has a path in hand, `stop` waits for the queue or was not called. -/
theorem Inv.stop_of_processing {path : PurePath} {job : App IndexDecision} (h : s.Inv env)
    (hthread : s.thread = .processing path job) : s.stop = .notCalled ∨ s.stop = .joiningQueue := by
  have hphase := h.phase
  unfold Phase at hphase
  split at hphase
  · next hstop => exact .inl hstop
  · next hstop => exact .inr hstop
  · rcases hphase with ⟨hother, -⟩ | ⟨hother, -⟩ <;> cases hthread.symm.trans hother
  · cases hthread.symm.trans hphase.1

theorem phase_of_stop (hstop : s.stop = .notCalled ∨ s.stop = .joiningQueue) (hqueue : none ∉ s.queue)
    (hthread : s.thread ≠ .finished) : s.Phase := by
  rcases hstop with hstop | hstop <;> (rw [Phase, hstop]; exact ⟨hqueue, hthread⟩)

theorem Inv.submit (h : s.Inv env) (path : PurePath) (hstop : s.stop = .notCalled) :
    Inv env { s with
      queue := s.queue ++ [some path]
      unfinishedTasks := s.unfinishedTasks + 1
      submitted := s.submitted ++ [path] } := by
  obtain ⟨hqueue, hthread⟩ := h.no_sentinel (.inl hstop)
  refine ⟨h.alive, h.job, phase_of_stop (.inl hstop) ?_ hthread, ?_, ?_⟩
  · simpa using hqueue
  · rw [← h.inOrder]
    simp [List.reduceOption_append, List.append_assoc, hand]
  · change s.unfinishedTasks + 1 = s.hand.length + (s.queue ++ [some path]).length
    rw [h.once, List.length_append, Nat.add_assoc]
    rfl

theorem Inv.get {path : PurePath} {rest : List (Option PurePath)} (h : s.Inv env)
    (hthread : s.thread = .waiting) (hqueue : s.queue = some path :: rest) :
    Inv env { s with queue := rest, thread := .processing path (indexIfChanged env path) } := by
  have hstop : s.stop = .notCalled ∨ s.stop = .joiningQueue := by
    have hphase := h.phase
    unfold Phase at hphase
    split at hphase
    · next hstop => exact .inl hstop
    · next hstop => exact .inr hstop
    · rcases hphase with ⟨-, hother⟩ | ⟨-, hother⟩ <;> cases hqueue.symm.trans hother
    · cases hqueue.symm.trans hphase.2
  have hnone := (h.no_sentinel hstop).1
  have horder := h.inOrder
  have honce := h.once
  rw [hand_waiting hthread, hqueue] at horder honce
  rw [hqueue] at hnone
  refine ⟨nofun, ?_, phase_of_stop hstop (fun hmem => hnone (List.mem_cons_of_mem _ hmem)) nofun, ?_, ?_⟩
  · rintro _ _ ⟨⟩
    exact indexIfChanged_returns path
  · simpa [hand, List.reduceOption] using horder
  · simpa [hand, Nat.add_comm] using honce

theorem Inv.sentinel {rest : List (Option PurePath)} (h : s.Inv env) (hthread : s.thread = .waiting)
    (hqueue : s.queue = none :: rest) :
    Inv env { s with queue := rest, unfinishedTasks := s.unfinishedTasks - 1, thread := .finished } := by
  have hphase := h.phase
  unfold Phase at hphase
  split at hphase
  · rw [hqueue] at hphase
    exact absurd List.mem_cons_self hphase.1
  · rw [hqueue] at hphase
    exact absurd List.mem_cons_self hphase.1
  · next hstop =>
    -- the sentinel was put behind everything else, and by now it is all there is
    obtain ⟨-, hlast⟩ := hphase.resolve_right fun hother => by cases hthread.symm.trans hother.1
    obtain rfl : rest = [] := (List.cons_eq_cons.mp (hqueue.symm.trans hlast)).2
    have horder := h.inOrder
    have honce := h.once
    rw [hand_waiting hthread, hlast] at horder honce
    refine ⟨nofun, nofun, ?_, ?_, ?_⟩
    · rw [Phase, hstop]
      exact .inr ⟨rfl, rfl⟩
    · simpa [hand, List.reduceOption] using horder
    · simp [hand, honce]
  · cases hthread.symm.trans hphase.1

theorem Inv.call {path : PurePath} {c : Call} {k : Except Exn (Services.Reply c) → App IndexDecision}
    {o : Except Exn (Services.Reply c)} (h : s.Inv env) (hthread : s.thread = .processing path (.call c k))
    (hanswer : answersIn env Call.caught (fun _ => True) c () o ()) :
    Inv env { s with thread := .processing path (k o) } := by
  have horder := h.inOrder
  have honce := h.once
  have hstop := h.stop_of_processing hthread
  rw [hand_processing hthread] at horder honce
  refine ⟨nofun, ?_, phase_of_stop hstop (h.no_sentinel hstop).1 nofun, horder, honce⟩
  rintro _ _ ⟨⟩
  exact (h.job path _ hthread).2 o () hanswer

theorem Inv.taskDone {path : PurePath} {r : Except Exn IndexDecision} (h : s.Inv env)
    (hthread : s.thread = .processing path (.ret r)) :
    Inv env { s with
      unfinishedTasks := s.unfinishedTasks - 1
      thread := .waiting
      processed := s.processed ++ [path] } := by
  have horder := h.inOrder
  have honce := h.once
  have hstop := h.stop_of_processing hthread
  rw [hand_processing hthread] at horder honce
  refine ⟨nofun, nofun, phase_of_stop hstop (h.no_sentinel hstop).1 nofun, ?_, ?_⟩
  · simpa [hand] using horder
  · simp [hand, honce]

theorem Inv.step (h : s.Inv env) (hstep : Step env Call.caught s s') : s'.Inv env := by
  cases hstep with
  | submit path hstop => exact h.submit path hstop
  | get hthread hqueue => exact h.get hthread hqueue
  | sentinel hthread hqueue => exact h.sentinel hthread hqueue
  | call hthread hanswer => exact h.call hthread hanswer
  | taskDone hthread => exact h.taskDone hthread
  | raise hthread =>
    obtain ⟨outcome, houtcome⟩ := h.job _ _ hthread
    cases houtcome
  | callStop hstop =>
    obtain ⟨hqueue, hthread⟩ := h.no_sentinel (.inl hstop)
    exact ⟨h.alive, h.job, phase_of_stop (.inr rfl) hqueue hthread, h.inOrder, h.once⟩
  | queueJoined hstop hdone =>
    obtain ⟨hqueue, hthread⟩ := h.no_sentinel (.inr hstop)
    have honce := h.once
    rw [hdone] at honce
    -- no task is unfinished, so nothing is queued or in hand
    have hnil : s.queue = [] := List.length_eq_zero_iff.mp (by omega)
    have hhand : s.hand = [] := List.length_eq_zero_iff.mp (by omega)
    have hwaiting : s.thread = .waiting := by
      cases hphase : s.thread with
      | waiting => rfl
      | processing path job => rw [hand_processing hphase] at hhand; cases hhand
      | finished => exact absurd hphase hthread
      | crashed e => exact absurd hphase (h.alive e)
    refine ⟨h.alive, h.job, .inl ⟨hwaiting, by rw [hnil]; rfl⟩, ?_, ?_⟩
    · simpa [hnil, List.reduceOption, hand, hwaiting] using h.inOrder
    · simp [hnil, hdone, hand, hwaiting]
  | threadJoined hstop hended =>
    have hphase := h.phase
    rw [Phase, hstop] at hphase
    refine ⟨h.alive, h.job, ?_, h.inOrder, h.once⟩
    rcases hphase with ⟨hwaiting, -⟩ | hfinished
    · rcases hended with hother | ⟨e, hother⟩ <;> cases hwaiting.symm.trans hother
    · exact hfinished

theorem Inv.init : IndexWorker.init.Inv env :=
  ⟨nofun, nofun, ⟨List.not_mem_nil, nofun⟩, rfl, rfl⟩

/-- The queue cannot be joined while a path is in hand. -/
theorem Inv.unfinishedTasks_ne_zero {path : PurePath} {job : App IndexDecision} (h : s.Inv env)
    (hthread : s.thread = .processing path job) : s.unfinishedTasks ≠ 0 := by
  rw [h.once, hand_processing hthread, List.length_singleton]
  omega

/-! ## Stopping -/

/-- The thread takes the sentinel, if it has not done so, and `stop` returns. -/
theorem stopReturns_joiningThread (h : s.Inv env) (hstop : s.stop = .joiningThread) :
    StopReturns env Call.caught s := by
  -- a thread that has finished can be joined, and nothing else can happen
  have hlast : ∀ s : IndexWorker, s.Inv env → s.stop = .joiningThread → s.thread = .finished →
      StopReturns env Call.caught s := by
    intro s h hstop hthread
    refine .goesOn ⟨_, .threadJoined hstop (.inl hthread)⟩ fun s' hstep => ?_
    have h' := h.step hstep
    cases hstep with
    | threadJoined =>
      have hphase := h'.phase
      have horder := h'.inOrder
      rw [Phase] at hphase
      rw [hphase.2] at horder
      refine .returned rfl ?_
      simpa [hand, hthread, List.reduceOption] using horder
    | submit _ hother | callStop hother | queueJoined hother => cases hstop.symm.trans hother
    | get hother | sentinel hother | call hother | taskDone hother | raise hother =>
      cases hthread.symm.trans hother
  have hphase := h.phase
  rw [Phase, hstop] at hphase
  rcases hphase with ⟨hthread, hqueue⟩ | ⟨hthread, -⟩
  · refine .goesOn ⟨_, .sentinel hthread hqueue⟩ fun s' hstep => ?_
    have h' := h.step hstep
    cases hstep with
    | sentinel => exact hlast _ h' hstop rfl
    | get _ hother => cases hqueue.symm.trans hother
    | submit _ hother | callStop hother | queueJoined hother => cases hstop.symm.trans hother
    | call hother | taskDone hother | raise hother => cases hthread.symm.trans hother
    | threadJoined _ hended => rcases hended with hother | ⟨e, hother⟩ <;> cases hthread.symm.trans hother
  · exact hlast s h hstop hthread

/-- A job in hand ends, and the thread waits for the next path. By induction on what is left of it. -/
theorem stopReturns_processing {path : PurePath} {job : App IndexDecision} (h : s.Inv env)
    (hstop : s.stop = .joiningQueue) (hthread : s.thread = .processing path job)
    (hdone : ∀ s' : IndexWorker, s'.Inv env → s'.stop = .joiningQueue → s'.thread = .waiting →
      s'.queue = s.queue → StopReturns env Call.caught s') : StopReturns env Call.caught s := by
  induction job generalizing s with
  | ret r =>
    obtain ⟨outcome, rfl⟩ := h.job path _ hthread
    refine .goesOn ⟨_, .taskDone hthread⟩ fun s' hstep => ?_
    have h' := h.step hstep
    cases hstep with
    | taskDone => exact hdone _ h' hstop rfl rfl
    | raise hother | call hother | get hother | sentinel hother => cases hthread.symm.trans hother
    | submit _ hother | callStop hother | threadJoined hother => cases hstop.symm.trans hother
    | queueJoined _ hzero => exact absurd hzero (h.unfinishedTasks_ne_zero hthread)
  | call c k ih =>
    -- a call is answered somehow, so the job is never stuck
    refine .goesOn ⟨_, .call hthread (.inl ⟨World.sample [] [], trivial, rfl⟩)⟩ fun s' hstep => ?_
    have h' := h.step hstep
    cases hstep with
    | call hsame =>
      cases hthread.symm.trans hsame
      exact ih _ h' hstop rfl hdone
    | taskDone hother | raise hother | get hother | sentinel hother => cases hthread.symm.trans hother
    | submit _ hother | callStop hother | threadJoined hother => cases hstop.symm.trans hother
    | queueJoined _ hzero => exact absurd hzero (h.unfinishedTasks_ne_zero hthread)

/-- The queue is drained. By induction on it. -/
theorem stopReturns_waiting {queue : List (Option PurePath)} (h : s.Inv env)
    (hstop : s.stop = .joiningQueue) (hthread : s.thread = .waiting) (hqueue : s.queue = queue) :
    StopReturns env Call.caught s := by
  induction queue generalizing s with
  | nil =>
    have hzero : s.unfinishedTasks = 0 := by
      rw [h.once, hand_waiting hthread, hqueue]
      rfl
    refine .goesOn ⟨_, .queueJoined hstop hzero⟩ fun s' hstep => ?_
    have h' := h.step hstep
    cases hstep with
    | queueJoined => exact stopReturns_joiningThread h' rfl
    | get _ hother | sentinel _ hother => cases hqueue.symm.trans hother
    | call hother | taskDone hother | raise hother => cases hthread.symm.trans hother
    | submit _ hother | callStop hother | threadJoined hother => cases hstop.symm.trans hother
  | cons item rest ih =>
    cases item with
    | none => exact absurd (hqueue ▸ List.mem_cons_self) (h.no_sentinel (.inr hstop)).1
    | some path =>
      refine .goesOn ⟨_, .get hthread hqueue⟩ fun s' hstep => ?_
      have h' := h.step hstep
      cases hstep with
      | get _ hsame =>
        cases hqueue.symm.trans hsame
        exact stopReturns_processing h' hstop rfl fun _ hs hstop hthread hrest => ih hs hstop hthread hrest
      | sentinel _ hother => cases hqueue.symm.trans hother
      | call hother | taskDone hother | raise hother => cases hthread.symm.trans hother
      | submit _ hother | callStop hother | threadJoined hother => cases hstop.symm.trans hother
      | queueJoined _ hzero =>
        -- the path in the queue is still unfinished
        have honce := h.once
        rw [hzero, hqueue] at honce
        simp at honce

theorem Inv.stopReturns (h : s.Inv env) (hcalled : s.stop ≠ .notCalled) : StopReturns env Call.caught s := by
  cases hstop : s.stop with
  | notCalled => exact absurd hstop hcalled
  | joiningQueue =>
    cases hthread : s.thread with
    | waiting => exact stopReturns_waiting h hstop hthread rfl
    | processing path job =>
      exact stopReturns_processing h hstop hthread fun _ hs hstop hthread _ => stopReturns_waiting hs hstop hthread rfl
    | finished => exact absurd hthread (h.no_sentinel (.inr hstop)).2
    | crashed e => exact absurd hthread (h.alive e)
  | joiningThread => exact stopReturns_joiningThread h hstop
  | returned =>
    have hphase := h.phase
    have horder := h.inOrder
    rw [Phase, hstop] at hphase
    refine .returned hstop ?_
    simpa [hand, hphase.1, hphase.2, List.reduceOption] using horder

end IndexWorker

/-- As long as `Path.exists` does not raise, the worker survives all failures. -/
theorem indexWorker_survives (env : Env) : IndexWorker.Survives env Call.caught := by
  intro s hrun
  have hinv : s.Inv env := by
    induction hrun with
    | refl => exact .init
    | tail _ hstep ih => exact ih.step hstep
  exact ⟨hinv.sound, hinv.stopReturns⟩

/-- Where `Path.exists` may raise, it can end the thread at any path. -/
theorem IndexWorker.crashes {mayFail : Call → Prop} {s : IndexWorker} {path : PurePath}
    {rest : List (Option PurePath)} (hraises : mayFail (.pathExists path)) (hthread : s.thread = .waiting)
    (hqueue : s.queue = some path :: rest) :
    ∃ s' e, Relation.ReflTransGen (Step env mayFail) s s' ∧ s'.thread = .crashed e ∧ s'.queue = rest := by
  have hcall : ∀ {s : IndexWorker}, s.thread = .processing path (indexIfChanged env path) →
      Step env mayFail s { s with thread := .processing path (.ret (.error .osError)) } := fun hthread =>
    .call (c := .pathExists path) (o := .error .osError) hthread (.inr ⟨hraises, rfl⟩)
  exact ⟨_, .osError, ((Relation.ReflTransGen.single (.get hthread hqueue)).tail (hcall rfl)).tail (.raise rfl),
    rfl, rfl⟩

/-! ## Examples -/

/-- A submitted path. -/
def submittedWorker : IndexWorker :=
  { IndexWorker.init with queue := [some ⟨true, []⟩], unfinishedTasks := 1, submitted := [⟨true, []⟩] }

/-- Its `exists` raises, and the thread is gone. -/
theorem indexWorker_dies : ¬ IndexWorker.Survives Env.sample fun _ => True := by
  intro hsurvives
  have hsubmit : IndexWorker.Step Env.sample (fun _ => True) .init submittedWorker := .submit _ rfl
  have hdies : ∃ s e, Relation.ReflTransGen (IndexWorker.Step Env.sample fun _ => True) submittedWorker s ∧
      s.thread = .crashed e ∧ s.queue = [] := IndexWorker.crashes trivial rfl rfl
  obtain ⟨s, e, hrun, hcrashed, -⟩ := hdies
  exact (hsurvives s (hrun.head hsubmit)).1.alive e hcrashed

end LocalRag
