-- SUMMARY: The RAG capacity is conserved: free permits, permits that requests hold and jobs in flight add up to the limit.
import LocalRag.Web.ApiServer
import Mathlib.Data.List.Count

/-!
# RAG capacity

A request takes a permit, and either releases it or hands it to the job it submits;
the job's callback releases it when the job ends. What a request does with its permit
is followed by a `Hold`; every path keeps to the order that `Guarded` states, whatever
its calls are answered.
-/

namespace LocalRag.ApiServer

open PyText Effects

/-! ## Requests and jobs -/

/-- A submitted job, and whether its done callback is added. -/
structure JobInFlight where
  future : ℕ
  callback : Bool
  deriving DecidableEq

structure Capacity where
  /-- The value of the semaphore. -/
  permits : ℕ
  /-- The jobs that have not finished. -/
  jobs : List JobInFlight

/-- What a request does with its permit. -/
inductive Hold where
  | idle
  | holding
  /-- Its job is submitted, and the callback is not added yet. -/
  | submitted (future : ℕ)
  deriving DecidableEq

/-- What a call does to the hold. -/
def Hold.after (hold : Hold) : (c : Call) → Except Exn (Reply c) → Hold
  | .acquire _, .ok _ => .holding
  | .release, .ok _ => .idle
  | .runInExecutor _, .ok future => .submitted future
  | .addDoneCallback _, .ok _ => .idle
  | _, _ => hold

/-- The calls that cannot raise. All other calls may be answered in any way: they time out, fail, are
cancelled, or find the client gone. -/
def Possible : (c : Call) → Except Exn (Reply c) → Prop
  | .monotonic, .error _ | .release, .error _ | .addDoneCallback _, .error _ => False
  | _, _ => True

/-- What a call does to the capacity. -/
def Serves (capacity : Capacity) (c : Call) (o : Except Exn (Reply c)) (capacity' : Capacity) : Prop :=
  match c, o with
  | .acquire _, .ok _ =>
    0 < capacity.permits ∧ capacity' = { capacity with permits := capacity.permits - 1 }
  | .release, .ok _ => capacity' = { capacity with permits := capacity.permits + 1 }
  | .runInExecutor _, .ok future =>
    (∀ job ∈ capacity.jobs, job.future ≠ future) ∧
      capacity' = { capacity with jobs := ⟨future, false⟩ :: capacity.jobs }
  | .addDoneCallback future, .ok _ =>
    capacity' = { capacity with
      jobs := capacity.jobs.map fun job => if job.future = future then ⟨future, true⟩ else job }
  | _, _ => capacity' = capacity

/-- A request: what is left of it, and its hold. -/
structure Request where
  rest : App Unit
  hold : Hold

structure Server extends Capacity where
  requests : List Request

inductive Endpoint where
  | chat (question model : Text) (ragMode : RagMode) (timeout : ℚ)
  | streamingChat (question model : Text) (ragMode : RagMode) (httpRequest : Bool) (iterations : ℕ)
  | retrieve (internalToken : Option Text) (token query : Text) (limit : ℤ)

def Endpoint.program (config : Config) : Endpoint → App Unit
  | .chat question model ragMode timeout => do
    let _ ← runRagWithTimeout question model ragMode timeout
  | .streamingChat question model ragMode httpRequest iterations =>
    ragStreamResponse config question model ragMode httpRequest iterations
  | .retrieve internalToken token query limit => do
    let _ ← ApiServer.retrieve config internalToken token query limit

namespace Server

/-- A request arrives, a request makes its next call, or a job ends. -/
inductive Step (config : Config) : Server → Server → Prop where
  | arrive {s : Server} (endpoint : Endpoint) :
    Step config s { s with requests := s.requests ++ [⟨endpoint.program config, .idle⟩] }
  | serve {s : Server} {before after : List Request} {c : Call}
    {k : Except Exn (Reply c) → App Unit} {hold : Hold} {o : Except Exn (Reply c)}
    {capacity : Capacity} (hrequests : s.requests = before ++ ⟨.call c k, hold⟩ :: after)
    (hpossible : Possible c o) (hserves : Serves s.toCapacity c o capacity) :
    Step config s ⟨capacity, before ++ ⟨k o, hold.after c o⟩ :: after⟩
  | jobEnds {s : Server} {future : ℕ} (hjob : ⟨future, true⟩ ∈ s.jobs) :
    Step config s
      { s with
        jobs := s.jobs.erase ⟨future, true⟩
        permits := s.permits + 1 }

/-- `lifespan`. -/
def start (config : Config) : Server where
  permits := config.settings.ragConcurrencyLimit.toNat
  jobs := []
  requests := []

/-- The requests that hold a permit and have not submitted their job. -/
def holding (s : Server) : ℕ := s.requests.countP fun r => r.hold = .holding

def Finished (s : Server) : Prop := ∀ r ∈ s.requests, ∃ result, r.rest = .ret result

end Server

/-! ## What a request does with its permit -/

/-- Any answers. -/
def anyAnswer : Answers WebIface Exn Hold := fun c hold o hold' => Possible c o ∧ hold' = hold.after c o

/-- A permit is taken, released and handed over in order. -/
def Guarded (c : Call) (hold : Hold) : Prop :=
  match c with
  | .release | .runInExecutor _ => hold = .holding
  | .addDoneCallback future => hold = .submitted future
  | .monotonic => hold = .idle ∨ hold = .holding
  | _ => hold = .idle

/-- What is left of a request keeps the order, and holds nothing in the end. -/
abbrev Keeps {α : Type} (prog : App α) (Q : Except Exn α → Hold → Prop) (hold : Hold) : Prop :=
  wp anyAnswer Guarded prog Q hold

/-- A program that is idle wherever it waits. -/
abbrev Idles {α : Type} (prog : App α) : Prop := Keeps prog (fun _ hold => hold = .idle) .idle

variable {α β : Type} {c : Call} {hold : Hold}

theorem keeps_call {Q : Except Exn (Reply c) → Hold → Prop} (hguard : Guarded c hold)
    (hQ : ∀ o, Possible c o → Q o (hold.after c o)) : Keeps (call c) Q hold := by
  refine wp_lift.mpr ⟨hguard, ?_⟩
  rintro o hold' ⟨hpossible, rfl⟩
  exact hQ o hpossible

/-- A call that has nothing to do with permits. -/
def Call.unrelated : Call → Bool
  | .acquire _ | .release | .runInExecutor _ | .addDoneCallback _ => false
  | _ => true

namespace Idles

theorem ret (r : Except Exn α) : Idles (.ret r) := rfl

theorem bind {prog : App α} {f : α → App β} (h : Idles prog) (hf : ∀ a, Idles (f a)) :
    Idles (prog >>= f) := by
  refine wp_bind.mpr (wp_mono h fun r hold hr => ?_)
  subst hr
  cases r with
  | ok a => exact hf a
  | error e => rfl

theorem tryCatch {prog : App α} {f : Exn → App α} (h : Idles prog) (hf : ∀ e, Idles (f e)) :
    Idles (tryCatch prog f) := by
  refine wp_tryCatch.mpr (wp_mono h fun r hold hr => ?_)
  subst hr
  cases r with
  | ok a => rfl
  | error e => exact hf e

theorem finallyDo {prog : App α} {last : App Unit} (h : Idles prog) (hlast : Idles last) :
    Idles (prog.finallyDo last) := by
  refine wp_finallyDo.mpr (wp_mono h fun r hold hr => ?_)
  subst hr
  refine wp_mono hlast fun r' hold hr' => ?_
  cases r' <;> exact hr'

theorem call (hc : c.unrelated = true) : Idles (ApiServer.call c) := by
  refine keeps_call ?_ fun o _ => ?_
  · cases c <;> first | rfl | exact .inl rfl | cases hc
  · cases c <;> cases o <;> first | rfl | cases hc

end Idles

theorem keeps_bind {prog : App α} {f : α → App β} {Q : Except Exn β → Hold → Prop} {R : α → Hold → Prop}
    (h : Keeps prog (onOk R fun e hold => Q (.error e) hold) hold)
    (hf : ∀ a hold, R a hold → Keeps (f a) Q hold) : Keeps (prog >>= f) Q hold := by
  refine wp_bind.mpr (wp_mono h fun r hold' hr => ?_)
  cases r with
  | ok a => exact hf a hold' hr
  | error e => exact hr

/-- The permit is the request's when `_wait_for_capacity` returns. -/
theorem keeps_waitForCapacity (timeout : ℚ) :
    Keeps (waitForCapacity timeout)
      (onOk (fun _ hold => hold = .holding) fun _ hold => hold = .idle) .idle := by
  refine keeps_call rfl fun o _ => ?_
  cases o <;> rfl

/-- `_submit_rag_job` hands the permit to the job, or releases it. -/
theorem keeps_submitRagJob (job : Job) :
    Keeps (submitRagJob job) (fun _ hold => hold = .idle) .holding := by
  have hcallback : ∀ future : ℕ, Keeps (do
      let _ ← call (.addDoneCallback future)
      pure future) (fun _ hold => hold = .idle) (.submitted future) := by
    intro future
    refine wp_bind.mpr (keeps_call rfl fun o hpossible => ?_)
    cases o with
    | ok _ => rfl
    | error e => exact hpossible.elim
  have hrelease : ∀ e : Exn, Keeps (do
      let _ ← call .release
      throw e : App ℕ) (onOk (fun future hold => hold = .submitted future) fun _ hold => hold = .idle)
      .holding := by
    intro e
    refine wp_bind.mpr (keeps_call rfl fun o hpossible => ?_)
    cases o with
    | ok _ => rfl
    | error e => exact hpossible.elim
  refine keeps_bind (R := fun future hold => hold = .submitted future) ?_ ?_
  · refine wp_tryCatch.mpr (keeps_call rfl fun o _ => ?_)
    cases o with
    | ok future => rfl
    | error e => exact hrelease e
  · rintro future _ rfl
    exact hcallback future

/-- The clock, read while a permit is held or not. -/
theorem keeps_monotonic {f : ℚ → App α} {Q : Except Exn α → Hold → Prop}
    (hhold : hold = .idle ∨ hold = .holding) (hf : ∀ t, Keeps (f t) Q hold) :
    Keeps (call .monotonic >>= f) Q hold := by
  refine wp_bind.mpr (keeps_call hhold fun o hpossible => ?_)
  cases o with
  | ok t => exact hf t
  | error e => exact hpossible.elim

/-- A permit that is given back because no time is left. -/
theorem keeps_giveBack (e : Exn) :
    Keeps (do
      let _ ← call .release
      throw e : App α) (fun _ hold => hold = .idle) .holding := by
  refine wp_bind.mpr (keeps_call rfl fun o hpossible => ?_)
  cases o with
  | ok _ => rfl
  | error e => exact hpossible.elim

theorem idles_acquireAndSubmit (job : Job) (timeout : ℚ) : Idles (acquireAndSubmit job timeout) := by
  unfold acquireAndSubmit
  refine keeps_monotonic (.inl rfl) fun started => ?_
  refine keeps_bind (R := fun _ hold => hold = .holding) ?_ ?_
  · refine wp_tryCatch.mpr (wp_mono (keeps_waitForCapacity timeout) fun r hold hr => ?_)
    cases r with
    | ok _ => exact hr
    | error e =>
      obtain rfl : hold = .idle := hr
      dsimp only [onOk]
      split <;> rfl
  · rintro _ _ rfl
    refine keeps_monotonic (.inr rfl) fun now => ?_
    dsimp only
    split
    · exact keeps_giveBack _
    · refine wp_bind.mpr (wp_mono (keeps_submitRagJob job) fun r hold hr => ?_)
      cases r <;> exact hr

theorem idles_startStreamWorker (config : Config) (question model : Text) (ragMode : RagMode) :
    Idles (startStreamWorker config question model ragMode) := by
  unfold startStreamWorker
  refine keeps_monotonic (.inl rfl) fun started => ?_
  refine keeps_bind (keeps_waitForCapacity _) ?_
  rintro _ _ rfl
  refine keeps_monotonic (.inr rfl) fun now => ?_
  dsimp only
  split
  · exact keeps_giveBack _
  · refine wp_bind.mpr (wp_mono (keeps_submitRagJob _) fun r hold hr => ?_)
    cases r <;> exact hr

/-! ## The requests -/

theorem idles_runRagWithTimeout (question model : Text) (ragMode : RagMode) (timeout : ℚ) :
    Idles (runRagWithTimeout question model ragMode timeout) := by
  unfold runRagWithTimeout
  refine (idles_acquireAndSubmit _ timeout).bind fun submitted => ?_
  refine Idles.tryCatch (Idles.bind (.call rfl) fun _ => .ret _) fun e => ?_
  split
  · exact Idles.bind (.call rfl) fun _ => .ret _
  split
  · exact Idles.bind (.call rfl) fun _ => .ret _
  · exact .ret _

theorem idles_retrieve (config : Config) (internalToken : Option Text) (token query : Text)
    (limit : ℤ) : Idles (retrieve config internalToken token query limit) := by
  unfold retrieve
  refine Idles.bind (.ret _) fun _ => ?_
  refine (idles_acquireAndSubmit _ _).bind fun submitted => ?_
  refine Idles.bind (Idles.tryCatch (.call rfl) fun e => ?_) fun _ => .ret _
  split
  · exact .ret _
  split
  · exact .ret _
  · exact .ret _

theorem idles_emit (chunk : Text) : Idles (call (.emit chunk)) :=
  .call rfl

theorem idles_streamItems (config : Config) (chunk : Text → Text) (iterations : ℕ) :
    Idles (streamItems config chunk iterations) := by
  induction iterations with
  | zero => exact .ret _
  | succ iterations ih =>
    refine Idles.bind (.call rfl) fun (item : Item) => ?_
    cases item with
    | done => exact .ret _
    | exn e => exact (idles_emit _).bind fun _ => .ret _
    | text text => exact (idles_emit _).bind fun _ => ih

theorem idles_emitStop (requestId : Text) (created : ℤ) (model : Text) :
    Idles (emitStop requestId created model) :=
  (idles_emit _).bind fun _ => (idles_emit _).bind fun _ => .ret _

theorem idles_streamQueueEvents (config : Config) (chunk : Text → Text) (iterations : ℕ) :
    Idles (streamQueueEvents config chunk iterations) := by
  refine Idles.tryCatch (idles_streamItems config chunk iterations) fun e => ?_
  split
  · exact (Idles.call rfl).bind fun _ => (idles_emit _).bind fun _ => .ret _
  · exact .ret _

theorem idles_endStream (httpRequest : Bool) : Idles (endStream httpRequest) := by
  refine (Idles.call rfl).bind fun _ => ?_
  split
  · refine (Idles.call rfl).bind fun _ => (Idles.call rfl).tryCatch fun e => ?_
    split <;> exact .ret _
  · exact .ret _

theorem idles_ragStreamResponse (config : Config) (question model : Text) (ragMode : RagMode)
    (httpRequest : Bool) (iterations : ℕ) :
    Idles (ragStreamResponse config question model ragMode httpRequest iterations) := by
  unfold ragStreamResponse
  refine Idles.bind (.call rfl) fun uuid => Idles.bind (.call rfl) fun created => ?_
  refine Idles.bind (Idles.tryCatch ((idles_startStreamWorker config question model ragMode).bind
    fun _ => .ret _) fun e => ?_) fun started => ?_
  · split <;> exact .ret _
  split
  · refine Idles.bind ?_ fun _ => ?_
    · cases httpRequest with
      | true => exact Idles.call (c := .createDisconnectTask) rfl
      | false => exact .ret _
    · exact ((idles_streamQueueEvents config _ _).finallyDo (idles_endStream _)).bind
        fun _ => idles_emitStop _ _ _
  · exact (idles_emit _).bind fun _ => idles_emitStop _ _ _

/-- Whatever its calls are answered, a request keeps the order. -/
theorem idles_program (config : Config) (endpoint : Endpoint) : Idles (endpoint.program config) := by
  cases endpoint with
  | chat question model ragMode timeout =>
    exact (idles_runRagWithTimeout question model ragMode timeout).bind fun _ => .ret _
  | streamingChat question model ragMode httpRequest iterations =>
    exact idles_ragStreamResponse config question model ragMode httpRequest iterations
  | retrieve internalToken token query limit =>
    exact (idles_retrieve config internalToken token query limit).bind fun _ => .ret _

/-! ## The invariant -/

/-- Where one permit is. -/
def Hold.count (hold : Hold) : ℕ := if hold = .holding then 1 else 0

/-- A call in order moves a permit, and neither makes one nor loses one. -/
theorem conserved_serves {capacity capacity' : Capacity} {o : Except Exn (Reply c)}
    (hguard : Guarded c hold) (hserves : Serves capacity c o capacity') :
    capacity'.permits + (hold.after c o).count + capacity'.jobs.length =
      capacity.permits + hold.count + capacity.jobs.length := by
  cases o with
  | error e =>
    have hsame : capacity' = capacity ∧ hold.after c (.error e) = hold := by
      cases c <;> exact ⟨hserves, rfl⟩
    rw [hsame.1, hsame.2]
  | ok a =>
    cases c with
    | acquire timeout =>
      obtain rfl : hold = .idle := hguard
      obtain ⟨hpermits, rfl⟩ := hserves
      simp only [Hold.after, Hold.count, if_true, reduceCtorEq, if_false]
      omega
    | release =>
      obtain rfl : hold = .holding := hguard
      obtain rfl : capacity' = _ := hserves
      simp [Hold.after, Hold.count]
    | runInExecutor job =>
      obtain rfl : hold = .holding := hguard
      obtain ⟨-, rfl⟩ := hserves
      simp only [Hold.after, Hold.count, if_true, reduceCtorEq, if_false, List.length_cons]
      omega
    | addDoneCallback future =>
      obtain rfl : hold = .submitted future := hguard
      obtain rfl : capacity' = _ := hserves
      simp [Hold.after, Hold.count]
    | _ =>
      obtain rfl : capacity' = capacity := hserves
      rfl

structure Server.Inv (config : Config) (s : Server) : Prop where
  conserved : s.permits + s.holding + s.jobs.length = config.settings.ragConcurrencyLimit.toNat
  requests : ∀ r ∈ s.requests, Keeps r.rest (fun _ hold => hold = .idle) r.hold
  /-- A job whose callback is missing was submitted by a request that is about to add it. -/
  callbacks : ∀ job ∈ s.jobs, job.callback = false → ∃ r ∈ s.requests, r.hold = .submitted job.future

variable {config : Config} {s s' : Server}

theorem Server.inv_start : (Server.start config).Inv config :=
  ⟨rfl, fun _ hr => (List.not_mem_nil hr).elim, fun _ hjob => (List.not_mem_nil hjob).elim⟩

theorem Server.holding_split {before after : List Request} {r : Request}
    (hrequests : s.requests = before ++ r :: after) :
    s.holding = before.countP (fun r => r.hold = .holding) + r.hold.count +
      after.countP (fun r => r.hold = .holding) := by
  rw [Server.holding, hrequests, List.countP_append, List.countP_cons, Hold.count]
  simp only [decide_eq_true_eq]
  omega

/-- A job without a callback: the request is about to add it, or another one is. -/
theorem callbacks_serves {capacity capacity' : Capacity} {o : Except Exn (Reply c)}
    (hguard : Guarded c hold) (hserves : Serves capacity c o capacity') {job : JobInFlight}
    (hjob : job ∈ capacity'.jobs) (hcallback : job.callback = false) :
    hold.after c o = .submitted job.future ∨
      job ∈ capacity.jobs ∧ hold ≠ .submitted job.future := by
  have hsame : capacity' = capacity → hold.after c o = hold →
      hold.after c o = .submitted job.future ∨
        job ∈ capacity.jobs ∧ hold ≠ .submitted job.future := by
    rintro rfl hafter
    rw [hafter]
    exact or_iff_not_imp_left.mpr fun hne => ⟨hjob, hne⟩
  cases o with
  | error e => cases c <;> exact hsame hserves rfl
  | ok a =>
    cases c with
    | acquire timeout =>
      obtain rfl : hold = .idle := hguard
      obtain ⟨-, rfl⟩ := hserves
      exact .inr ⟨hjob, nofun⟩
    | release =>
      obtain rfl : hold = .holding := hguard
      obtain rfl : capacity' = _ := hserves
      exact .inr ⟨hjob, nofun⟩
    | runInExecutor _ =>
      obtain rfl : hold = .holding := hguard
      obtain ⟨-, rfl⟩ := hserves
      rcases List.mem_cons.mp hjob with rfl | hjob
      · exact .inl rfl
      · exact .inr ⟨hjob, nofun⟩
    | addDoneCallback future =>
      obtain rfl : hold = .submitted future := hguard
      obtain rfl : capacity' = _ := hserves
      obtain ⟨job', hjob', hmap⟩ := List.mem_map.mp hjob
      split at hmap
      · subst hmap
        cases hcallback
      · next hother =>
        subst hmap
        exact .inr ⟨hjob', fun hhold => hother (Hold.submitted.inj hhold).symm⟩
    | _ => exact hsame hserves rfl

theorem Server.Inv.step (hinv : s.Inv config) (hstep : Server.Step config s s') : s'.Inv config := by
  cases hstep with
  | arrive endpoint =>
    refine ⟨?_, fun r hr => ?_, fun job hjob hcallback => ?_⟩
    · have hcount : Server.holding { s with requests := s.requests ++ [⟨endpoint.program config, .idle⟩] } =
          s.holding := by simp [Server.holding, List.countP_append]
      rw [hcount]
      exact hinv.conserved
    · rcases List.mem_append.mp hr with hr | hr
      · exact hinv.requests r hr
      · obtain rfl := List.mem_singleton.mp hr
        exact idles_program config endpoint
    · obtain ⟨r, hr, hhold⟩ := hinv.callbacks job hjob hcallback
      exact ⟨r, List.mem_append_left _ hr, hhold⟩
  | @serve before after c k hold o capacity hrequests hpossible hserves =>
    have hmem : (⟨.call c k, hold⟩ : Request) ∈ s.requests := by simp [hrequests]
    obtain ⟨hguard, hrest⟩ := hinv.requests _ hmem
    refine ⟨?_, fun r hr => ?_, fun job hjob hcallback => ?_⟩
    · have hbefore := hinv.conserved
      have hmoved := conserved_serves hguard hserves
      rw [Server.holding_split hrequests] at hbefore
      rw [Server.holding_split rfl]
      dsimp only at hbefore hmoved ⊢
      omega
    · rcases List.mem_append.mp hr with hr | hr
      · exact hinv.requests r (by simp [hrequests, hr])
      · rcases List.mem_cons.mp hr with rfl | hr
        · exact hrest o _ ⟨hpossible, rfl⟩
        · exact hinv.requests r (by simp [hrequests, hr])
    · rcases callbacks_serves hguard hserves hjob hcallback with hhold | ⟨hjob, hother⟩
      · exact ⟨⟨k o, hold.after c o⟩, by simp, hhold⟩
      · obtain ⟨r, hr, hhold⟩ := hinv.callbacks job hjob hcallback
        rw [hrequests] at hr
        rcases List.mem_append.mp hr with hr | hr
        · exact ⟨r, by simp [hr], hhold⟩
        · rcases List.mem_cons.mp hr with rfl | hr
          · exact absurd hhold hother
          · exact ⟨r, by simp [hr], hhold⟩
  | @jobEnds future hjob =>
    refine ⟨?_, hinv.requests, fun job hmem hcallback => ?_⟩
    · have hbefore := hinv.conserved
      have hlength := List.length_erase_of_mem hjob
      have hpos := List.length_pos_of_mem hjob
      have hsame : Server.holding { s with
          jobs := s.jobs.erase ⟨future, true⟩
          permits := s.permits + 1 } = s.holding := rfl
      rw [hsame]
      dsimp only
      omega
    · exact hinv.callbacks job (List.mem_of_mem_erase hmem) hcallback

theorem Server.inv_run (hrun : Relation.ReflTransGen (Server.Step config) (Server.start config) s) :
    s.Inv config := by
  induction hrun with
  | refl => exact Server.inv_start
  | tail _ hstep ih => exact ih.step hstep

/-- In every state of every run the free permits, the permits of requests and the jobs in flight add
up to the limit. Once every request has finished, every job in flight has its callback, and once the
jobs have ended too, all permits are free. -/
theorem ragCapacity_conserved (config : Config) (s : Server)
    (hrun : Relation.ReflTransGen (Server.Step config) (Server.start config) s) :
    ((s.permits + s.holding + s.jobs.length : ℕ) : ℤ) = config.settings.ragConcurrencyLimit ∧
      (s.jobs.length : ℤ) ≤ config.settings.ragConcurrencyLimit ∧
      (s.Finished → ∀ job ∈ s.jobs, job.callback = true) ∧
      (s.Finished → s.jobs = [] → (s.permits : ℤ) = config.settings.ragConcurrencyLimit) := by
  have hinv := Server.inv_run hrun
  have hlimit : (config.settings.ragConcurrencyLimit.toNat : ℤ) = config.settings.ragConcurrencyLimit :=
    Int.toNat_of_nonneg config.accepted.ragConcurrencyLimit_pos.le
  have hidle : s.Finished → ∀ r ∈ s.requests, r.hold = .idle := by
    intro hfinished r hr
    obtain ⟨result, hresult⟩ := hfinished r hr
    have hrest := hinv.requests r hr
    rw [hresult] at hrest
    exact hrest
  have hconserved := hinv.conserved
  refine ⟨by omega, by omega, fun hfinished job hjob => ?_, fun hfinished hjobs => ?_⟩
  · by_contra hcallback
    obtain ⟨r, hr, hhold⟩ := hinv.callbacks job hjob (Bool.not_eq_true _ ▸ hcallback)
    rw [hidle hfinished r hr] at hhold
    cases hhold
  · have hnone : s.holding = 0 := by
      rw [Server.holding, List.countP_eq_zero]
      intro r hr
      rw [hidle hfinished r hr]
      decide
    rw [hjobs, List.length_nil] at hconserved
    omega

/-! ## Example -/

/-- A step of the only request. -/
theorem Server.step_only {capacity capacity' : Capacity} {k : Except Exn (Reply c) → App Unit}
    {o : Except Exn (Reply c)} (hpossible : Possible c o) (hserves : Serves capacity c o capacity') :
    Server.Step config ⟨capacity, [⟨.call c k, hold⟩]⟩ ⟨capacity', [⟨k o, hold.after c o⟩]⟩ := by
  have hsplit : (⟨capacity, [⟨.call c k, hold⟩]⟩ : Server).requests = [] ++ ⟨.call c k, hold⟩ :: [] :=
    rfl
  exact .serve hsplit hpossible hserves

/-- The default settings. -/
def Config.sample : Config := ⟨{}, defaults_accepted⟩

/-- The answer came too late, and the job has ended. -/
def sampleServer : Server where
  permits := 4
  jobs := []
  requests := [⟨.ret (.error (.http 504 "RAG pipeline timed out while generating an answer.".toList)), .idle⟩]

/-- A chat request that times out while its job runs; then the job ends. -/
theorem ragCapacity_conserved_sample : (sampleServer.permits : ℤ) = 4 := by
  have hrun : Relation.ReflTransGen (Server.Step .sample) (Server.start .sample) sampleServer := by
    refine .head (.arrive (.chat [] [] .augmented 240)) ?_
    refine .head (Server.step_only (c := .monotonic) (o := .ok (0 : ℚ)) trivial rfl) ?_
    refine .head (Server.step_only (c := .acquire 240) (o := .ok ()) trivial ⟨by decide, rfl⟩) ?_
    refine .head (Server.step_only (c := .monotonic) (o := .ok (0 : ℚ)) trivial rfl) ?_
    have hremaining : ¬ (240 - (0 - 0) : ℚ) ≤ 0 := by decide +kernel
    change Relation.ReflTransGen _
      (⟨_, [⟨Prog.bind (Prog.bind (if (240 - (0 - 0) : ℚ) ≤ 0 then _ else _) _) _, _⟩]⟩ : Server) _
    rw [if_neg hremaining]
    have hsubmit : Serves ⟨3, []⟩ (.runInExecutor (.ask [] [] .augmented)) (.ok (0 : ℕ))
        ⟨3, [⟨0, false⟩]⟩ := ⟨fun _ hjob => (List.not_mem_nil hjob).elim, rfl⟩
    refine .head (Server.step_only trivial hsubmit) ?_
    refine .head (Server.step_only (c := .addDoneCallback 0) (o := .ok ()) trivial rfl) ?_
    refine .head (Server.step_only (c := .waitAnswer 0 (240 - (0 - 0))) (o := .error .timeout) trivial rfl) ?_
    refine .head (Server.step_only (c := .setCancelEvent) (o := .ok ()) trivial rfl) ?_
    have hjob : (⟨0, true⟩ : JobInFlight) ∈ [⟨0, true⟩] := List.mem_singleton_self _
    exact .single (.jobEnds (s := ⟨⟨3, [⟨0, true⟩]⟩, sampleServer.requests⟩) hjob)
  refine (ragCapacity_conserved .sample sampleServer hrun).2.2.2 (fun r hr => ?_) rfl
  obtain rfl := List.mem_singleton.mp hr
  exact ⟨_, rfl⟩

end LocalRag.ApiServer
