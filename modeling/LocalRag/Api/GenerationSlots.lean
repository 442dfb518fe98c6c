-- SUMMARY: Generation slots are conserved: no more generations than the limit are with Ollama, and every slot comes back.
import LocalRag.Api.QueryRag
import LocalRag.Base.Preserves
import LocalRag.Base.Threads
import Mathlib.Data.List.Count

/-!
# Generation slots

Every job takes at most one slot at a time. Whatever happens between taking and
returning it, a job returns its slot once, so that the bounded semaphore is never
released beyond its bound.
-/

namespace LocalRag.Rag

open PyText Effects

/-! ## Jobs on the slots -/

/-- What a job does with a slot. -/
inductive SlotNote where
  | idle
  | held
  /-- `release` has raised `ValueError`. -/
  | over
  deriving DecidableEq

def SlotNote.noted (note : SlotNote) : (c : Call) → Except Exn (Reply c) → SlotNote
  | .acquireSlot _, .ok true => .held
  | .releaseSlot, .ok _ => .idle
  | .releaseSlot, .error _ => .over
  | _, _ => note

/-- What a call does to the value of the bounded semaphore. All other calls may be answered in any
way. -/
def SlotAnswers (limit : ℕ) : Answers RagIface Exn ℕ := fun c free o free' =>
  match c, o with
  | .acquireSlot _, .ok true => 0 < free ∧ free' = free - 1
  | .releaseSlot, .ok _ => free < limit ∧ free' = free + 1
  | .releaseSlot, .error _ => limit ≤ free ∧ free' = free
  | _, _ => free' = free

inductive RagJob where
  | generate (cancel : Bool) (prompt model : Text) (timeout : ℚ)
  | streamGenerate (cancel : Bool) (prompt model : Text) (timeout : ℚ)
  | ask (cancel : Bool) (question model : Text) (ragMode : RagMode)
  | askStreamSync (cancel : Bool) (question model : Text) (ragMode : RagMode)

/-- The program of a job, with a bound on its rounds. -/
def RagJob.program (settings : Settings) (loads : Text → Option Json) (rounds : ℕ) :
    RagJob → RagProg Unit
  | .generate cancel prompt model timeout => do
    let _ ← Rag.generate settings cancel prompt model timeout rounds
  | .streamGenerate cancel prompt model timeout =>
    Rag.streamGenerate settings loads cancel prompt model timeout rounds rounds
  | .ask cancel question model ragMode => do
    let _ ← Rag.ask settings cancel question model ragMode rounds
  | .askStreamSync cancel question model ragMode =>
    Rag.askStreamSync settings loads cancel question model ragMode rounds rounds

/-- The jobs of a process, with `_generation_slots` as it is first. -/
def ragJobs (settings : Settings) (loads : Text → Option Json) : Scheduler RagIface Exn ℕ SlotNote where
  answers := SlotAnswers settings.generationConcurrencyLimit.toNat
  starts prog := ∃ job rounds, prog = RagJob.program settings loads rounds job
  fresh := .idle
  noted := SlotNote.noted

abbrev Jobs := Effects.Threads RagIface Exn ℕ SlotNote

/-- The jobs that hold a slot. -/
def holders (notes : List SlotNote) : ℕ := notes.count .held

/-- A call with which Ollama works on a generation. -/
def Call.generates : Call → Bool
  | .post path _ _ => path = generatePath
  | .openStream _ _ _ | .nextLine => true
  | _ => false

def Call.releases : Call → Bool
  | .releaseSlot => true
  | _ => false

/-- The job is in a call. -/
def inCall (p : Call → Bool) (t : Thread RagIface Exn SlotNote) : Bool :=
  match t.rest with
  | .ret _ => false
  | .call c _ => p c

def Jobs.holding (s : Jobs) : ℕ := holders (s.threads.map Thread.note)

def Jobs.Finished (s : Jobs) : Prop := ∀ t ∈ s.threads, ∃ r, t.rest = .ret r

/-! ## What a job does with its slot -/

/-- A slot is taken, used and returned in order. -/
def SlotGuard : Call → SlotNote → Prop
  | .acquireSlot _, note => note = .idle
  | .releaseSlot, note => note = .held
  | c, note => c.generates = true → note = .held

variable {settings : Settings} {loads : Text → Option Json} {α β : Type} {c : Call} {note : SlotNote}

/-- What is left of a job keeps the order. -/
abbrev KeepsSlot (settings : Settings) (loads : Text → Option Json) (prog : RagProg α)
    (Q : Except Exn α → SlotNote → Prop) (note : SlotNote) : Prop :=
  wp (ragJobs settings loads).noting SlotGuard prog Q note

/-- A program that neither takes nor returns a slot. -/
abbrev Stays (settings : Settings) (loads : Text → Option Json) (note : SlotNote)
    (prog : RagProg α) : Prop :=
  Preserves (ragJobs settings loads).noting SlotGuard (fun note' => note' = note) prog

theorem keepsSlot_call {Q : Except Exn (Reply c) → SlotNote → Prop} (hguard : SlotGuard c note)
    (hQ : ∀ o, Q o (note.noted c o)) : KeepsSlot settings loads (call c) Q note := by
  refine wp_lift.mpr ⟨hguard, ?_⟩
  rintro o note' ⟨-, rfl⟩
  exact hQ o

/-- A call that has nothing to do with slots. -/
def Call.slotless : Call → Bool
  | .acquireSlot _ | .releaseSlot => false
  | _ => true

/-- A program whose calls have nothing to do with slots, and are not made without one where they
generate. -/
theorem stays_of_calls {prog : RagProg α}
    (h : prog.Calls fun c : Call => c.slotless = true ∧ (c.generates = true → note = .held)) :
    Stays settings loads note prog := by
  refine h.preserves ?_ ?_
  · rintro c _ ⟨hc, hguard⟩ rfl
    cases c <;> first | exact hguard | cases hc
  · rintro c _ o _ ⟨hc, -⟩ rfl ⟨-, rfl⟩
    cases c <;> cases o <;> first | rfl | cases hc

theorem stays_call (hc : c.slotless = true) (hguard : c.generates = true → note = .held) :
    Stays settings loads note (call c) := stays_of_calls (.lift ⟨hc, hguard⟩)

theorem stays_isCancelled (cancel : Bool) : Stays settings loads note (isCancelled cancel) :=
  stays_of_calls (calls_isCancelled ⟨rfl, nofun⟩)

theorem stays_postWithRetry (cancel : Bool) (payload : Json) (timeout : ℚ) :
    Stays settings loads .held (postWithRetry settings cancel generatePath payload timeout) :=
  stays_of_calls (calls_postWithRetry ⟨rfl, nofun⟩ ⟨rfl, fun _ => rfl⟩ ⟨rfl, nofun⟩)

/-- The slot is the job's when the wait is over. -/
theorem keepsSlot_waitForSlot (cancel : Bool) (timeout : ℚ) (polls : ℕ) :
    KeepsSlot settings loads (waitForSlot cancel timeout polls)
      (onOk (fun _ note => note = .held) fun _ note => note = .idle) .idle := by
  have hmonotonic : Stays settings loads .idle (call .monotonic) := stays_call rfl nofun
  refine hmonotonic.wp_bind rfl ?_ fun _ _ hnote => hnote
  rintro (start : ℚ) _ rfl
  refine wp_loop (fun _ (_ : Unit) note => note = SlotNote.idle) ?_ (fun _ _ hnote => hnote) rfl
  rintro left _ _ rfl
  refine (stays_isCancelled cancel).wp_bind rfl ?_ fun _ _ hnote => hnote
  rintro cancelled _ rfl
  dsimp only
  split
  · rfl
  refine hmonotonic.wp_bind rfl ?_ fun _ _ hnote => hnote
  rintro (now : ℚ) _ rfl
  split
  · rfl
  refine wp_bind.mpr (keepsSlot_call rfl fun o => ?_)
  cases o with
  | error e => rfl
  | ok acquired => cases acquired <;> rfl

/-- A slot that is taken is returned, whatever the body does with it. -/
theorem keepsSlot_withGenerationSlot {cancel : Bool} {timeout : ℚ} {polls : ℕ} {body : RagProg α}
    (hbody : Stays settings loads .held body) :
    KeepsSlot settings loads (withGenerationSlot cancel timeout polls body)
      (onOk (fun _ note => note = .idle) fun _ note => note ≠ .held) .idle := by
  refine wp_bind.mpr (wp_mono (keepsSlot_waitForSlot cancel timeout polls) fun r note hr => ?_)
  cases r with
  | error e =>
    obtain rfl : note = .idle := hr
    exact nofun
  | ok _ =>
    obtain rfl : note = .held := hr
    refine wp_finallyDo.mpr (wp_mono (hbody .held rfl) ?_)
    rintro r _ rfl
    refine keepsSlot_call rfl fun o => ?_
    cases o with
    | error e => exact nofun
    | ok _ => cases r with
      | ok a => rfl
      | error e => exact nofun

/-- A job has returned its slot where it ends. -/
abbrev Returns (settings : Settings) (loads : Text → Option Json) (prog : RagProg α) : Prop :=
  KeepsSlot settings loads prog (onOk (fun _ note => note = .idle) fun _ note => note ≠ .held) .idle

theorem returns_of_stays {prog : RagProg α} (h : Stays settings loads .idle prog) :
    Returns settings loads prog := by
  refine wp_mono (h .idle rfl) ?_
  rintro r _ rfl
  cases r with
  | ok a => rfl
  | error e => exact nofun

theorem Returns.bind {prog : RagProg α} {f : α → RagProg β} (h : Returns settings loads prog)
    (hf : ∀ a, Returns settings loads (f a)) : Returns settings loads (prog >>= f) := by
  refine wp_bind.mpr (wp_mono h fun r note hr => ?_)
  cases r with
  | ok a =>
    obtain rfl : note = .idle := hr
    exact hf a
  | error e => exact hr

theorem returns_generate (cancel : Bool) (prompt model : Text) (timeout : ℚ) (polls : ℕ) :
    Returns settings loads (generate settings cancel prompt model timeout polls) :=
  Returns.bind (keepsSlot_withGenerationSlot (stays_postWithRetry cancel _ timeout)) fun _ =>
    returns_of_stays (.ret _)

theorem stays_streamLines (cancel : Bool) (status lines : ℕ) :
    Stays settings loads .held (streamLines loads cancel status lines) :=
  stays_of_calls (calls_streamLines ⟨rfl, nofun⟩ ⟨rfl, fun _ => rfl⟩ fun _ => ⟨rfl, nofun⟩)

theorem returns_streamGenerate (cancel : Bool) (prompt model : Text) (timeout : ℚ) (polls lines : ℕ) :
    Returns settings loads (streamGenerate settings loads cancel prompt model timeout polls lines) := by
  refine keepsSlot_withGenerationSlot ?_
  refine Preserves.bind (stays_call rfl fun _ => rfl) fun (status : ℕ) => ?_
  exact (stays_streamLines cancel status lines).finallyDo (stays_call rfl nofun)

theorem stays_prepareQuery (question : Text) (ragMode : RagMode) :
    Stays settings loads .idle (prepareQuery question ragMode) := by
  refine Preserves.bind (Preserves.tryCatch (Preserves.bind (stays_call rfl nofun) fun _ => .ret _)
    fun e => ?_) fun _ => .ret _
  cases e <;> exact .ret _

theorem returns_ask (cancel : Bool) (question model : Text) (ragMode : RagMode) (polls : ℕ) :
    Returns settings loads (ask settings cancel question model ragMode polls) := by
  refine (returns_of_stays (stays_isCancelled cancel)).bind fun cancelled => ?_
  split
  · exact returns_of_stays (.ret _)
  refine (returns_of_stays (stays_prepareQuery question ragMode)).bind fun prepared => ?_
  cases prepared with
  | directReply text => exact returns_of_stays (.ret _)
  | promptQuery prompt sources =>
    refine (returns_of_stays (stays_isCancelled cancel)).bind fun cancelled => ?_
    split
    · exact returns_of_stays (.ret _)
    refine (returns_generate cancel _ model _ polls).bind fun _ => ?_
    exact returns_of_stays (.bind (.ret _) fun _ => .ret _)

theorem returns_askStreamSync (cancel : Bool) (question model : Text) (ragMode : RagMode)
    (polls lines : ℕ) :
    Returns settings loads (askStreamSync settings loads cancel question model ragMode polls lines) := by
  refine (returns_of_stays (stays_isCancelled cancel)).bind fun cancelled => ?_
  split
  · exact returns_of_stays (.ret _)
  refine (returns_of_stays (stays_prepareQuery question ragMode)).bind fun prepared => ?_
  cases prepared with
  | directReply text =>
    exact returns_of_stays (.bind (stays_call (c := .emit _) rfl nofun) fun _ => .ret _)
  | promptQuery prompt sources =>
    refine (returns_streamGenerate cancel prompt model _ polls lines).bind fun _ => ?_
    refine (returns_of_stays (stays_isCancelled cancel)).bind fun cancelled => ?_
    split
    · exact returns_of_stays (.ret _)
    split
    · exact returns_of_stays (.ret _)
    · exact returns_of_stays (.bind (stays_call (c := .emit _) rfl nofun) fun _ => .ret _)

theorem returns_program (job : RagJob) (rounds : ℕ) :
    Returns settings loads (job.program settings loads rounds) := by
  cases job with
  | generate cancel prompt model timeout =>
    exact (returns_generate cancel prompt model timeout rounds).bind fun _ => returns_of_stays (.ret _)
  | streamGenerate cancel prompt model timeout =>
    exact returns_streamGenerate cancel prompt model timeout _ _
  | ask cancel question model ragMode =>
    exact (returns_ask cancel question model ragMode rounds).bind fun _ => returns_of_stays (.ret _)
  | askStreamSync cancel question model ragMode =>
    exact returns_askStreamSync cancel question model ragMode _ _

/-! ## The invariant -/

theorem holders_append (before : List SlotNote) (note : SlotNote) (after : List SlotNote) :
    holders (before ++ note :: after) = holders before + holders after + if note = .held then 1 else 0 := by
  rw [holders, List.count_append, List.count_cons, holders, holders]
  simp only [beq_iff_eq]
  omega

/-- A call in order moves a slot, and neither makes one nor loses one. -/
theorem conserved_answers {limit free free' : ℕ} {o : Except Exn (Reply c)}
    {before after : List SlotNote}
    (hguard : SlotGuard c note) (hanswers : SlotAnswers limit c free o free')
    (hconserved : free + holders (before ++ note :: after) = limit) :
    free' + holders (before ++ note.noted c o :: after) = limit := by
  rw [holders_append] at hconserved ⊢
  have hsame : free' = free → note.noted c o = note →
      free' + (holders before + holders after + if note.noted c o = .held then 1 else 0) = limit := by
    rintro rfl hnote
    rw [hnote]
    exact hconserved
  cases o with
  | error e =>
    cases c with
    | releaseSlot =>
      obtain rfl : note = .held := hguard
      obtain ⟨hfull, -⟩ := hanswers
      rw [if_pos rfl] at hconserved
      omega
    | _ => exact hsame hanswers rfl
  | ok a =>
    cases c with
    | acquireSlot timeout =>
      cases a with
      | false => exact hsame hanswers rfl
      | true =>
        obtain rfl : note = .idle := hguard
        obtain ⟨hfree, rfl⟩ := hanswers
        simp only [reduceCtorEq, if_false] at hconserved
        simp only [SlotNote.noted, if_true]
        omega
    | releaseSlot =>
      obtain rfl : note = .held := hguard
      obtain ⟨-, rfl⟩ := hanswers
      simp only [if_true] at hconserved
      simp only [SlotNote.noted, reduceCtorEq, if_false]
      omega
    | _ => exact hsame hanswers rfl

/-- What the threads of a run satisfy. -/
theorem jobs_inv {limit : ℕ} {s : Jobs} (hlimit : limit = settings.generationConcurrencyLimit.toNat)
    (hrun : (ragJobs settings loads).Run limit s) :
    s.shared + s.holding = limit ∧ ∀ t ∈ s.threads,
      wp (ragJobs settings loads).noting SlotGuard t.rest (fun _ note => note ≠ .held) t.note := by
  subst hlimit
  refine Scheduler.run_inv (J := fun free notes =>
    free + holders notes = settings.generationConcurrencyLimit.toNat) ?_ rfl ?_ ?_ hrun
  · rintro _ ⟨job, rounds, rfl⟩
    refine wp_mono (returns_program job rounds) fun r note hr => ?_
    cases r with
    | ok a =>
      obtain rfl : note = .idle := hr
      exact nofun
    | error e => exact hr
  · intro free notes hconserved
    have hidle : (ragJobs settings loads).fresh ≠ .held := nofun
    rw [holders_append, if_neg hidle]
    exact hconserved
  · intro c free o free' before note after hguard hanswers hconserved
    exact conserved_answers hguard hanswers hconserved

/-- A job that is in a call of a kind that only the holder of a slot makes. -/
theorem held_of_inCall {p : Call → Bool} (hp : ∀ c note, p c = true → SlotGuard c note → note = .held)
    {t : Thread RagIface Exn SlotNote} {Q : SlotNote → Prop}
    (hrest : wp (ragJobs settings loads).noting SlotGuard t.rest (fun _ => Q) t.note)
    (hcall : inCall p t = true) : t.note = .held := by
  obtain ⟨rest, note⟩ := t
  cases rest with
  | ret r => cases hcall
  | call c k => exact hp c note hcall hrest.1

theorem held_of_generates (c : Call) (note : SlotNote) (hc : c.generates = true)
    (hguard : SlotGuard c note) :
    note = .held := by
  cases c <;> first | exact hguard hc | cases hc

/-- In every state of every run the free slots and the slots that jobs hold add up to the limit. No
more generations than the limit are with Ollama, the semaphore is never released beyond its bound, and
once every job has finished all slots are free. -/
theorem generationSlots_conserved (settings : Settings) (haccepted : settings.Accepted)
    (loads : Text → Option Json) (s : Jobs)
    (hrun : (ragJobs settings loads).Run settings.generationConcurrencyLimit.toNat s) :
    ((s.shared + s.holding : ℕ) : ℤ) = settings.generationConcurrencyLimit ∧
      (s.threads.countP (inCall Call.generates) : ℤ) ≤ settings.generationConcurrencyLimit ∧
      ((∃ t ∈ s.threads, inCall Call.releases t = true) →
        (s.shared : ℤ) < settings.generationConcurrencyLimit) ∧
      (s.Finished → (s.shared : ℤ) = settings.generationConcurrencyLimit) := by
  obtain ⟨hconserved, hthreads⟩ := jobs_inv rfl hrun
  have hlimit : (settings.generationConcurrencyLimit.toNat : ℤ) = settings.generationConcurrencyLimit :=
    Int.toNat_of_nonneg haccepted.generationConcurrencyLimit_pos.le
  have hholding : s.holding = s.threads.countP fun t => t.note = .held := by
    rw [Jobs.holding, holders, List.count, List.countP_map]
    rfl
  refine ⟨by omega, ?_, ?_, ?_⟩
  · have hle : s.threads.countP (inCall Call.generates) ≤ s.holding := by
      rw [hholding]
      refine List.countP_mono_left fun t ht hcall => decide_eq_true ?_
      exact held_of_inCall held_of_generates (hthreads t ht) hcall
    omega
  · rintro ⟨t, ht, hcall⟩
    have hheld : t.note = .held := by
      refine held_of_inCall (fun c note hc hguard => ?_) (hthreads t ht) hcall
      cases c <;> first | exact hguard | cases hc
    have hpos : 0 < s.holding := by
      rw [hholding]
      exact List.countP_pos_iff.mpr ⟨t, ht, decide_eq_true hheld⟩
    omega
  · intro hfinished
    have hnone : s.holding = 0 := by
      rw [hholding, List.countP_eq_zero]
      intro t ht
      obtain ⟨r, hr⟩ := hfinished t ht
      simpa using Scheduler.note_of_finished (hthreads t ht) hr
    omega

/-! ## Example -/

/-- A call of the only job. -/
theorem Jobs.step_only {free free' : ℕ} {k : Except Exn (Reply c) → RagProg Unit}
    {o : Except Exn (Reply c)}
    (hanswers : SlotAnswers settings.generationConcurrencyLimit.toNat c free o free') :
    (ragJobs settings loads).Step ⟨free, [⟨.call c k, note⟩]⟩ ⟨free', [⟨k o, note.noted c o⟩]⟩ := by
  have hsplit : (⟨free, [⟨.call c k, note⟩]⟩ : Jobs).threads = [] ++ ⟨.call c k, note⟩ :: [] := rfl
  exact .serve hsplit hanswers

/-- A generation whose request raises has returned its slot. -/
def sampleJobs : Jobs := ⟨1, [⟨.ret (.error .other), .idle⟩]⟩

theorem generationSlots_conserved_sample : (sampleJobs.shared : ℤ) = 1 := by
  have hrun : (ragJobs {} fun _ => none).Run 1 sampleJobs := by
    refine .head (.start ⟨.generate false [] [] 1, 1, rfl⟩) ?_
    refine .head (Jobs.step_only (c := .monotonic) (o := .ok (0 : ℚ)) rfl) ?_
    refine .head (Jobs.step_only (c := .monotonic) (o := .ok (0 : ℚ)) rfl) ?_
    have hremaining : ¬ (1 - (0 - 0) : ℚ) ≤ 0 := by decide +kernel
    change Relation.ReflTransGen _ (⟨_, [⟨Prog.bind (Prog.bind (Prog.bind (Prog.bind
      (if (1 - (0 - 0) : ℚ) ≤ 0 then _ else _) _) _) _) _, _⟩]⟩ : Jobs) _
    rw [if_neg hremaining]
    refine .head (Jobs.step_only (c := .acquireSlot _) (o := .ok true) ⟨by decide, rfl⟩) ?_
    refine .head (Jobs.step_only (c := .post _ _ _) (o := .error .other) rfl) ?_
    exact .single (Jobs.step_only (c := .releaseSlot) (o := .ok ()) ⟨by decide, rfl⟩)
  exact (generationSlots_conserved {} defaults_accepted _ sampleJobs hrun).2.2.2 fun t ht => by
    obtain rfl := List.mem_singleton.mp ht
    exact ⟨_, rfl⟩

end LocalRag.Rag
