-- SUMMARY: From a chat request to the model: what the job of a request sends to Ollama.
import LocalRag.Api.Grounding
import LocalRag.Web.ChatRequests

/-!
# From a chat request to the model

The endpoint picks the question, the job asks retrieval about it, and the prompt is made
of both. What the model is asked can be traced back to the message of the user.
-/

namespace LocalRag.ApiServer

open PyText Effects

/-! ## Jobs -/

/-- What a job of the executor runs. It is given the cancel event. -/
def Job.ragJob : Job → Option Rag.RagJob
  | .ask question model ragMode => some (.ask true question model ragMode)
  | .streamRun question model ragMode => some (.askStreamSync true question model ragMode)
  | .retrieveBest _ _ => none

variable {settings : Settings} {req : ChatRequest settings} {question : Text} {ragJob : Rag.RagJob}

theorem asks_job (h : (req.job question).ragJob = some ragJob) :
    ragJob.Asks ⟨question, req.model, resolveRagMode req⟩ := by
  unfold ChatRequest.job at h
  split at h
  · obtain rfl := Option.some.inj h
    exact ⟨rfl, rfl, rfl⟩
  · obtain rfl := Option.some.inj h
    exact ⟨rfl, rfl, rfl⟩

/-! ## Prompts -/

theorem infix_question {chunks : List Rag.Payload} {ragMode : RagMode} :
    question <:+: Rag.buildPrompt question chunks ragMode := by
  refine ⟨Rag.instructions ragMode ++ "\n\nContext:\n".toList ++
    join "\n\n---\n\n".toList (Rag.enumerated Rag.contextBlock chunks) ++ "\n\nQuestion:\n".toList, ['\n'], ?_⟩
  simp only [Rag.buildPrompt]

/-- Whatever retrieval has answered, the prompt holds the question. -/
theorem infix_of_prepares {q : Rag.Question} {t : Rag.Transcript} {prompt sources : Text}
    (h : q.prepares t (.promptQuery prompt sources)) : q.question <:+: prompt := by
  obtain ⟨chunks, -, hprepared⟩ := h
  rcases chunks with _ | _ | ⟨chunk, chunks⟩
  · rw [Rag.prepared_unavailable] at hprepared
    split at hprepared
    · cases hprepared
    · exact (Rag.Prepared.promptQuery.inj hprepared).1 ▸ List.infix_rfl
  · rw [Rag.prepared_nil] at hprepared
    split at hprepared
    · exact (Rag.Prepared.promptQuery.inj hprepared).1 ▸ List.infix_rfl
    · cases hprepared
  · exact (Rag.Prepared.promptQuery.inj hprepared).1 ▸ infix_question

/-- A request whose handler gets to a job was accepted, and the job is the one for its question. -/
theorem job_of_submitted {config : Config} {req : ChatRequest config.settings} {iterations : ℕ}
    {S : Type} {A : Answers WebIface Exn S} {s s' : S} {job : Job} {k : Except Exn ℕ → App Unit}
    (hsubmits : (serveChat config req iterations).Steps A s (.call (.runInExecutor job) k) s') :
    ∃ message, LatestUser req.messages message ∧ strip message.content.question ≠ [] ∧
      job = req.job (strip message.content.question) := by
  by_cases hasks : ∃ question, Asks config.settings req.messages question
  · obtain ⟨question, hasks⟩ := hasks
    obtain ⟨hvalid, hquestion⟩ := asks_iff.mp hasks
    obtain ⟨message, hlatest, rfl⟩ := hasks.latest
    have hcalls := (calls_serveChat hvalid hquestion).steps hsubmits
    exact ⟨message, hlatest, hasks.not_empty, hcalls.1 job rfl⟩
  · obtain ⟨detail, hrefused⟩ := serveChat_refused (not_exists.mp hasks)
    rw [hrefused] at hsubmits
    cases hsubmits

/-- In every run of a job that a chat request has started, each request for a generation names the
model that the client has chosen, and its prompt holds what the latest message of a user says. In
strict mode it also holds every chunk that retrieval has found, and there is one. -/
theorem chat_reaches_model (config : Config) (req : ChatRequest config.settings) (iterations : ℕ)
    {S : Type} (A : Answers WebIface Exn S) (s s' : S) (job : Job) (k : Except Exn ℕ → App Unit)
    (hsubmits : (serveChat config req iterations).Steps A s (.call (.runInExecutor job) k) s')
    (ragJob : Rag.RagJob) (hjob : job.ragJob = some ragJob) (loads : Text → Option Json) (rounds : ℕ)
    (prog : Rag.RagProg Unit) (t : Rag.Transcript)
    (hrun : (ragJob.program config.settings loads rounds).Steps Rag.hearing {} prog t) :
    ∃ message, LatestUser req.messages message ∧ strip message.content.question ≠ [] ∧
      ∀ payload ∈ t.requests, ∃ prompt stream,
        payload = Rag.generatePayload config.settings req.model prompt stream ∧
        strip message.content.question <:+: prompt ∧
        (resolveRagMode req = .strict → ∃ chunks, t.retrieved = some (some chunks) ∧ chunks ≠ [] ∧
          ∀ block ∈ Rag.enumerated Rag.contextBlock chunks, block <:+: prompt) := by
  obtain ⟨message, hlatest, hempty, rfl⟩ := job_of_submitted hsubmits
  refine ⟨message, hlatest, hempty, fun payload hmem => ?_⟩
  have hkept := Rag.Question.Kept.run (asks_job hjob) hrun
  obtain ⟨prompt, sources, stream, hprepares, rfl⟩ := hkept.requests payload hmem
  refine ⟨prompt, stream, rfl, infix_of_prepares hprepares, fun hstrict => ?_⟩
  obtain ⟨chunks, hretrieved, hchunks, hprompt⟩ := Rag.found_of_strict hstrict hprepares
  refine ⟨chunks, hretrieved, hchunks, fun block hblock => ?_⟩
  rw [hprompt]
  exact Rag.infix_buildPrompt hblock

/-! ## A run -/

/-- Somebody asks in strict mode, and does not stream. -/
def strictRequest : ChatRequest {} :=
  { singleRequest {} defaults_accepted (.text ['?']) with ragMode := some .strict, ragMode_valid := by simp }

/-- A server where every call is answered. -/
def answered : Answers WebIface Exn Unit := fun _ s _ s' => s' = s

theorem sample_submits : ∃ k, (serveChat ⟨{}, defaults_accepted⟩ strictRequest 0).Steps answered ()
    (.call (.runInExecutor (.ask ['?'] ['m'] .strict)) k) () := by
  have hremaining : ¬ (240 - (0 - 0) : ℚ) ≤ 0 := by decide +kernel
  apply Exists.intro
  refine .call (I := WebIface) (c := .monotonic) (o := .ok (0 : ℚ)) rfl ?_
  refine .call (I := WebIface) (c := .acquire _) (o := .ok ()) rfl ?_
  refine .call (I := WebIface) (c := .monotonic) (o := .ok (0 : ℚ)) rfl ?_
  change Prog.Steps answered
    (Prog.bind (Prog.bind (Prog.bind (if (240 - (0 - 0) : ℚ) ≤ 0 then _ else _) _) _) _) _ _ _
  rw [if_neg hremaining]
  exact .refl

/-- A wait that gets its slot at once. -/
theorem sample_slot (t : Rag.Transcript) :
    (Rag.waitForSlot true 120 1).Steps Rag.hearing t (.ret (.ok ())) t := by
  have hremaining : ¬ (120 - (0 - 0) : ℚ) ≤ 0 := by decide +kernel
  refine .call (I := Rag.RagIface) (c := .monotonic) (o := .ok (0 : ℚ)) rfl ?_
  refine .call (I := Rag.RagIface) (c := .isCancelled) (o := .ok false) rfl ?_
  refine .call (I := Rag.RagIface) (c := .monotonic) (o := .ok (0 : ℚ)) rfl ?_
  change Prog.Steps Rag.hearing (Prog.bind (if (120 - (0 - 0) : ℚ) ≤ 0 then _ else _) _) _ _ _
  rw [if_neg hremaining]
  exact .call (I := Rag.RagIface) (c := .acquireSlot _) (o := .ok true) rfl .refl

/-- The job finds a chunk, and the model answers. -/
theorem sample_asks :
    (Rag.RagJob.program {} Rag.sampleLoads 1 (.ask true ['?'] ['m'] .strict)).Steps Rag.hearing {}
    (.ret (.ok ()))
    { retrieved := some (some [Rag.samplePayload])
      requests := [Rag.generatePayload {} ['m'] Rag.samplePrompt false]
      response := some ⟨200, Rag.sampleLoads []⟩ } := by
  let response : Rag.Response := ⟨200, Rag.sampleLoads []⟩
  have hcheck (t : Rag.Transcript) : (Rag.isCancelled true).Steps Rag.hearing t (.ret (.ok false)) t :=
    .call (I := Rag.RagIface) (c := .isCancelled) (o := .ok false) rfl .refl
  have hprepare : (Rag.prepareQuery ['?'] .strict).Steps Rag.hearing {}
      (.ret (.ok (.promptQuery Rag.samplePrompt (Rag.formatSources [Rag.samplePayload]))))
      { retrieved := some (some [Rag.samplePayload]) } :=
    .call (I := Rag.RagIface) (c := .retrieveBest _) (o := .ok [Rag.samplePayload]) rfl .refl
  refine Prog.Steps.bind_ok (a := "Hi".toList ++ Rag.formatSources [Rag.samplePayload]) ?_ .refl
  refine Prog.Steps.bind_ok (hcheck _) (Prog.Steps.bind_ok hprepare ?_)
  refine Prog.Steps.bind_ok (hcheck _) ?_
  refine Prog.Steps.bind_ok (a := Json.str "Hi".toList) (Prog.Steps.bind_ok (a := response) ?_ .refl) .refl
  refine Prog.Steps.bind_ok (sample_slot _) ?_
  refine .call (I := Rag.RagIface) (c := .isCancelled) (o := .ok false) rfl ?_
  refine .call (I := Rag.RagIface) (c := .post _ _ _) (o := .ok response) rfl ?_
  exact .call (I := Rag.RagIface) (c := .releaseSlot) (o := .ok ()) rfl .refl

theorem chat_reaches_model_sample :
    ∃ message, LatestUser strictRequest.messages message ∧ ∃ prompt stream,
    Rag.generatePayload {} ['m'] Rag.samplePrompt false = Rag.generatePayload {} ['m'] prompt stream ∧
      strip message.content.question <:+: prompt := by
  obtain ⟨k, hsubmits⟩ := sample_submits
  obtain ⟨message, hlatest, -, hrequests⟩ :=
    chat_reaches_model ⟨{}, defaults_accepted⟩ strictRequest 0 answered () () _ k
    hsubmits (.ask true ['?'] ['m'] .strict) rfl Rag.sampleLoads 1 _ _ sample_asks
  obtain ⟨prompt, stream, hpayload, hquestion, -⟩ := hrequests _ (List.mem_singleton.mpr rfl)
  exact ⟨message, hlatest, prompt, stream, hpayload, hquestion⟩

end LocalRag.ApiServer
