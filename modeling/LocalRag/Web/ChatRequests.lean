-- SUMMARY: Chat requests (`web/schemas.py`): their limits, the question that they ask, and the job that `chat` starts for it.
import LocalRag.Api.Retrieval
import LocalRag.Base.Preserves
import LocalRag.Web.ApiServer

/-!
# Chat requests

A request carries a conversation. Before anything is asked of the pipeline, the sizes of
its messages are checked, and then its question: what the latest message of a user says.
-/

namespace LocalRag.ApiServer

open PyText Effects OpenaiCompat

/-! ## Requests -/

inductive Role where
  | user
  | assistant
  | system
  | tool
  deriving DecidableEq

/-- An item is a `dict[str, str]`. -/
abbrev ContentItem := List (Text × Text)

inductive Content where
  | text (text : Text)
  | items (items : List ContentItem)

structure ChatMessage where
  role : Role
  content : Content

/-- `ChatRequest`, within the limits of its fields. -/
structure ChatRequest (settings : Settings) where
  model : Text
  messages : List ChatMessage
  stream : Option Bool := some false
  ragMode : Option RagMode := none
  model_length : 1 ≤ model.length ∧ model.length ≤ settings.maxModelNameChars
  messages_length : 1 ≤ messages.length ∧ messages.length ≤ settings.maxChatMessages
  ragMode_valid : ∀ mode ∈ ragMode, mode = .strict ∨ mode = .augmented

variable (settings : Settings)

/-- `resolve_rag_mode`. -/
def resolveRagMode {settings : Settings} (req : ChatRequest settings) : RagMode :=
  req.ragMode.getD settings.ragMode

/-- `_message_size`. -/
def messageSize : Content → ℕ
  | .text content => content.length
  | .items content => (content.flatMap fun item => item.map fun entry => entry.2.length).sum

def Content.hasTooManyItems : Content → Bool
  | .text _ => false
  | .items content => settings.maxChatContentItems < content.length

/-- `HTTPException(status_code=400, detail=detail)` -/
def Exn.badRequest (detail : String) : Exn := .http 400 detail.toList

/-- The loop of `validate_chat_request`, from a total on. -/
def validateMessages : ℕ → List ChatMessage → Except Exn Unit
  | _, [] => .ok ()
  | totalChars, message :: rest =>
    let size := messageSize message.content
    if size > settings.maxChatMessageChars then .error (.badRequest "Chat message exceeds size limit")
    else
      let totalChars := totalChars + size
      if totalChars > settings.maxChatTotalChars then
        .error (.badRequest "Chat request exceeds total size limit")
      else if message.content.hasTooManyItems settings then
        .error (.badRequest "Structured message has too many items")
      else validateMessages totalChars rest

/-- `validate_chat_request`. -/
def validateChatRequest {settings : Settings} (req : ChatRequest settings) : Except Exn Unit :=
  validateMessages settings 0 req.messages

/-- The question, before it is stripped. -/
def Content.question : Content → Text
  | .text content => content
  | .items content => join [' '] (content.map fun item => (item.lookup "text".toList).getD [])

/-- `extract_question_from_messages`. -/
def extractQuestionFromMessages (messages : List ChatMessage) : Except Exn Text :=
  match messages.reverse.find? (·.role = .user) with
  | none => .error (.badRequest "Chat request must include a user message")
  | some message =>
    let question := strip message.content.question
    if question = [] then .error (.badRequest "Last user message content is empty")
    else if question.length > settings.maxChatQuestionChars then
      .error (.badRequest "Question exceeds size limit")
    else .ok question

/-! ## The endpoint -/

/-- `build_chat_response`, for an answer that is not empty. -/
def chatCompletion (id : Text) (created : ℤ) (answer model : Text) : Json :=
  .obj [("id".toList, .str id),
    ("object".toList, .str "chat.completion".toList),
    ("created".toList, .num created),
    ("model".toList, .str model),
    ("choices".toList, .arr [.obj [("index".toList, .num 0),
      ("message".toList, .obj [("role".toList, .str "assistant".toList), ("content".toList, .str answer)]),
      ("finish_reason".toList, .str "stop".toList)]]),
    ("usage".toList, .obj [("prompt_tokens".toList, .num 0), ("completion_tokens".toList, .num 0),
      ("total_tokens".toList, .num 0)])]

/-- `build_chat_response`. -/
def buildChatResponse (answer model : Text) : App Json := do
  let answer := if answer = [] then "No response generated.".toList else answer
  let uuid : Text ← call .uuid4
  let created : ℤ ← call .time
  pure (chatCompletion ("chatcmpl-".toList ++ uuid) created answer model)

inductive ChatResponse where
  /-- `StreamingResponse`: its body is made while it is sent. -/
  | streaming (body : App Unit)
  | completion (body : Json)

/-- `chat`. -/
def chat (config : Config) (req : ChatRequest config.settings) (iterations : ℕ) : App ChatResponse := do
  Prog.ret (validateChatRequest req)
  let question ← Prog.ret (extractQuestionFromMessages config.settings req.messages)
  let ragMode := resolveRagMode req
  if req.stream = some true then
    pure (.streaming (ragStreamResponse config question req.model ragMode true iterations))
  else do
    let answer ← runRagWithTimeout question req.model ragMode config.settings.ragRequestTimeoutSeconds
    let body ← buildChatResponse answer req.model
    pure (.completion body)

def ChatResponse.send : ChatResponse → App Unit
  | .streaming body => body
  | .completion _ => pure ()

/-- A chat request, to the end of its response. -/
def serveChat (config : Config) (req : ChatRequest config.settings) (iterations : ℕ) : App Unit := do
  let response ← chat config req iterations
  response.send

/-! ## What a conversation asks -/

/-- The messages are within their limits. -/
structure WithinLimits (messages : List ChatMessage) : Prop where
  sizes : ∀ message ∈ messages, messageSize message.content ≤ settings.maxChatMessageChars
  items : ∀ message ∈ messages, message.content.hasTooManyItems settings = false
  total : (messages.map fun message => messageSize message.content).sum ≤ settings.maxChatTotalChars

/-- The latest message of a user. -/
def LatestUser (messages : List ChatMessage) (message : ChatMessage) : Prop :=
  ∃ before after, messages = before ++ message :: after ∧ message.role = .user ∧
    ∀ later ∈ after, later.role ≠ .user

/-- A request with one message. -/
def singleRequest (settings : Settings) (haccepted : settings.Accepted) (content : Content) :
    ChatRequest settings where
  model := ['m']
  messages := [⟨.user, content⟩]
  model_length := ⟨le_refl 1, haccepted.maxModelNameChars_pos⟩
  messages_length := ⟨le_refl 1, haccepted.maxChatMessages_pos⟩
  ragMode_valid := by simp

theorem latestUser_singleton (content : Content) : LatestUser [⟨.user, content⟩] ⟨.user, content⟩ :=
  ⟨[], [], rfl, rfl, nofun⟩

/-- The conversation is within its limits, and asks the question. -/
structure Asks (messages : List ChatMessage) (question : Text) : Prop where
  within : WithinLimits settings messages
  latest : ∃ message, LatestUser messages message ∧ question = strip message.content.question
  not_empty : question ≠ []
  length_le : question.length ≤ settings.maxChatQuestionChars

/-- The job that answers a question. -/
def ChatRequest.job {settings : Settings} (req : ChatRequest settings) (question : Text) : Job :=
  if req.stream = some true then .streamRun question req.model (resolveRagMode req)
  else .ask question req.model (resolveRagMode req)

/-- The job that a call submits. -/
def Call.submits : Call → Option Job
  | .runInExecutor job => some job
  | _ => none

/-! ## The checks -/

variable {settings : Settings} {messages : List ChatMessage} {message : ChatMessage} {question : Text}

/-- The running total never exceeds the limit exactly if the last total does not. -/
theorem validateMessages_eq_ok_iff {totalChars : ℕ} (htotal : totalChars ≤ settings.maxChatTotalChars) :
    validateMessages settings totalChars messages = .ok () ↔
      (∀ message ∈ messages, messageSize message.content ≤ settings.maxChatMessageChars ∧
        message.content.hasTooManyItems settings = false) ∧
      totalChars + (messages.map fun message => messageSize message.content).sum ≤
        settings.maxChatTotalChars := by
  induction messages generalizing totalChars with
  | nil => simpa [validateMessages] using htotal
  | cons message rest ih =>
    rw [List.forall_mem_cons, List.map_cons, List.sum_cons, validateMessages]
    dsimp only
    split
    · next hsize => exact iff_of_false nofun fun h => absurd h.1.1.1 (not_le.mpr hsize)
    · next hsize =>
      split
      · next hover =>
        refine iff_of_false nofun fun h => ?_
        have hsum := h.2
        push_cast at hsum
        omega
      · next hunder =>
        split
        · next hmany =>
          refine iff_of_false nofun fun h => ?_
          rw [h.1.1.2] at hmany
          cases hmany
        · next hitems =>
          rw [ih (by push_cast; exact not_lt.mp hunder)]
          have hfirst : messageSize message.content ≤ settings.maxChatMessageChars ∧
              message.content.hasTooManyItems settings = false :=
            ⟨not_lt.mp hsize, Bool.eq_false_of_not_eq_true hitems⟩
          simp only [hfirst, true_and, and_true]
          push_cast
          rw [add_assoc]

theorem withinLimits_iff (haccepted : settings.Accepted) :
    validateMessages settings 0 messages = .ok () ↔ WithinLimits settings messages := by
  have hpos := haccepted.maxChatTotalChars_pos
  rw [validateMessages_eq_ok_iff (by push_cast; exact hpos.le)]
  constructor
  · rintro ⟨hall, htotal⟩
    exact ⟨fun message hmem => (hall message hmem).1, fun message hmem => (hall message hmem).2,
      by simpa using htotal⟩
  · rintro ⟨hsizes, hitems, htotal⟩
    exact ⟨fun message hmem => ⟨hsizes message hmem, hitems message hmem⟩, by simpa using htotal⟩

theorem find_reverse_eq_some_iff :
    messages.reverse.find? (·.role = .user) = some message ↔ LatestUser messages message := by
  rw [List.find?_eq_some_iff_append]
  constructor
  · rintro ⟨hrole, after, before, hmessages, hafter⟩
    refine ⟨before.reverse, after.reverse, ?_, by simpa using hrole, fun later hlater => ?_⟩
    · rw [← List.reverse_reverse messages, hmessages]
      simp
    · simpa using hafter later (List.mem_reverse.mp hlater)
  · rintro ⟨before, after, rfl, hrole, hafter⟩
    refine ⟨by simpa using hrole, after.reverse, before.reverse, by simp, fun later hlater => ?_⟩
    simpa using hafter later (List.mem_reverse.mp hlater)

theorem extractQuestion_eq_ok_iff : extractQuestionFromMessages settings messages = .ok question ↔
    (∃ message, LatestUser messages message ∧ question = strip message.content.question) ∧
      question ≠ [] ∧ question.length ≤ settings.maxChatQuestionChars := by
  unfold extractQuestionFromMessages
  constructor
  · intro h
    split at h
    · cases h
    · next message hfind =>
      dsimp only at h
      split at h
      · cases h
      · next hempty =>
        split at h
        · cases h
        · next hlong =>
          obtain rfl := Except.ok.inj h
          exact ⟨⟨message, find_reverse_eq_some_iff.mp hfind, rfl⟩, hempty, not_lt.mp hlong⟩
  · rintro ⟨⟨message, hlatest, rfl⟩, hempty, hlength⟩
    rw [find_reverse_eq_some_iff.mpr hlatest]
    dsimp only
    rw [if_neg hempty, if_neg (not_lt.mpr hlength)]

/-! ## What is refused -/

/-- The request is refused with an `HTTPException` of status 400. -/
def Refused {α : Type} (r : Except Exn α) : Prop := ∃ detail, r = .error (.badRequest detail)

theorem validateMessages_refused {totalChars : ℕ} :
    validateMessages settings totalChars messages = .ok () ∨
      Refused (validateMessages settings totalChars messages) := by
  induction messages generalizing totalChars with
  | nil => exact .inl rfl
  | cons message rest ih =>
    rw [validateMessages]
    dsimp only
    split
    · exact .inr ⟨_, rfl⟩
    · split
      · exact .inr ⟨_, rfl⟩
      · split
        · exact .inr ⟨_, rfl⟩
        · exact ih

theorem extractQuestion_refused :
    (∃ question, extractQuestionFromMessages settings messages = .ok question) ∨
    Refused (extractQuestionFromMessages settings messages) := by
  unfold extractQuestionFromMessages
  split
  · exact .inr ⟨_, rfl⟩
  · dsimp only
    split
    · exact .inr ⟨_, rfl⟩
    · split
      · exact .inr ⟨_, rfl⟩
      · exact .inl ⟨_, rfl⟩

/-! ## What is submitted -/

section
variable {p : Call → Prop} {config : Config} {job : Job} {timeout : ℚ} {model : Text} {ragMode : RagMode}
  (hother : ∀ c : Call, c.submits = none → p c)
include hother

theorem calls_submitRagJob (hjob : p (.runInExecutor job)) : (submitRagJob job).Calls p := by
  refine .bind (.tryCatch (.lift hjob) fun e => ?_) fun future => ?_
  · exact .bind (.lift (hother .release rfl)) fun _ => .ret _
  · exact .bind (.lift (hother (.addDoneCallback future) rfl)) fun _ => .ret _

theorem calls_waitForCapacity : (waitForCapacity timeout).Calls p :=
  .lift (hother (.acquire timeout) rfl)

theorem calls_release {α : Type} (e : Exn) : Prog.Calls p (do
    let _ ← call .release
    (throw e : App α)) :=
  .bind (.lift (hother .release rfl)) fun _ => .ret _

theorem calls_acquireAndSubmit (hjob : p (.runInExecutor job)) :
    (acquireAndSubmit job timeout).Calls p := by
  refine .bind (.lift (hother .monotonic rfl)) fun started => ?_
  refine .bind (.tryCatch (calls_waitForCapacity hother) fun e => ?_) fun _ => ?_
  · split <;> exact .ret _
  · refine .bind (.lift (hother .monotonic rfl)) fun now => ?_
    dsimp only
    split
    · exact calls_release hother _
    · exact .bind (calls_submitRagJob hother hjob) fun future => .ret _

theorem calls_runRagWithTimeout {question : Text}
    (hjob : p (.runInExecutor (.ask question model ragMode))) :
    (runRagWithTimeout question model ragMode timeout).Calls p := by
  refine .bind (calls_acquireAndSubmit hother hjob) fun (future, remaining) => ?_
  refine .tryCatch (.bind (.lift (hother (.waitAnswer future remaining) rfl)) fun answer => .ret _) fun e => ?_
  split
  · exact .bind (.lift (hother .setCancelEvent rfl)) fun _ => .ret _
  · split
    · exact .bind (.lift (hother .setCancelEvent rfl)) fun _ => .ret _
    · exact .ret _

theorem calls_startStreamWorker {question : Text}
    (hjob : p (.runInExecutor (.streamRun question model ragMode))) :
    (startStreamWorker config question model ragMode).Calls p := by
  refine .bind (.lift (hother .monotonic rfl)) fun started => ?_
  refine .bind (calls_waitForCapacity hother) fun _ => .bind (.lift (hother .monotonic rfl)) fun now => ?_
  dsimp only
  split
  · exact calls_release hother _
  · exact .bind (calls_submitRagJob hother hjob) fun future => .ret _

theorem calls_emit (chunk : Text) : (call (.emit chunk)).Calls p := .lift (hother (.emit chunk) rfl)

theorem calls_streamItems (chunk : Text → Text) (iterations : ℕ) :
    (streamItems config chunk iterations).Calls p := by
  induction iterations with
  | zero => exact .ret _
  | succ iterations ih =>
    refine .bind (.lift (hother (.getItem config.settings.streamTimeoutSeconds) rfl)) fun (item : Item) => ?_
    cases item with
    | done => exact .ret _
    | exn e => exact .bind (calls_emit hother _) fun _ => .ret _
    | text text => exact .bind (calls_emit hother _) fun _ => ih

theorem calls_streamQueueEvents (chunk : Text → Text) (iterations : ℕ) :
    (streamQueueEvents config chunk iterations).Calls p := by
  refine .tryCatch (calls_streamItems hother chunk iterations) fun e => ?_
  split
  · exact .bind (.lift (hother .setCancelEvent rfl)) fun _ => .bind (calls_emit hother _) fun _ => .ret _
  · exact .ret _

theorem calls_createDisconnectTask (httpRequest : Bool) :
    (createDisconnectTask httpRequest).Calls p := by
  cases httpRequest with
  | false => exact .ret _
  | true => exact .lift (hother .createDisconnectTask rfl)

theorem calls_endStream (httpRequest : Bool) : (endStream httpRequest).Calls p := by
  refine .bind (.lift (hother .setCancelEvent rfl)) fun _ => ?_
  split
  · refine .bind (.lift (hother .cancelDisconnectTask rfl)) fun _ => ?_
    refine .tryCatch (.lift (hother .awaitDisconnectTask rfl)) fun e => ?_
    split <;> exact .ret _
  · exact .ret _

theorem calls_emitStop (requestId : Text) (created : ℤ) : (emitStop requestId created model).Calls p :=
  .bind (calls_emit hother _) fun _ => .bind (calls_emit hother _) fun _ => .ret _

theorem calls_ragStreamResponse {question : Text} {httpRequest : Bool} {iterations : ℕ}
    (hjob : p (.runInExecutor (.streamRun question model ragMode))) :
    (ragStreamResponse config question model ragMode httpRequest iterations).Calls p := by
  refine .bind (.lift (hother .uuid4 rfl)) fun uuid => .bind (.lift (hother .time rfl)) fun created => ?_
  refine .bind (.tryCatch (.bind (calls_startStreamWorker hother hjob) fun _ => .ret _) fun e => ?_)
    fun started => ?_
  · split <;> exact .ret _
  · split
    · refine .bind (calls_createDisconnectTask hother _) fun _ => ?_
      exact .bind (.finallyDo (calls_streamQueueEvents hother _ _) (calls_endStream hother _)) fun _ =>
        calls_emitStop hother _ _
    · exact .bind (calls_emit hother _) fun _ => calls_emitStop hother _ _

end

/-- `chat`, once its checks have passed. -/
theorem serveChat_of_accepted {config : Config} {req : ChatRequest config.settings} {iterations : ℕ}
    (hvalid : validateChatRequest req = .ok ())
    (hquestion : extractQuestionFromMessages config.settings req.messages = .ok question) :
    serveChat config req iterations =
      if req.stream = some true then
        ragStreamResponse config question req.model (resolveRagMode req) true iterations
      else
        runRagWithTimeout question req.model (resolveRagMode req) config.settings.ragRequestTimeoutSeconds >>=
          fun answer => buildChatResponse answer req.model >>= fun _ => pure () := by
  unfold serveChat chat
  rw [hvalid, hquestion]
  change ((if req.stream = some true then _ else _) >>= ChatResponse.send) = _
  by_cases hstream : req.stream = some true
  · rw [if_pos hstream, if_pos hstream]
    rfl
  · rw [if_neg hstream, if_neg hstream]
    simp only [bind_assoc]
    rfl

theorem calls_serveChat {config : Config} {req : ChatRequest config.settings} {iterations : ℕ}
    (hvalid : validateChatRequest req = .ok ())
    (hquestion : extractQuestionFromMessages config.settings req.messages = .ok question) :
    (serveChat config req iterations).Calls fun c : Call => ∀ job ∈ c.submits, job = req.job question := by
  have hother : ∀ c : Call, c.submits = none → ∀ job ∈ c.submits, job = req.job question := by
    intro c hc job hjob
    rw [hc] at hjob
    cases hjob
  have hsubmit : ∀ submitted, submitted = req.job question →
      ∀ job ∈ (Call.runInExecutor submitted).submits, job = req.job question := by
    rintro submitted hsubmitted job hjob
    exact (Option.some.inj hjob).symm.trans hsubmitted
  rw [serveChat_of_accepted hvalid hquestion]
  by_cases hstream : req.stream = some true
  · rw [if_pos hstream]
    exact calls_ragStreamResponse hother (hsubmit _ (if_pos hstream).symm)
  · rw [if_neg hstream]
    refine .bind (calls_runRagWithTimeout hother (hsubmit _ (if_neg hstream).symm)) fun answer => ?_
    refine .bind (.bind (.lift (hother .uuid4 rfl)) fun uuid => ?_) fun body => .ret _
    exact .bind (.lift (hother .time rfl)) fun created => .ret _

/-! ## Questions that can be embedded -/

theorem parseEmbeddings_ne_emptyText {want : ℕ} {response : EmbedResponse} :
    parseEmbeddings settings want response ≠ .error .emptyText := by
  cases response with
  | invalidJson => nofun
  | noEmbeddings => nofun
  | embeddings vectors =>
    rw [parseEmbeddings]
    split
    · nofun
    · split <;> nofun

variable {env : Env} {api : Retrieval.Api}

theorem embed_emptyText_iff {text : Text} :
    Retrieval.embed env api text = .error (.embedding .emptyText) ↔ strip text = [] := by
  unfold Retrieval.embed prepareText
  by_cases hblank : strip text = []
  · rw [if_pos hblank]
    exact iff_of_true rfl hblank
  · rw [if_neg hblank]
    refine iff_of_false ?_ hblank
    change (Except.bind (Option.elim (api.embed [(strip text).take Settings.maxEmbedChars]) _ _) _) ≠ _
    cases api.embed [(strip text).take Settings.maxEmbedChars] with
    | none => nofun
    | some response =>
      change (Except.bind (Except.mapError _ (parseEmbeddings env.settings 1 response)) _) ≠ _
      cases hparse : parseEmbeddings env.settings 1 response with
      | error e =>
        intro h
        obtain rfl : e = .emptyText := Retrieval.Exn.embedding.inj (Except.error.inj h)
        exact parseEmbeddings_ne_emptyText hparse
      | ok vectors => nofun

theorem hybridRecall_error {chunks : Objects.Store Retrieval.Chunk} {vector : List ℚ} {limit : ℤ}
    {filenames : List Text} {e : Retrieval.Exn}
    (h : Retrieval.hybridRecall env api chunks question vector limit filenames = .error e) :
    e = .retrieval := by
  unfold Retrieval.hybridRecall Retrieval.vectorRecall at h
  dsimp only at h
  split at h
  · cases h
  · exact (Except.error.inj h).symm

theorem rerank_ne_embedding {chunks : Objects.Store Retrieval.Chunk} {candidates : List Objects.Ref}
    {topN : ℤ} {e : LocalRag.Exn} :
    Retrieval.rerank api chunks question candidates topN ≠ .error (.embedding e) := by
  unfold Retrieval.rerank
  split
  · nofun
  · split
    · nofun
    · split <;> nofun

/-- The pipeline refuses the blank questions, and for their blankness no other. -/
theorem retrieveBest_emptyText_iff {chunks : Objects.Store Retrieval.Chunk}
    {recallK rerankK finalK : ℤ} :
    Retrieval.retrieveBest env api chunks question recallK rerankK finalK = .error (.embedding .emptyText) ↔
      strip question = [] := by
  have hembed : Retrieval.embed env api question = .error (.embedding .emptyText) ↔ strip question = [] :=
    embed_emptyText_iff
  rw [← hembed]
  unfold Retrieval.retrieveBest
  cases Retrieval.embed env api question with
  | error e =>
    constructor
    · intro h
      exact congrArg Except.error (Except.error.inj h)
    · intro h
      exact congrArg Except.error (Except.error.inj h)
  | ok qvec =>
    refine iff_of_false ?_ nofun
    change Except.bind (Retrieval.hybridRecall env api chunks question qvec recallK _) _ ≠ _
    cases hrecall : Retrieval.hybridRecall env api chunks question qvec recallK
        (Retrieval.extractFilenames env api question) with
    | error e =>
      intro h
      rw [hybridRecall_error hrecall] at h
      cases h
    | ok recalled => exact rerank_ne_embedding

/-! ## Accepted and refused requests -/

section
variable {config : Config} {req : ChatRequest config.settings} {iterations : ℕ}

theorem asks_iff : Asks config.settings req.messages question ↔
    validateChatRequest req = .ok () ∧
      extractQuestionFromMessages config.settings req.messages = .ok question := by
  rw [validateChatRequest, withinLimits_iff config.accepted, extractQuestion_eq_ok_iff]
  exact ⟨fun h => ⟨h.within, h.latest, h.not_empty, h.length_le⟩,
    fun h => ⟨h.1, h.2.1, h.2.2.1, h.2.2.2⟩⟩

theorem serveChat_refused (hnone : ∀ question, ¬ Asks config.settings req.messages question) :
    ∃ detail, serveChat config req iterations = .ret (.error (.http 400 detail)) := by
  rcases (validateMessages_refused : validateMessages config.settings 0 req.messages = .ok () ∨ _) with
    hvalid | ⟨detail, hrefused⟩
  · rcases (extractQuestion_refused :
        (∃ question, extractQuestionFromMessages config.settings req.messages = .ok question) ∨ _) with
      ⟨question, hquestion⟩ | ⟨detail, hrefused⟩
    · exact absurd (asks_iff.mpr ⟨hvalid, hquestion⟩) (hnone question)
    · refine ⟨detail.toList, ?_⟩
      unfold serveChat chat validateChatRequest
      rw [hvalid, hrefused]
      rfl
  · refine ⟨detail.toList, ?_⟩
    unfold serveChat chat validateChatRequest
    rw [hrefused]
    rfl

end

/-- A chat request that asks a question, within the limits, submits no job but the one for that
question, and retrieval does not refuse the question as empty. Any other request is refused before
it makes a call. -/
theorem chat_accepts (config : Config) (req : ChatRequest config.settings) (iterations : ℕ) :
    (∃ question, Asks config.settings req.messages question ∧
      (serveChat config req iterations).Calls (fun c : Call => ∀ job ∈ c.submits, job = req.job question) ∧
      ∀ env api chunks recallK rerankK finalK,
        Retrieval.retrieveBest env api chunks question recallK rerankK finalK ≠
          .error (.embedding .emptyText)) ∨
    (∃ detail, serveChat config req iterations = .ret (.error (.http 400 detail))) ∧
      ∀ question, ¬ Asks config.settings req.messages question := by
  by_cases hasks : ∃ question, Asks config.settings req.messages question
  · obtain ⟨question, hasks⟩ := hasks
    obtain ⟨hvalid, hquestion⟩ := asks_iff.mp hasks
    refine .inl ⟨question, hasks, calls_serveChat hvalid hquestion,
      fun env api chunks recallK rerankK finalK h => hasks.not_empty ?_⟩
    obtain ⟨message, -, rfl⟩ := hasks.latest
    rw [← strip_strip]
    exact retrieveBest_emptyText_iff.mp h
  · exact .inr ⟨serveChat_refused (not_exists.mp hasks), not_exists.mp hasks⟩

end LocalRag.ApiServer
