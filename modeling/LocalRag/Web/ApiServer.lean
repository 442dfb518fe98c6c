-- SUMMARY: The request paths of `web/api_server.py` that share the RAG capacity, as programs over the calls they make.
import LocalRag.Base.Wp
import LocalRag.Settings
import LocalRag.Web.OpenaiCompat

/-!
# RAG requests

Chat, streaming chat and retrieve. A request runs on the event loop and waits at
some of its calls: there it may time out, and there it is told that its client is
gone. Its job runs in a thread of the executor.
-/

namespace LocalRag.ApiServer

open PyText Effects OpenaiCompat

inductive Exn where
  /-- `TimeoutError` -/
  | timeout
  /-- `asyncio.CancelledError` -/
  | cancelled
  | generatorExit
  | http (status : ℕ) (detail : Text)
  /-- Any other `Exception`. -/
  | other
  /-- Any other `BaseException`. -/
  | base
  /-- The loop over the queue has no iteration left. -/
  | iterations
  deriving DecidableEq

/-- What `except Exception` catches. -/
def Exn.isException : Exn → Bool
  | .timeout | .http _ _ | .other => true
  | _ => false

/-- What the executor is asked to run. -/
inductive Job where
  | ask (question model : Text) (ragMode : RagMode)
  | retrieveBest (query : Text) (limit : ℤ)
  | streamRun (question model : Text) (ragMode : RagMode)

/-- What the endpoints read of a retrieved chunk. -/
structure Chunk where
  text : Text
  filepath : Text
  score : ℚ
  rerankScore : Option ℚ := none

/-- An item of the worker's queue. -/
inductive Item where
  | text (text : Text)
  | exn (e : Exn)
  /-- `None` -/
  | done
  deriving DecidableEq

inductive Call where
  | uuid4
  | time
  | monotonic
  /-- `wait_for(semaphore.acquire(), timeout)` -/
  | acquire (timeout : ℚ)
  /-- `semaphore.release()` -/
  | release
  | runInExecutor (job : Job)
  /-- `future.add_done_callback(lambda _f: semaphore.release())` -/
  | addDoneCallback (future : ℕ)
  /-- `wait_for(shield(future), timeout)`, for an answer and for chunks -/
  | waitAnswer (future : ℕ) (timeout : ℚ)
  | waitChunks (future : ℕ) (timeout : ℚ)
  /-- `cancel_event.set()` -/
  | setCancelEvent
  /-- `wait_for(queue.get(), timeout)` -/
  | getItem (timeout : ℚ)
  /-- `call_soon_threadsafe(queue.put_nowait, item)` -/
  | putItem (item : Item)
  | createDisconnectTask
  | cancelDisconnectTask
  | awaitDisconnectTask
  /-- `yield chunk` -/
  | emit (chunk : Text)

def Reply : Call → Type
  | .uuid4 => Text
  | .time => ℤ
  | .monotonic => ℚ
  | .runInExecutor _ => ℕ
  | .waitAnswer _ _ => Text
  | .waitChunks _ _ => List Chunk
  | .getItem _ => Item
  | _ => Unit

abbrev WebIface : Iface := ⟨Call, Reply⟩

abbrev App (α : Type) := Prog WebIface Exn α

def call (c : Call) : App (Reply c) := Prog.lift (I := WebIface) c

/-- The settings, as `_validate_settings` has accepted them. -/
structure Config where
  settings : Settings
  accepted : settings.Accepted

variable (config : Config)

/-! ## Capacity -/

def capacityTimeoutDetail : Text := "RAG pipeline timed out waiting for capacity.".toList

/-- `_wait_for_capacity`. -/
def waitForCapacity (timeout : ℚ) : App Unit := call (.acquire timeout)

/-- `_submit_rag_job`. -/
def submitRagJob (job : Job) : App ℕ := do
  let future : ℕ ← tryCatch (call (.runInExecutor job)) fun e => do
    let _ ← call .release
    throw e
  let _ ← call (.addDoneCallback future)
  pure future

/-- `_acquire_and_submit`: the future, and the remaining seconds. -/
def acquireAndSubmit (job : Job) (timeout : ℚ) : App (ℕ × ℚ) := do
  let started : ℚ ← call .monotonic
  tryCatch (waitForCapacity timeout) fun e =>
    if e = .timeout then throw (Exn.http 504 capacityTimeoutDetail) else throw e
  let now : ℚ ← call .monotonic
  let remaining := timeout - (now - started)
  if remaining ≤ 0 then do
    let _ ← call .release
    throw (Exn.http 504 capacityTimeoutDetail)
  else do
    let future ← submitRagJob job
    pure (future, remaining)

/-- `_start_stream_worker`. -/
def startStreamWorker (question model : Text) (ragMode : RagMode) : App Unit := do
  let started : ℚ ← call .monotonic
  waitForCapacity config.settings.ragRequestTimeoutSeconds
  let now : ℚ ← call .monotonic
  let remaining := config.settings.ragRequestTimeoutSeconds - (now - started)
  if remaining ≤ 0 then do
    let _ ← call .release
    throw Exn.timeout
  else do
    let _ ← submitRagJob (.streamRun question model ragMode)

/-! ## Requests -/

/-- `_run_rag_with_timeout`. -/
def runRagWithTimeout (question model : Text) (ragMode : RagMode) (timeout : ℚ) : App Text := do
  let (future, remaining) ← acquireAndSubmit (.ask question model ragMode) timeout
  tryCatch
    (do
      let answer : Text ← call (.waitAnswer future remaining)
      pure (strip answer))
    fun e =>
      if e = .timeout then do
        let _ ← call .setCancelEvent
        throw (Exn.http 504 "RAG pipeline timed out while generating an answer.".toList)
      else if e.isException then do
        let _ ← call .setCancelEvent
        throw (Exn.http 500 "RAG pipeline error".toList)
      else throw e

/-- `secrets.compare_digest`, which compares non-ASCII strings by raising `TypeError`. -/
def compareDigest (a b : Text) : Except Exn Bool :=
  if a.all (·.toNat < 128) && b.all (·.toNat < 128) then .ok (a = b) else .error .other

/-- `_check_internal_token`. -/
def checkInternalToken (configured : Option Text) (token : Text) : Except Exn Unit :=
  match configured with
  | none => .error (.http 503 "Retrieve endpoint not configured".toList)
  | some internalToken => do
    let same ← compareDigest token internalToken
    if same then .ok () else .error (.http 401 "Unauthorized".toList)

/-- `retrieve`: the text, the file and the score of each chunk. -/
def retrieve (internalToken : Option Text) (token query : Text) (limit : ℤ) :
    App (List (Text × Text × ℚ)) := do
  Prog.ret (checkInternalToken internalToken token)
  let (future, remaining) ← acquireAndSubmit (.retrieveBest query limit)
    config.settings.ragRequestTimeoutSeconds
  let chunks : List Chunk ← tryCatch (call (.waitChunks future remaining)) fun e =>
    if e = .timeout then throw (Exn.http 504 "RAG pipeline timed out".toList)
    else if e.isException then throw (Exn.http 500 "RAG pipeline error".toList)
    else throw e
  pure (chunks.map fun c => (c.text, c.filepath, c.rerankScore.getD c.score))

/-! ## Streaming -/

/-- `_send`: whether the event loop took the item. -/
def send (item : Item) : App Bool :=
  tryCatch
    (do
      let _ ← call (.putItem item)
      pure true)
    fun _ => pure false

/-- The loop of `_run`, over the texts that `ask_stream_sync` produces before it ends or raises. -/
def sendTexts (raised : Option Exn) : List Text → App Unit
  | [] => match raised with
    | none => pure ()
    | some e => throw e
  | text :: rest => do
    let sent ← send (.text text)
    if sent then sendTexts raised rest else pure ()

/-- `_run`. -/
def streamRun (texts : List Text) (raised : Option Exn) : App Unit :=
  Prog.finallyDo
    (tryCatch (sendTexts raised texts) fun e =>
      if e.isException then do
        let _ ← send (.exn e)
      else throw e)
    (do
      let _ ← send .done)

def generationError : Text := "\n\n[Generation error — please retry]".toList

def generationTimedOut : Text := "\n\n[Error: generation timed out]".toList

def atCapacity : Text := "\n\n[Error: server at capacity, please retry]".toList

/-- The loop of `_stream_queue_events`, with a bound on its iterations. `chunk` makes the event of a
content. -/
def streamItems (chunk : Text → Text) : ℕ → App Unit
  | 0 => throw Exn.iterations
  | iterations + 1 => do
    let item : Item ← call (.getItem config.settings.streamTimeoutSeconds)
    match item with
    | .done => pure ()
    | .exn _ => do
      let _ ← call (.emit (chunk generationError))
    | .text text => do
      let _ ← call (.emit (chunk text))
      streamItems chunk iterations

/-- `_stream_queue_events`. -/
def streamQueueEvents (chunk : Text → Text) (iterations : ℕ) : App Unit :=
  tryCatch (streamItems config chunk iterations) fun e =>
    if e = .timeout then do
      let _ ← call .setCancelEvent
      let _ ← call (.emit (chunk generationTimedOut))
    else throw e

/-- The end of each streamed answer. -/
def emitStop (requestId : Text) (created : ℤ) (model : Text) : App Unit := do
  let _ ← call (.emit (stopChunk requestId created model))
  let _ ← call (.emit doneEvent)

/-- The task that watches the client of a request, if there is a request. -/
def createDisconnectTask (httpRequest : Bool) : App Unit :=
  if httpRequest then call .createDisconnectTask else pure ()

/-- The `finally` block of `_rag_stream_response`. -/
def endStream (httpRequest : Bool) : App Unit := do
  let _ ← call .setCancelEvent
  if httpRequest then do
    let _ ← call .cancelDisconnectTask
    tryCatch (call .awaitDisconnectTask) fun e => if e = .cancelled then pure () else throw e
  else pure ()

/-- `_rag_stream_response`, with or without the request whose client is watched. -/
def ragStreamResponse (question model : Text) (ragMode : RagMode) (httpRequest : Bool)
    (iterations : ℕ) : App Unit := do
  let uuid : Text ← call .uuid4
  let requestId := "chatcmpl-".toList ++ uuid
  let created : ℤ ← call .time
  let chunk := fun content => makeStreamChunk requestId created model (some content) none
  let started ← tryCatch
    (do
      startStreamWorker config question model ragMode
      pure true)
    fun e => if e = .timeout then pure false else throw e
  if started then do
    createDisconnectTask httpRequest
    Prog.finallyDo (streamQueueEvents config chunk iterations) (endStream httpRequest)
    emitStop requestId created model
  else do
    let _ ← call (.emit (chunk atCapacity))
    emitStop requestId created model

end LocalRag.ApiServer
