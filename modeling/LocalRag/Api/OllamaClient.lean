-- SUMMARY: The client of Ollama (`api/ollama_client.py`): retries, generation slots, whole and streamed generations.
import LocalRag.Api.RagCalls
import LocalRag.Base.Preserves

/-!
# Ollama client

Every generation holds one of the generation slots while Ollama works on it. Loops
without an end of their own have a bound on their rounds.
-/

namespace LocalRag.Rag

open PyText Effects

variable (settings : Settings)

/-! ## Requests -/

/-- `Response.ok` -/
def isOk (status : ℕ) : Bool := !(400 ≤ status && status < 600)

/-- A round of `post_with_retry`, with the retries that are left. It carries the exception of the last
attempt that raised one. -/
def postRound (cancel : Bool) (path : Text) (payload : Json) (timeout : ℚ) (retries : ℕ)
    (lastExc : Option Text) : RagProg (Option Text ⊕ Response) := do
  let cancelled ← isCancelled cancel
  if cancelled then throw (Exn.cancelled path)
  else
    tryCatch
      (do
        let r : Response ← call (.post path payload timeout)
        if 500 ≤ r.status ∧ 0 < retries then do
          let _ ← call (.sleep settings.ollamaRetryDelaySeconds)
          pure (.inl lastExc)
        else if isOk r.status then pure (.inr r)
        else throw (Exn.failed path r.status))
      fun e =>
        match e with
        | .request text =>
          if 0 < retries then do
            let _ ← call (.sleep settings.ollamaRetryDelaySeconds)
            pure (.inl (some text))
          else pure (.inl (some text))
        | e => throw e

/-- `post_with_retry`. -/
def postWithRetry (cancel : Bool) (path : Text) (payload : Json) (timeout : ℚ) : RagProg Response :=
  Prog.loop (postRound settings cancel path payload timeout)
    (fun lastExc => throw (Exn.failedAfterRetries path lastExc)) (settings.ollamaMaxRetries + 1).toNat none

/-! ## Generation slots -/

/-- `_GENERATION_SLOT_POLL_SECONDS` -/
def generationSlotPollSeconds : ℚ := 1 / 10

/-- A round of the wait in `_generation_slot`. -/
def slotRound (cancel : Bool) (timeout start : ℚ) : RagProg (Unit ⊕ Unit) := do
  let cancelled ← isCancelled cancel
  if cancelled then throw Exn.cancelledWaiting
  else do
    let now : ℚ ← call .monotonic
    let remaining := timeout - (now - start)
    if remaining ≤ 0 then throw Exn.timedOutWaiting
    else do
      let acquired : Bool ← call (.acquireSlot (min generationSlotPollSeconds remaining))
      pure (if acquired then .inr () else .inl ())

/-- The wait in `_generation_slot`. -/
def waitForSlot (cancel : Bool) (timeout : ℚ) (polls : ℕ) : RagProg Unit := do
  let start : ℚ ← call .monotonic
  Prog.loop (fun _ _ => slotRound cancel timeout start) (fun _ => throw Exn.iterations) polls ()

/-- `with _generation_slot(cancel=cancel, timeout=timeout): body`. -/
def withGenerationSlot {α : Type} (cancel : Bool) (timeout : ℚ) (polls : ℕ) (body : RagProg α) :
    RagProg α := do
  waitForSlot cancel timeout polls
  body.finallyDo (call .releaseSlot)

/-! ## Generations -/

def generatePath : Text := "/api/generate".toList

/-- `_generate_payload`. -/
def generatePayload (model prompt : Text) (stream : Bool) : Json :=
  .obj [("model".toList, .str model), ("prompt".toList, .str prompt), ("stream".toList, .bool stream),
    ("options".toList, .obj [("num_ctx".toList, .num settings.ollamaNumCtx)])]

/-- `data["response"]`, after the checks of `generate`. -/
def responseField : Option Json → Except Exn Json
  | none => .error .invalidJson
  | some (.obj fields) =>
    match fields.lookup "response".toList with
    | some text => .ok text
    | none => .error (.missingResponse ((fields.lookup "error".toList).getD (.obj fields)))
  | some _ => .error .wrongType

/-- `generate`. -/
def generate (cancel : Bool) (prompt model : Text) (timeout : ℚ) (polls : ℕ) : RagProg Json := do
  let r ← withGenerationSlot cancel timeout polls
    (postWithRetry settings cancel generatePath (generatePayload settings model prompt false) timeout)
  Prog.ret (responseField r.json)

/-- `bool(value)` -/
def truthy : Json → Bool
  | .null => false
  | .bool b => b
  | .num n => n ≠ 0
  | .str t => t ≠ []
  | .arr items => !items.isEmpty
  | .obj fields => !fields.isEmpty

/-- `data.get(key)`, where a value that counts as false is no value. -/
def getTruthy (fields : List (Text × Json)) (key : Text) : Option Json :=
  (fields.lookup key).filter truthy

variable (loads : Text → Option Json)

/-- What a line makes the loop of `stream_generate` do: an error, or a text to yield if there is one,
and whether it is the last. A line that is blank or malformed is skipped. -/
def readLine (line : Text) : Except Exn (Option Json × Bool) :=
  if line = [] then .ok (none, false)
  else
    match loads line with
    | none => .ok (none, false)
    | some (.obj fields) =>
      match getTruthy fields "error".toList with
      | some error => .error (.streamError error)
      | none => .ok (getTruthy fields "response".toList, (getTruthy fields "done".toList).isSome)
    | some _ => .error .wrongType

/-- Yield the text of a line, if it has one, and go on unless it is the last. -/
def sayLine (line : Text) : RagProg (Unit ⊕ Unit) := do
  let (text, done) ← Prog.ret (readLine loads line)
  let next : Unit ⊕ Unit := if done then .inr () else .inl ()
  match text with
  | some text => do
    let _ ← call (.emit text)
    pure next
  | none => pure next

/-- A round of the loop of `stream_generate`, with `json.loads`. -/
def lineRound (cancel : Bool) : RagProg (Unit ⊕ Unit) := do
  let next : Option Text ← call .nextLine
  match next with
  | none => pure (.inr ())
  | some line =>
    let cancelled ← isCancelled cancel
    if cancelled then pure (.inr ()) else sayLine loads line

/-- The body of `with session.post(…, stream=True) as resp`. -/
def streamLines (cancel : Bool) (status lines : ℕ) : RagProg Unit :=
  if isOk status then
    Prog.loop (fun _ _ => lineRound loads cancel) (fun _ => throw Exn.iterations) lines ()
  else throw (Exn.streamFailed status)

/-- `stream_generate`. -/
def streamGenerate (cancel : Bool) (prompt model : Text) (timeout : ℚ) (polls lines : ℕ) :
    RagProg Unit :=
  withGenerationSlot cancel timeout polls do
    let status : ℕ ← call (.openStream generatePath (generatePayload settings model prompt true) timeout)
    (streamLines loads cancel status lines).finallyDo (call .closeStream)

/-! ## The calls -/

variable {settings} {loads} {cancel : Bool} {p : Call → Prop}

theorem calls_isCancelled (hcheck : p .isCancelled) : (isCancelled cancel).Calls p := by
  cases cancel with
  | false => exact .ret _
  | true => exact .lift hcheck

theorem calls_postWithRetry {path : Text} {payload : Json} {timeout : ℚ} (hcheck : p .isCancelled)
    (hpost : p (.post path payload timeout)) (hsleep : p (.sleep settings.ollamaRetryDelaySeconds)) :
    (postWithRetry settings cancel path payload timeout).Calls p := by
  have hpause : ∀ carried : Option Text, Prog.Calls p (do
      let _ ← call (.sleep settings.ollamaRetryDelaySeconds)
      pure (.inl carried) : RagProg (Option Text ⊕ Response)) :=
    fun carried => .bind (.lift hsleep) fun _ => .ret _
  refine .loop (fun retries lastExc => ?_) fun _ => .ret _
  refine (calls_isCancelled hcheck).bind fun cancelled => ?_
  split
  · exact .ret _
  refine .tryCatch (.bind (.lift hpost) fun (r : Response) => ?_) fun e => ?_
  · split
    · exact hpause lastExc
    split
    · exact .ret _
    · exact .ret _
  · cases e with
    | request text =>
      dsimp only
      split
      · exact hpause (some text)
      · exact .ret _
    | _ => exact .ret _

theorem calls_waitForSlot {timeout : ℚ} {polls : ℕ} (hcheck : p .isCancelled) (hclock : p .monotonic)
    (hacquire : ∀ timeout, p (.acquireSlot timeout)) : (waitForSlot cancel timeout polls).Calls p := by
  refine .bind (.lift hclock) fun (start : ℚ) => .loop (fun _ _ => ?_) fun _ => .ret _
  refine (calls_isCancelled hcheck).bind fun cancelled => ?_
  split
  · exact .ret _
  refine .bind (.lift hclock) fun (now : ℚ) => ?_
  dsimp only
  split
  · exact .ret _
  · exact .bind (.lift (hacquire _)) fun _ => .ret _

theorem calls_sayLine {line : Text} (hemit : ∀ text, p (.emit text)) :
    (sayLine loads line).Calls p := by
  refine .bind (.ret _) fun ⟨text, done⟩ => ?_
  cases text with
  | none => exact .ret _
  | some text => exact .bind (.lift (hemit text)) fun _ => .ret _

theorem calls_streamLines {status lines : ℕ} (hcheck : p .isCancelled) (hread : p .nextLine)
    (hemit : ∀ text, p (.emit text)) : (streamLines loads cancel status lines).Calls p := by
  unfold streamLines
  split
  · refine .loop (fun _ _ => .bind (.lift hread) fun (next : Option Text) => ?_) fun _ => .ret _
    cases next with
    | none => exact .ret _
    | some line =>
      refine (calls_isCancelled hcheck).bind fun cancelled => ?_
      split
      · exact .ret _
      · exact calls_sayLine hemit
  · exact .ret _

end LocalRag.Rag
