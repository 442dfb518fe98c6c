-- SUMMARY: What a RAG job asks of its surroundings: retrieval, Ollama, the clock, the generation slots, its cancel event and its reader.
import LocalRag.Base.Json
import LocalRag.Base.Loop
import LocalRag.Settings

/-!
# Calls of a RAG job

A job answers one question: it retrieves chunks, and has Ollama generate a text. It
runs in a thread of its own, beside other jobs.
-/

namespace LocalRag.Rag

open PyText Effects

/-- What is read of the payload of a retrieved chunk. -/
structure Payload where
  filepath : Option Text
  filename : Option Text
  chunkIndex : Option ℤ
  chunkTotal : Option ℤ
  text : Option Text

/-- A response that has arrived whole. -/
structure Response where
  status : ℕ
  /-- What `.json()` returns; nothing where it raises `ValueError`. -/
  json : Option Json

inductive Exn where
  /-- `requests.RequestException`, with its text. -/
  | request (text : Text)
  /-- `RetrievalError` -/
  | retrieval
  /-- `Ollama request to {path} cancelled` -/
  | cancelled (path : Text)
  /-- `Ollama request to {path} failed: HTTP {status}` -/
  | failed (path : Text) (status : ℕ)
  /-- `Ollama request to {path} failed after retries: {lastExc}` -/
  | failedAfterRetries (path : Text) (lastExc : Option Text)
  /-- `Ollama generation cancelled while waiting for capacity` -/
  | cancelledWaiting
  /-- `Timed out waiting for Ollama generation capacity` -/
  | timedOutWaiting
  /-- `Ollama generate returned invalid JSON` -/
  | invalidJson
  /-- `Ollama generate missing 'response' field: {detail}` -/
  | missingResponse (detail : Json)
  /-- `Ollama stream request failed: HTTP {status}` -/
  | streamFailed (status : ℕ)
  /-- `Ollama stream error: {error}` -/
  | streamError (error : Json)
  /-- `AttributeError` or `TypeError`: a value of Ollama's is not of the type it is used at. -/
  | wrongType
  /-- The reader of a stream is gone. -/
  | generatorExit
  /-- Any other exception. -/
  | other
  /-- A loop has no round left. -/
  | iterations

inductive Call where
  /-- `retrieve_best(question)` -/
  | retrieveBest (question : Text)
  /-- `cancel.is_set()` -/
  | isCancelled
  | monotonic
  /-- `_generation_slots.acquire(timeout=timeout)` -/
  | acquireSlot (timeout : ℚ)
  /-- `_generation_slots.release()` -/
  | releaseSlot
  /-- `session.post(url, json=payload, timeout=timeout)` -/
  | post (path : Text) (payload : Json) (timeout : ℚ)
  /-- The same with `stream=True`. -/
  | openStream (path : Text) (payload : Json) (timeout : ℚ)
  /-- The next line of the stream; nothing at its end. -/
  | nextLine
  | closeStream
  | sleep (seconds : ℚ)
  /-- `yield text` -/
  | emit (text : Json)

def Reply : Call → Type
  | .retrieveBest _ => List Payload
  | .isCancelled | .acquireSlot _ => Bool
  | .monotonic => ℚ
  | .post _ _ _ => Response
  | .openStream _ _ _ => ℕ
  | .nextLine => Option Text
  | _ => Unit

abbrev RagIface : Iface := ⟨Call, Reply⟩

/-- A program of a RAG job. -/
abbrev RagProg (α : Type) := Prog RagIface Exn α

def call (c : Call) : RagProg (Reply c) := Prog.lift (I := RagIface) c

/-- `cancel and cancel.is_set()`, where `cancel` says whether there is an event. -/
def isCancelled (cancel : Bool) : RagProg Bool := if cancel then call .isCancelled else pure false

end LocalRag.Rag
