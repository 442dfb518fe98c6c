-- SUMMARY: What becomes of a message that is sent from the page: its body as `ChatRequest` (`web/schemas.py`) reads it, and what the server answers.
import LocalRag.Web.ChatRequests
import LocalRag.Web.Conversation

/-!
# Requests of the page

The page sends a message with the model and the mode that are chosen. FastAPI has pydantic
read the body as a `ChatRequest`, and the endpoint checks it. The page trims a text as
JavaScript does, the endpoint as Python does.
-/

namespace LocalRag.ApiServer

open PyText Effects

end LocalRag.ApiServer

namespace LocalRag.ChatUi

open PyText Effects SseDeltas

/-! ## What the page sends -/

/-- A call that sends a message sends the text that was read of the page, with the model and the mode
that were. -/
def Call.Sends (c : Call) (note : Note) : Prop :=
  c.isChat = true → ∃ x model mode, note = .sending x ∧ x.heard.model = some model ∧
    x.heard.mode = some mode ∧ x.question ≠ [] ∧
    c = .fetch "POST".toList completionsPath (some (chatRequest model x.question mode)) (some x.signal)

variable {browser : Browser} {α β : Type} {note : Note} {c : Call}

variable {settings : Settings} {model text mode : Text}

variable {read : Json → Option (ApiServer.ChatRequest settings)}

/-- A separator is no space for JavaScript, and blank for Python. -/
example : trim [Char.ofNat 0x1C] ≠ [] ∧ strip [Char.ofNat 0x1C] = [] := by decide

end LocalRag.ChatUi
