-- SUMMARY: Chunks of a streamed answer (`web/openai_compat.py`): their JSON and their server-sent events.
import LocalRag.Base.Json

/-! # Streamed chunks -/

namespace LocalRag

open PyText

namespace OpenaiCompat

/-- What `make_stream_chunk` encodes. -/
def streamChunk (requestId : Text) (created : ℤ) (model : Text) (content finishReason : Option Text) :
    Json :=
  let delta := content.elim [] fun content => [("content".toList, Json.str content)]
  .obj [("id".toList, .str requestId),
    ("object".toList, .str "chat.completion.chunk".toList),
    ("created".toList, .num created),
    ("model".toList, .str model),
    ("choices".toList, .arr [.obj [("index".toList, .num 0),
      ("delta".toList, .obj delta),
      ("finish_reason".toList, finishReason.elim .null Json.str)]])]

/-- `data: {json}`, with the blank line that ends an event. -/
def sseEvent (payload : Text) : Text := "data: ".toList ++ payload ++ ['\n', '\n']

/-- `make_stream_chunk`. -/
def makeStreamChunk (requestId : Text) (created : ℤ) (model : Text)
    (content finishReason : Option Text) : Text :=
  sseEvent (Json.dumps (streamChunk requestId created model content finishReason))

/-- The chunk that ends the answer. -/
def stopChunk (requestId : Text) (created : ℤ) (model : Text) : Text :=
  makeStreamChunk requestId created model none (some "stop".toList)

/-- `data: [DONE]`. -/
def doneEvent : Text := sseEvent "[DONE]".toList

/-- The events of an answer: a chunk for each content, the stop chunk and `[DONE]`. -/
def answerEvents (requestId : Text) (created : ℤ) (model : Text) (contents : List Text) : List Text :=
  contents.map (fun content => makeStreamChunk requestId created model (some content) none) ++
    [stopChunk requestId created model, doneEvent]

end OpenaiCompat

end LocalRag
