-- SUMMARY: Questions and answers (`api/query_rag.py`): the prompt, the list of sources, and the two ways of answering.
import LocalRag.Api.OllamaClient
import LocalRag.Base.PurePath

/-! # Query interface -/

namespace LocalRag.Rag

open PyText PyPath Effects

/-! ## Texts -/

def noContextReply : Text := "No relevant context found in the vector store yet.".toList

def retrievalUnavailableStrict : Text :=
  "Retrieval service is unavailable. Cannot answer in strict mode.".toList

def retrievalUnavailableNotice : Text :=
  "\n\n---\n\n*Retrieval unavailable — answer from model knowledge only.*".toList

/-- `l[-n:]`, for a positive `n`. -/
def lastN {α : Type} (n : ℕ) (l : List α) : List α := l.drop (l.length - n)

/-- `_resolve_source`: the last two parts of the path. -/
def resolveSource (p : Payload) : Text :=
  let full := p.filepath.getD (p.filename.getD "unknown".toList)
  let parts := (PurePath.parse full).parts
  if 2 ≤ parts.length then join ['/'] (lastN 2 parts) else full

/-- `[S{i}] {source}` -/
def label (i : ℕ) (p : Payload) : Text :=
  "[S".toList ++ Nat.toDigits 10 i ++ "] ".toList ++ resolveSource p

/-- `p.get(key, '?')`, as it is formatted. -/
def orUnknown (n : Option ℤ) : Text := n.elim "?".toList Json.dumpInt

/-- A block of the context. -/
def contextBlock (i : ℕ) (p : Payload) : Text :=
  label i p ++ " (chunk ".toList ++ orUnknown p.chunkIndex ++ "/".toList ++ orUnknown p.chunkTotal ++
    ")\n".toList ++ p.text.getD []

/-- What a prompt starts with. -/
def instructions (ragMode : RagMode) : Text :=
  if ragMode = .augmented then
    ("Use the context below to inform your answer where relevant. " ++
      "You may supplement with your own knowledge where the context is incomplete. " ++
      "Cite sources as [S1], [S2] where context was used. " ++
      "Do not add a References or Sources section. Be concise.").toList
  else
    ("Use ONLY the context below to answer. " ++
      "If the context is insufficient, say what is missing. " ++
      "Cite sources like [S1], [S2] in the answer. " ++
      "Do not add a References or Sources section. " ++
      "Do not invent details not present in the context. Be concise.").toList

/-- `[f(i, chunk) for i, chunk in enumerate(chunks, start=1)]` -/
def enumerated (f : ℕ → Payload → Text) (chunks : List Payload) : List Text :=
  (chunks.zipIdx 1).map fun e => f e.2 e.1

/-- `build_prompt`. -/
def buildPrompt (question : Text) (chunks : List Payload) (ragMode : RagMode) : Text :=
  let context := join "\n\n---\n\n".toList (enumerated contextBlock chunks)
  instructions ragMode ++ "\n\nContext:\n".toList ++ context ++ "\n\nQuestion:\n".toList ++ question ++ ['\n']

def sourcesHeading : Text := "\n\n---\n\nSources:\n\n".toList

/-- `_format_sources`. -/
def formatSources (chunks : List Payload) : Text :=
  sourcesHeading ++ join ['\n'] (enumerated label chunks) ++ ['\n']

/-! ## Questions -/

inductive Prepared where
  /-- `_DirectReply` -/
  | directReply (text : Text)
  /-- `_PromptQuery` -/
  | promptQuery (prompt sources : Text)

/-- What `_prepare_query` makes of the retrieved chunks; nothing where retrieval is unavailable. -/
def prepared (question : Text) (ragMode : RagMode) : Option (List Payload) → Prepared
  | none =>
    if ragMode = .strict then .directReply retrievalUnavailableStrict
    else .promptQuery question retrievalUnavailableNotice
  | some [] =>
    if ragMode = .augmented then .promptQuery question [] else .directReply noContextReply
  | some chunks => .promptQuery (buildPrompt question chunks ragMode) (formatSources chunks)

section
variable {question : Text} {ragMode : RagMode}

theorem prepared_unavailable : prepared question ragMode none =
    if ragMode = .strict then .directReply retrievalUnavailableStrict
    else .promptQuery question retrievalUnavailableNotice := rfl

theorem prepared_nil : prepared question ragMode (some []) =
    if ragMode = .augmented then .promptQuery question [] else .directReply noContextReply := rfl

theorem prepared_of_ne_nil {chunks : List Payload} (hchunks : chunks ≠ []) :
    prepared question ragMode (some chunks) =
      .promptQuery (buildPrompt question chunks ragMode) (formatSources chunks) := by
  cases chunks with
  | nil => exact absurd rfl hchunks
  | cons chunk chunks => rfl

end

/-- `retrieve_best`, with its `RetrievalError` caught. -/
def retrieved (question : Text) : RagProg (Option (List Payload)) :=
  tryCatch
    (do
      let chunks : List Payload ← call (.retrieveBest question)
      pure (some chunks))
    fun e =>
      match e with
      | .retrieval => pure none
      | e => throw e

/-- `_prepare_query`. -/
def prepareQuery (question : Text) (ragMode : RagMode) : RagProg Prepared := do
  let chunks ← retrieved question
  pure (prepared question ragMode chunks)

/-- `value.strip()` -/
def stripValue : Json → Except Exn Text
  | .str t => .ok (strip t)
  | _ => .error .wrongType

variable (settings : Settings)

/-- `ask`. -/
def ask (cancel : Bool) (question model : Text) (ragMode : RagMode) (polls : ℕ) : RagProg Text := do
  let cancelled ← isCancelled cancel
  if cancelled then pure []
  else do
    match ← prepareQuery question ragMode with
    | .directReply text => pure text
    | .promptQuery prompt sources =>
      let cancelled ← isCancelled cancel
      if cancelled then pure []
      else do
        let generated ← generate settings cancel prompt model settings.ollamaGenerateTimeoutSeconds polls
        let answer ← Prog.ret (stripValue generated)
        pure (answer ++ sources)

/-- `ask_stream_sync`. -/
def askStreamSync (loads : Text → Option Json) (cancel : Bool) (question model : Text)
    (ragMode : RagMode) (polls lines : ℕ) : RagProg Unit := do
  let cancelled ← isCancelled cancel
  if cancelled then pure ()
  else do
    match ← prepareQuery question ragMode with
    | .directReply text => do
      let _ ← call (.emit (.str text))
    | .promptQuery prompt sources =>
      streamGenerate settings loads cancel prompt model settings.ollamaGenerateTimeoutSeconds polls lines
      let cancelled ← isCancelled cancel
      if cancelled then pure ()
      else if sources = [] then pure ()
      else do
        let _ ← call (.emit (.str sources))

end LocalRag.Rag
