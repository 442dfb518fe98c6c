-- SUMMARY: The ingestion pipeline (`ingest/index_documents.py`, `api/embed.py`): index a file, delete a document.
import LocalRag.Indexer.FingerprintStore
import LocalRag.Ingest.Chunkers

/-! # Document ingestion -/

namespace LocalRag

open PyText PyPath Effects

/-- `IndexDecision`. -/
inductive IndexDecision where
  | missing
  | unchanged
  | indexed
  | skipped
  | failed
  deriving DecidableEq

/-- `DENSE_VECTOR`. -/
def denseVector : Text := "dense".toList

/-- `SPARSE_VECTOR`. -/
def sparseVector : Text := "bm25".toList

/-- `except Exception`: go on with a value. -/
def orElse {α : Type} (p : App α) (a : α) : App α := tryCatch p fun _ => pure a

/-! ## Embedding -/

/-- `_prepare_text`. -/
def prepareText (text : Text) : Except Exn Text :=
  let text := strip text
  if text = [] then .error .emptyText else .ok (text.take Settings.maxEmbedChars)

/-- What `embed_batch` makes of the response to `want` texts. -/
def parseEmbeddings (s : Settings) (want : ℕ) : EmbedResponse → Except Exn (List (List ℚ))
  | .invalidJson => .error .invalidJson
  | .noEmbeddings => .error .missingEmbeddings
  | .embeddings vectors =>
    if vectors.length ≠ want then .error (.vectorCount vectors.length want)
    else
      match vectors.find? fun v => (v.length : ℤ) ≠ s.vectorSize with
      | some v => .error (.vectorSize v.length s.vectorSize)
      | none => .ok vectors

def embedBatch (env : Env) (texts : List Text) : App (List (List ℚ)) :=
  if texts = [] then pure []
  else do
    let prepared ← Prog.ret (texts.mapM prepareText)
    let response : EmbedResponse ← call (.embed prepared)
    Prog.ret (parseEmbeddings env.settings prepared.length response)

/-! ## Points -/

/-- `bm25_document`: the words, joined with blanks. -/
def bm25Document (env : Env) (text : Text) : Document where
  text := join [' '] ((text.splitOnP fun c => !env.isWord c).filter (· ≠ []))

/-- The list comprehension of `_embed_chunks`, from the `i`-th chunk on. -/
def makePoints (env : Env) (path filepath : PurePath) (documentId : Text) (chunkTotal : ℕ) :
    List (Text × List ℚ) → ℕ → App (List Point)
  | [], _ => pure []
  | (chunk, vec) :: rest, i => do
    let id : ℕ ← call .uuid4
    let points ← makePoints env path filepath documentId chunkTotal rest (i + 1)
    pure ({
      id
      dense := vec
      sparse := bm25Document env (path.name ++ ' ' :: chunk)
      payload := {
        text := chunk
        documentId
        filename := path.name
        filepath
        chunkIndex := i
        chunkTotal } } :: points)

/-- `_embed_chunks`. `embed_batch` returned one vector for each chunk. -/
def embedChunks (env : Env) (path filepath : PurePath) (chunks : List Text) (documentId : Text) :
    App (List Point) := do
  let vectors ← embedBatch env chunks
  makePoints env path filepath documentId chunks.length (chunks.zip vectors) 0

def Point.withVersion (indexVersion : ℕ) (p : Point) : Point :=
  { p with payload := { p.payload with indexVersion := some indexVersion } }

/-- `_upsert_chunks`: the new version first, then the stale vectors go. -/
def upsertChunks (filepath : PurePath) (points : List Point) : App IndexDecision := do
  let indexVersion : ℕ ← call .uuid4
  let upserted ← orElse (do call (.upsert (points.map (Point.withVersion indexVersion))); pure true)
    false
  if upserted then
    orElse (do call (.delete ⟨filepath, some indexVersion⟩); pure .indexed) .failed
  else pure .failed

/-! ## Indexing a file -/

def ensureCollection (env : Env) : App Unit := do
  let ensured : Bool ← call .getEnsured
  if ensured then pure ()
  else do
    let collectionExists : Bool ← call .collectionExists
    if collectionExists then do
      let sparse : List Text ← call .getCollection
      if sparse.contains sparseVector then pure () else throw Exn.oldLayout
    else do
      call (.createCollection [(denseVector, ⟨env.settings.vectorSize, .cosine⟩)] [(sparseVector, .idf)])
      call (.createPayloadIndex "filepath".toList .keyword)
      call (.createPayloadIndex "filename".toList .keyword)
    call (.setEnsured true)

/-- `_read_file`. -/
def readFile (path : PurePath) : App (Option Text) := do
  let size : ℕ ← call (.fileSize path)
  if size > Settings.maxFileSize then pure none
  else orElse (do let text : Text ← call (.readText path); pure (some text)) none

/-- `[c.strip() for c in chunks if c and c.strip()]`. -/
def stripChunks (chunks : List Text) : List Text :=
  (chunks.filter fun c => c ≠ [] ∧ strip c ≠ []).map strip

def indexFile (env : Env) (path : PurePath) : App IndexDecision := do
  ensureCollection env
  let normalizedPath ← normalizePath path
  let text ← readFile path
  match text with
  | none => pure .skipped
  | some text =>
    let chunks := stripChunks (chunkDocument env path text)
    if chunks = [] then pure .skipped
    else do
      let documentId := env.uuid5 normalizedPath.str
      let points ← orElse (some <$> embedChunks env path normalizedPath chunks documentId) none
      match points with
      | none => pure .failed
      | some points => upsertChunks normalizedPath points

/-! ## Deleting a document -/

def deleteDocument (filepath : PurePath) : App Unit := do
  let normalizedPath ← normalizePath filepath
  call (.delete ⟨normalizedPath, none⟩)

def removeIndexedDocument (filepath : PurePath) : App Unit := do
  let normalizedPath ← normalizePath filepath
  deleteDocument normalizedPath
  deleteHash normalizedPath

end LocalRag
