-- SUMMARY: The retrieval pipeline (`api/retrieval.py`): filename detection, hybrid recall, rank fusion and reranking.
import LocalRag.Base.Difflib
import LocalRag.Base.Objects
import LocalRag.Base.Ranking
import LocalRag.Ingest.IndexDocuments

/-! # Retrieval -/

namespace LocalRag.Retrieval

open PyText PyPath Objects Ranking Difflib

/-! ## Data -/

/-- `Chunk`. Of the payload the pipeline reads the text. -/
structure Chunk where
  id : ℕ
  /-- `payload.get("text")` -/
  text : Option Text
  score : ℚ
  rerankScore : Option ℚ := none

/-- `payload.get("text", "")` -/
def Chunk.content (c : Chunk) : Text := c.text.getD []

/-- `ScoredPoint`. -/
structure ScoredPoint where
  id : ℕ
  score : ℚ
  text : Option Text

inductive Query where
  | dense (vector : List ℚ)
  | sparse (document : Document)

inductive Exn where
  | embedding (e : LocalRag.Exn)
  /-- `RetrievalError` -/
  | retrieval
  | reranker
  /-- `zip() argument 2 is shorter or longer than argument 1` -/
  | zipLength

/-- What the services answer to the calls of one question; nothing where a call raises. -/
structure Api where
  /-- `facet(key="filename", limit, exact=True)`: the values of the hits. -/
  facet : ℕ → Option (List Text)
  /-- `post_with_retry("/api/embed", …)` -/
  embed : List Text → Option EmbedResponse
  /-- `query_points(query, using, limit, query_filter)`; the filter lists the filenames that pass. -/
  queryPoints : Query → Text → ℤ → Option (List Text) → Option (List ScoredPoint)
  /-- `CrossEncoder.predict` -/
  predict : List (Text × Text) → Option (List ℚ)

/-! ## Filenames -/

/-- `[\w.-]` -/
def nameChar (env : Env) (c : Char) : Bool := env.isWord c || c == '.' || c == '-'

/-- `[a-zA-Z]` -/
def asciiLetter (c : Char) : Bool := ('a' ≤ c && c ≤ 'z') || ('A' ≤ c && c ≤ 'Z')

/-- `\b`, between two neighbours. -/
def wordBoundary (env : Env) (before after : Option Char) : Bool :=
  before.any env.isWord != after.any env.isWord

/-- The numbers from `n` down to 1. -/
def downFrom (n : ℕ) : List ℕ := (List.range' 1 n).reverse

/-- The length of the match of `_FILENAME_RE` at the start of a text. The name takes as many
characters as it can and gives them back one by one. -/
def filenameMatch (env : Env) (before : Option Char) (t : Text) : Option ℕ :=
  if wordBoundary env before t.head? then
    (downFrom (t.takeWhile (nameChar env)).length).findSome? fun n =>
      if t[n]? = some '.' then
        (downFrom (min 5 ((t.drop (n + 1)).takeWhile asciiLetter).length)).findSome? fun m =>
          if wordBoundary env t[n + m]? t[n + m + 1]? then some (n + 1 + m) else none
      else none
  else none

/-- `_FILENAME_RE.finditer`, behind the character `before`. `skip` characters of a match are left to
pass over. -/
def filenameTokens (env : Env) : Option Char → Text → ℕ → List Text
  | _, [], _ => []
  | _, c :: t, skip + 1 => filenameTokens env (some c) t skip
  | before, c :: t, 0 =>
    match filenameMatch env before (c :: t) with
    | some n => (c :: t).take n :: filenameTokens env (some c) t (n - 1)
    | none => filenameTokens env (some c) t 0

/-- `_FILENAME_FUZZY_CUTOFF` -/
def filenameFuzzyCutoff : ℚ := 3 / 4

/-- `_FILENAME_FACET_LIMIT` -/
def filenameFacetLimit : ℕ := 100000

/-- `_known_filenames`. -/
def knownFilenames (api : Api) : List Text := (api.facet filenameFacetLimit).getD []

/-- `d.setdefault(key, []).append(value)` -/
def appendTo (d : List (Text × List Text)) (key value : Text) : List (Text × List Text) :=
  if key ∈ d.map Prod.fst then d.map fun e => if e.1 = key then (key, e.2 ++ [value]) else e
  else d ++ [(key, [value])]

/-- `by_lower` -/
def byLower (env : Env) (names : List Text) : List (Text × List Text) :=
  names.foldl (fun d name => appendTo d (env.lower name) name) []

/-- `close[0]`, if there is one. -/
def closeKey (keys : List Text) (candidate : Text) : Option Text :=
  let suffix := (PurePath.parse candidate).suffix
  let sameSuffix := keys.filter suffix.isSuffixOf
  (getCloseMatches candidate sameSuffix 1 filenameFuzzyCutoff).head?

/-- The candidates, in the order of the question. -/
def filenameCandidates (env : Env) (question : Text) : List Text :=
  (filenameTokens env none question 0).map env.lower

/-- What the loop of `_extract_filenames` returns for a candidate, if it returns. -/
def candidateFilenames (d : List (Text × List Text)) (candidate : Text) : Option (List Text) :=
  match d.lookup candidate with
  | some names => some names
  | none => (closeKey (d.map Prod.fst) candidate).map fun key => (d.lookup key).getD []

/-- `_extract_filenames`. -/
def extractFilenames (env : Env) (api : Api) (question : Text) : List Text :=
  let candidates := filenameCandidates env question
  if candidates = [] then []
  else
    let d := byLower env (knownFilenames api)
    (candidates.findSome? (candidateFilenames d)).getD []

/-! ## Recall -/

/-- `_query_points`: the chunks are new objects. -/
def queryPoints (api : Api) (chunks : Store Chunk) (query : Query) (usingVector : Text) (limit : ℤ)
    (queryFilter : Option (List Text)) : Option (List Ref × Store Chunk) :=
  (api.queryPoints query usingVector limit queryFilter).map fun points =>
    chunks.allocAll (points.map fun p => { id := p.id, score := p.score, text := p.text })

/-- `vector_recall`. -/
def vectorRecall (api : Api) (chunks : Store Chunk) (questionVec : List ℚ) (limit : ℤ)
    (queryFilter : Option (List Text)) : Except Exn (List Ref × Store Chunk) :=
  match queryPoints api chunks (.dense questionVec) denseVector limit queryFilter with
  | some answer => .ok answer
  | none => .error .retrieval

/-- `keyword_recall`: a failure leaves no results. -/
def keywordRecall (env : Env) (api : Api) (chunks : Store Chunk) (question : Text) (limit : ℤ)
    (queryFilter : Option (List Text)) : List Ref × Store Chunk :=
  (queryPoints api chunks (.sparse (bm25Document env question)) sparseVector limit queryFilter).getD ([], chunks)

/-- The filter of `hybrid_recall`, if any. -/
def filenameFilter (filenames : List Text) : Option (List Text) :=
  if filenames = [] then none else some filenames

/-- `hybrid_recall`. -/
def hybridRecall (env : Env) (api : Api) (chunks : Store Chunk) (question : Text) (questionVec : List ℚ)
    (limit : ℤ) (filenames : List Text) : Except Exn (List Ref × List Ref × Store Chunk) := do
  let queryFilter := filenameFilter filenames
  let (vectorResults, chunks) ← vectorRecall api chunks questionVec limit queryFilter
  let (keywordResults, chunks) := keywordRecall env api chunks question limit queryFilter
  return (vectorResults, keywordResults, chunks)

/-! ## Fusion -/

/-- `_RRF_K` -/
def rrfK : ℕ := 60

/-- The variables of `_fuse`: the chunks, the dictionary in its order, and the set. -/
structure FuseState where
  chunks : Store Chunk
  fused : List (Text × Ref)
  seen : List Text

/-- One round of the inner loop of `_fuse`. -/
def fuseChunk (st : FuseState) (chunk : Ref) : FuseState :=
  let text := (st.chunks.get chunk).content
  if text = [] ∨ text ∈ st.seen then st
  else
    let seen := st.seen ++ [text]
    let rank := seen.length
    let st : FuseState :=
      if text ∈ st.fused.map Prod.fst then { st with seen }
      else ⟨st.chunks.modify chunk fun c => { c with score := 0 }, st.fused ++ [(text, chunk)], seen⟩
    match st.fused.lookup text with
    | some owner =>
      { st with chunks := st.chunks.modify owner fun c => { c with score := c.score + 1 / (rrfK + rank) } }
    | none => st

/-- One round of the outer loop of `_fuse`. -/
def fuseRanked (st : FuseState) (ranked : List Ref) : FuseState :=
  ranked.foldl fuseChunk { st with seen := [] }

/-- `_fuse`. -/
def fuse (chunks : Store Chunk) (rankedLists : List (List Ref)) : List Ref × Store Chunk :=
  let st := rankedLists.foldl fuseRanked ⟨chunks, [], []⟩
  (sortedDesc (fun r => (st.chunks.get r).score) (st.fused.map Prod.snd), st.chunks)

/-! ## Reranking -/

/-- `l[:n]` -/
def sliceTo {α : Type} (l : List α) (n : ℤ) : List α :=
  if 0 ≤ n then l.take n.toNat else l.take (l.length + n).toNat

/-- `x.rerank_score or 0.0` -/
def Chunk.rerankKey (c : Chunk) : ℚ := c.rerankScore.getD 0

/-- `c.rerank_score = float(s)`, for all pairs. -/
def setRerankScores (chunks : Store Chunk) (scored : List (Ref × ℚ)) : Store Chunk :=
  scored.foldl (fun chunks e => chunks.modify e.1 fun c => { c with rerankScore := some e.2 }) chunks

/-- `rerank`. -/
def rerank (api : Api) (chunks : Store Chunk) (question : Text) (candidates : List Ref) (topN : ℤ) :
    Except Exn (List Ref × Store Chunk) :=
  if candidates = [] then .ok ([], chunks)
  else
    match api.predict (candidates.map fun c => (question, (chunks.get c).content)) with
    | none => .error .reranker
    | some scores =>
      if scores.length ≠ candidates.length then .error .zipLength
      else
        let chunks := setRerankScores chunks (candidates.zip scores)
        .ok (sliceTo (sortedDesc (fun c => (chunks.get c).rerankKey) candidates) topN, chunks)

/-- `embed`. -/
def embed (env : Env) (api : Api) (text : Text) : Except Exn (List ℚ) := do
  let prepared ← (prepareText text).mapError .embedding
  let response ← (api.embed [prepared]).elim (.error (.embedding .embeddingRequest)) .ok
  let vectors ← (parseEmbeddings env.settings 1 response).mapError .embedding
  return vectors.headD []

/-- `retrieve_best`. -/
def retrieveBest (env : Env) (api : Api) (chunks : Store Chunk) (question : Text)
    (recallK rerankK finalK : ℤ) : Except Exn (List Ref × Store Chunk) := do
  let filenames := extractFilenames env api question
  let qvec ← embed env api question
  let (vectorResults, keywordResults, chunks) ← hybridRecall env api chunks question qvec recallK filenames
  let (fused, chunks) := fuse chunks [vectorResults, keywordResults]
  let candidates := sliceTo fused (max rerankK finalK)
  rerank api chunks question candidates finalK

end LocalRag.Retrieval
