-- SUMMARY: From files to prompts: what a prompt quotes was in the file that it names.
import LocalRag.Api.Fusion
import LocalRag.Api.Grounding
import LocalRag.Indexer.Provenance

/-!
# From files to prompts

The chunks in a prompt are points that a search has found, and these come from files. While
the index changes, each search finds what is stored at its time.
-/

namespace LocalRag.Retrieval

open PyText Objects Ranking

/-! ## What retrieval passes on -/

variable {env : Env} {api : Api} {chunks chunks' : Store Chunk} {P : ℕ → Option Text → Prop}

/-- Every point that a search answers with has an id and a text with `P`. -/
def Api.Answers (api : Api) (P : ℕ → Option Text → Prop) : Prop :=
  ∀ query vector limit queryFilter points, api.queryPoints query vector limit queryFilter = some points →
    ∀ point ∈ points, P point.id point.text

/-- The chunks have ids and texts with `P`. -/
def Passes (P : ℕ → Option Text → Prop) (chunks : Store Chunk) (refs : List Ref) : Prop :=
  ∀ r ∈ refs, r < chunks.next ∧ P (chunks.get r).id (chunks.get r).text

theorem passes_queryPoints {query : Query} {vector : Text} {limit : ℤ}
    {queryFilter : Option (List Text)} {refs : List Ref} (hapi : api.Answers P)
    (h : queryPoints api chunks query vector limit queryFilter = some (refs, chunks')) :
    Passes P chunks' refs ∧ ∀ old, Passes P chunks old → Passes P chunks' old := by
  obtain ⟨points, hpoints, halloc⟩ := Option.map_eq_some_iff.mp h
  obtain ⟨rfl, rfl⟩ := Prod.mk.inj halloc
  refine ⟨fun r hr => ⟨Store.lt_of_mem_allocAll hr, ?_⟩, fun old hold r hr => ?_⟩
  · obtain ⟨point, hpoint, hget⟩ := List.mem_map.mp (Store.get_of_mem_allocAll hr)
    rw [← hget]
    exact hapi _ _ _ _ points hpoints point hpoint
  · obtain ⟨hlt, hP⟩ := hold r hr
    rw [Store.get_allocAll_of_lt hlt]
    exact ⟨hlt.trans_le Store.next_le_allocAll, hP⟩

theorem passes_hybridRecall {question : Text} {vector : List ℚ} {limit : ℤ} {filenames : List Text}
    {vectorResults keywordResults : List Ref} (hapi : api.Answers P)
    (h : hybridRecall env api chunks question vector limit filenames =
      .ok (vectorResults, keywordResults, chunks')) :
    Passes P chunks' vectorResults ∧ Passes P chunks' keywordResults := by
  unfold hybridRecall vectorRecall at h
  dsimp only at h
  split at h
  case h_2 => cases h
  next found hfound =>
  obtain ⟨vectors, chunks₁⟩ := found
  have hvectors := (passes_queryPoints hapi hfound).1
  obtain ⟨rfl, hrest⟩ := Prod.mk.inj (Except.ok.inj h)
  obtain ⟨rfl, rfl⟩ := Prod.mk.inj hrest
  unfold keywordRecall
  cases hkeyword : queryPoints api chunks₁ (.sparse (bm25Document env question)) sparseVector limit
      (filenameFilter filenames) with
  | none => exact ⟨hvectors, nofun⟩
  | some answer =>
    obtain ⟨keywords, chunks₂⟩ := answer
    obtain ⟨hkeywords, hold⟩ := passes_queryPoints hapi hkeyword
    exact ⟨hold _ hvectors, hkeywords⟩

/-- Fusion changes the scores only. -/
theorem Fuses.passes {rankedLists : List (List Ref)} {result : List Ref}
    (h : Fuses chunks rankedLists result chunks')
    (hlists : ∀ ranked ∈ rankedLists, ∀ r ∈ ranked, P (chunks.get r).id (chunks.get r).text) :
    ∀ r ∈ result, P (chunks'.get r).id (chunks'.get r).text := by
  intro r hr
  obtain ⟨ranked, hranked, hmem⟩ := List.mem_flatten.mp
    (List.mem_of_mem_filter (mem_of_mem_firsts (h.perm.mem_iff.mp hr)))
  rw [h.score r hr]
  exact hlists ranked hranked r hmem

theorem get_setRerankScores {scored : List (Ref × ℚ)} {r : Ref} :
    ((setRerankScores chunks scored).get r).id = (chunks.get r).id ∧
      ((setRerankScores chunks scored).get r).text = (chunks.get r).text := by
  induction scored generalizing chunks with
  | nil => exact ⟨rfl, rfl⟩
  | cons e scored ih =>
    have hset : setRerankScores chunks (e :: scored) =
        setRerankScores (chunks.modify e.1 fun c => { c with rerankScore := some e.2 }) scored := rfl
    rw [hset, ih.1, ih.2]
    by_cases hr : r = e.1
    · subst hr
      rw [Store.get_modify_self]
      exact ⟨rfl, rfl⟩
    · rw [Store.get_modify_of_ne hr]
      exact ⟨rfl, rfl⟩

theorem mem_of_mem_sliceTo {α : Type} {l : List α} {n : ℤ} {a : α} (h : a ∈ sliceTo l n) : a ∈ l := by
  unfold sliceTo at h
  split at h <;> exact List.mem_of_mem_take h

/-- Reranking changes the rerank scores only. -/
theorem rerank_passes {question : Text} {candidates result : List Ref} {topN : ℤ}
    (hcandidates : ∀ r ∈ candidates, P (chunks.get r).id (chunks.get r).text)
    (h : rerank api chunks question candidates topN = .ok (result, chunks')) :
    ∀ r ∈ result, P (chunks'.get r).id (chunks'.get r).text := by
  unfold rerank at h
  split at h
  · obtain ⟨rfl, rfl⟩ := Prod.mk.inj (Except.ok.inj h)
    nofun
  split at h
  · cases h
  split at h
  · cases h
  obtain ⟨rfl, rfl⟩ := Prod.mk.inj (Except.ok.inj h)
  intro r hr
  have hmem := hcandidates r (mem_sortedDesc.mp (mem_of_mem_sliceTo hr))
  rw [get_setRerankScores.1, get_setRerankScores.2]
  exact hmem

/-- Every chunk that `retrieve_best` returns has the id and the text of a point that a search has
found. -/
theorem retrieveBest_passes {question : Text} {recallK rerankK finalK : ℤ} {result : List Ref}
    (hapi : api.Answers P)
    (h : retrieveBest env api chunks question recallK rerankK finalK = .ok (result, chunks')) :
    ∀ r ∈ result, P (chunks'.get r).id (chunks'.get r).text := by
  unfold retrieveBest at h
  cases hembed : embed env api question with
  | error e =>
    rw [hembed] at h
    cases h
  | ok vector =>
    rw [hembed] at h
    change Except.bind (hybridRecall env api chunks question vector recallK
      (extractFilenames env api question)) _ = _ at h
    cases hrecall :
      hybridRecall env api chunks question vector recallK (extractFilenames env api question) with
    | error e =>
      rw [hrecall] at h
      cases h
    | ok recalled =>
      obtain ⟨vectorResults, keywordResults, chunks₁⟩ := recalled
      rw [hrecall] at h
      obtain ⟨hvectors, hkeywords⟩ := passes_hybridRecall hapi hrecall
      refine rerank_passes (fun r hr => (fuses_fuse chunks₁ [vectorResults, keywordResults]).passes ?_ r
        (mem_of_mem_sliceTo hr)) h
      rintro ranked hranked r' hr'
      rcases List.mem_pair.mp hranked with rfl | rfl
      · exact (hvectors r' hr').2
      · exact (hkeywords r' hr').2

end LocalRag.Retrieval

namespace LocalRag.Rag

open PyText PyPath Effects

/-! ## What a prompt quotes -/

/-- The payload of a point, as it is read. -/
def Payload.ofPoint (pt : Point) : Payload where
  filepath := some pt.payload.filepath.str
  filename := some pt.payload.filename
  chunkIndex := some pt.payload.chunkIndex
  chunkTotal := some pt.payload.chunkTotal
  text := some pt.payload.text

/-- The services of a retrieval: a search finds stored points, with their payloads. -/
structure Searches (stored : Point → Prop) where
  api : Retrieval.Api
  /-- The payload of a chunk, by its id. -/
  payloadOf : ℕ → Payload
  finds : api.Answers fun id text =>
    ∃ pt, stored pt ∧ id = pt.id ∧ text = some pt.payload.text ∧ payloadOf id = .ofPoint pt

/-- `retrieve_best` answers a job with what searches have found. All other calls may be answered in any
way. -/
def searching (env : Env) (stored : Point → Prop) : Answers RagIface Exn Transcript := fun c t o t' =>
  t' = t.heard c o ∧
    match c, o with
    | .retrieveBest question, .ok (chunks : List Payload) =>
      ∃ (searches : Searches stored) (objects objects' : Objects.Store Retrieval.Chunk)
        (result : List Objects.Ref),
        Retrieval.retrieveBest env searches.api objects question env.settings.recallK env.settings.rerankK
            env.settings.finalK = .ok (result, objects') ∧
          chunks = result.map fun r => searches.payloadOf (objects'.get r).id
    | _, _ => True

variable {env : Env} {stored : Point → Prop} {t t' : Transcript} {c : Call} {o : Except Exn (Reply c)}

/-- What was retrieved are payloads of stored points. -/
def Transcript.Stored (stored : Point → Prop) (t : Transcript) : Prop :=
  ∀ chunks, t.retrieved = some (some chunks) → ∀ chunk ∈ chunks, ∃ pt, stored pt ∧ chunk = .ofPoint pt

theorem Transcript.Stored.heard (h : t.Stored stored) (hanswer : searching env stored c t o t') :
    t'.Stored stored := by
  obtain ⟨rfl, hretrieves⟩ := hanswer
  cases c with
  | retrieveBest question =>
    cases o with
    | error e =>
      cases e with
      | retrieval =>
        rintro chunks ⟨⟩
      | _ => exact h
    | ok chunks =>
      obtain ⟨searches, objects, objects', result, hresult, rfl⟩ := hretrieves
      rintro _ ⟨⟩ chunk hchunk
      obtain ⟨r, hr, rfl⟩ := List.mem_map.mp hchunk
      obtain ⟨pt, hstored, -, -, hpayload⟩ := Retrieval.retrieveBest_passes searches.finds hresult r hr
      exact ⟨pt, hstored, hpayload⟩
  | nextLine =>
    cases o with
    | error e => exact h
    | ok next => cases next <;> exact h
  | _ => cases o <;> exact h

/-- The dense search finds the point, and the keyword search fails. -/
def sampleApi : Retrieval.Api where
  facet _ := none
  embed texts := some (.embeddings (texts.map fun _ => [0]))
  queryPoints query _ _ _ :=
    match query with
    | .dense _ => some [⟨0, 1, some "hi".toList⟩]
    | .sparse _ => none
  predict pairs := some (pairs.map fun _ => 0)

end LocalRag.Rag
