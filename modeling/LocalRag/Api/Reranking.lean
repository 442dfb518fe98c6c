-- SUMMARY: `retrieve_best` returns as many distinct chunks as it can, and those with the highest rerank scores.
import LocalRag.Api.Fusion

/-!
# Reranking

Fusion leaves one chunk for each text, and two cuts follow it: one before and one after
the reranking. The first keeps at least as many chunks as the second, so only the second
decides how many there are.
-/

namespace LocalRag.Retrieval

open PyText Objects Ranking

/-- The texts that both lists have together, each once. -/
def distinctTexts (chunks : Store Chunk) (rankedLists : List (List Ref)) : List Text :=
  distinct (rankedLists.flatMap (texts chunks))

/-- The reranker gives one score for every pair. -/
def Api.ScoresEach (api : Api) : Prop :=
  ∀ pairs, ∃ scores, api.predict pairs = some scores ∧ scores.length = pairs.length

/-- The result is a best choice of `finalK` of the candidates, by the scores that the reranker has given
them, or all of them if they are fewer. Its texts are distinct and come from the lists. -/
structure Best (api : Api) (question : Text) (chunks chunks' : Store Chunk) (rankedLists : List (List Ref))
    (candidates : List Ref) (finalK : ℤ) (result : List Ref) : Prop where
  length : (result.length : ℤ) = min finalK (distinctTexts chunks rankedLists).length
  distinct : (result.map fun r => (chunks.get r).content).Nodup
  fromLists : ∀ r ∈ result, ∃ ranked ∈ rankedLists, (chunks.get r).content ∈ texts chunks ranked
  fromCandidates : ∀ r ∈ result, r ∈ candidates
  scores : ∃ scores, candidates.map (fun c => (chunks'.get c).rerankScore) = scores.map some ∧
    (candidates ≠ [] → api.predict (candidates.map fun c => (question, (chunks.get c).content)) = some scores)
  order : result.Pairwise fun a b => (chunks'.get b).rerankKey ≤ (chunks'.get a).rerankKey
  best : ∀ c ∈ candidates, c ∉ result → ∀ r ∈ result, (chunks'.get c).rerankKey ≤ (chunks'.get r).rerankKey

variable {api : Api} {chunks chunks' : Store Chunk} {question : Text} {candidates : List Ref}
  {rankedLists : List (List Ref)}

/-! ## Candidates -/

theorem map_firstChunks : (firstChunks chunks rankedLists).map (fun r => (chunks.get r).content) =
    distinctTexts chunks rankedLists := by
  rw [firstChunks, map_firsts, distinctTexts]
  congr 1
  induction rankedLists with
  | nil => rfl
  | cons ranked rankedLists ih =>
    rw [List.flatten_cons, List.filter_append, List.map_append, ih, List.flatMap_cons, texts, List.filter_map]
    rfl

theorem Fuses.length {result : List Ref} (h : Fuses chunks rankedLists result chunks') :
    result.length = (distinctTexts chunks rankedLists).length := by
  rw [h.perm.length_eq, ← map_firstChunks, List.length_map]

theorem Fuses.nodup {result : List Ref} (h : Fuses chunks rankedLists result chunks') :
    (result.map fun r => (chunks.get r).content).Nodup :=
  (h.perm.map _).nodup_iff.mpr nodup_map_firsts

theorem Fuses.content {result : List Ref} (h : Fuses chunks rankedLists result chunks') (r : Ref) :
    (chunks'.get r).content = (chunks.get r).content := by
  by_cases hr : r ∈ result
  · rw [h.score r hr]
    rfl
  · rw [h.others r hr]

theorem sliceTo_of_pos {α : Type} {n : ℤ} (h : 0 < n) (l : List α) : sliceTo l n = l.take n.toNat := if_pos h.le

/-! ## Scores -/

theorem get_setRerankScores_of_notMem {scored : List (Ref × ℚ)} {r : Ref} (h : r ∉ scored.map Prod.fst) :
    (setRerankScores chunks scored).get r = chunks.get r := by
  induction scored generalizing chunks with
  | nil => rfl
  | cons e scored ih =>
    obtain ⟨hr, hrest⟩ := not_or.mp (mt List.mem_cons.mpr h)
    have hset : setRerankScores chunks (e :: scored) =
        setRerankScores (chunks.modify e.1 fun c => { c with rerankScore := some e.2 }) scored := rfl
    rw [hset, ih hrest, Store.get_modify_of_ne hr]

/-- Every candidate has the score it was given. -/
theorem setRerankScores_zip (hnodup : candidates.Nodup) {scores : List ℚ} (hlen : scores.length = candidates.length) :
    candidates.map (fun c => ((setRerankScores chunks (candidates.zip scores)).get c).rerankScore) = scores.map some := by
  induction candidates generalizing chunks scores with
  | nil => rw [List.length_eq_zero_iff.mp hlen]; rfl
  | cons c candidates ih =>
    match scores, hlen with
    | score :: scores, hlen =>
      obtain ⟨hc, hnodup⟩ := List.nodup_cons.mp hnodup
      have hlen : scores.length = candidates.length := Nat.succ.inj hlen
      have hset : setRerankScores chunks ((c :: candidates).zip (score :: scores)) =
          setRerankScores (chunks.modify c fun chunk => { chunk with rerankScore := some score })
            (candidates.zip scores) := rfl
      have hkeys : (candidates.zip scores).map Prod.fst = candidates := List.map_fst_zip hlen.ge
      rw [hset, List.map_cons, List.map_cons, ih hnodup hlen,
        get_setRerankScores_of_notMem (by rwa [hkeys]), Store.get_modify_self]

/-- What `rerank` returns. -/
theorem rerank_eq (hscores : api.ScoresEach) (chunks : Store Chunk) (question : Text)
    (hnodup : candidates.Nodup) (topN : ℤ) :
    ∃ chunks' scores, rerank api chunks question candidates topN =
        .ok (sliceTo (sortedDesc (fun c => (chunks'.get c).rerankKey) candidates) topN, chunks') ∧
      candidates.map (fun c => (chunks'.get c).rerankScore) = scores.map some ∧
      (candidates ≠ [] → api.predict (candidates.map fun c => (question, (chunks.get c).content)) = some scores) := by
  by_cases hnil : candidates = []
  · subst hnil
    refine ⟨chunks, [], ?_, rfl, fun h => absurd rfl h⟩
    rw [rerank, if_pos rfl]
    simp [sliceTo, sortedDesc]
  · obtain ⟨scores, hpredict, hlen⟩ := hscores (candidates.map fun c => (question, (chunks.get c).content))
    rw [List.length_map] at hlen
    refine ⟨setRerankScores chunks (candidates.zip scores), scores, ?_, setRerankScores_zip hnodup hlen,
      fun _ => hpredict⟩
    rw [rerank, if_neg hnil, hpredict]
    simp [hlen]

/-! ## The two cuts -/

theorem best_of_fuse (hscores : api.ScoresEach) (question : Text) (chunks : Store Chunk)
    (rankedLists : List (List Ref)) (rerankK : ℤ) {finalK : ℤ} (hfinal : 0 < finalK) :
    let fused := fuse chunks rankedLists
    let candidates := sliceTo fused.1 (max rerankK finalK)
    ∃ result chunks', rerank api fused.2 question candidates finalK = .ok (result, chunks') ∧
      Best api question chunks chunks' rankedLists candidates finalK result := by
  have h := fuses_fuse chunks rankedLists
  generalize fuse chunks rankedLists = fused at h
  dsimp only
  have hcut : sliceTo fused.1 (max rerankK finalK) = fused.1.take (max rerankK finalK).toNat :=
    sliceTo_of_pos (lt_max_of_lt_right hfinal) fused.1
  have hfront : sliceTo fused.1 (max rerankK finalK) <+: fused.1 := hcut ▸ List.take_prefix _ _
  have hlen : (sliceTo fused.1 (max rerankK finalK)).length = min (max rerankK finalK).toNat fused.1.length := by
    rw [hcut, List.length_take]
  generalize sliceTo fused.1 (max rerankK finalK) = candidates at hfront hlen
  have hdistinct := h.nodup.sublist (hfront.sublist.map _)
  obtain ⟨chunks', scores, hrerank, hgiven, hpredict⟩ :=
    rerank_eq hscores fused.2 question hdistinct.of_map finalK
  rw [sliceTo_of_pos hfinal] at hrerank
  have hmem : ∀ r ∈ (sortedDesc (fun c => (chunks'.get c).rerankKey) candidates).take finalK.toNat, r ∈ candidates :=
    fun r hr => mem_sortedDesc.mp (List.mem_of_mem_take hr)
  refine ⟨_, chunks', hrerank, ?_, ?_, ?_, hmem, ⟨scores, hgiven, ?_⟩, ?_, ?_⟩
  · rw [List.length_take, length_sortedDesc, hlen, h.length]
    omega
  · have hperm : (sortedDesc (fun c => (chunks'.get c).rerankKey) candidates).Perm candidates := sortedDesc_perm
    exact ((hperm.map _).nodup_iff.mpr hdistinct).sublist ((List.take_sublist _ _).map _)
  · intro r hr
    exact h.mem_iff.mp (List.mem_map_of_mem (hfront.subset (hmem r hr)))
  · simpa only [h.content] using hpredict
  · exact sortedDesc_pairwise.sublist (List.take_sublist _ _)
  · exact fun c hc hcut => sortedDesc_take_best hc _ hcut

variable {env : Env}

/-- What the two searches of `retrieve_best` return. -/
def Recalls (env : Env) (api : Api) (chunks : Store Chunk) (question : Text) (recallK : ℤ)
    (vectorResults keywordResults : List Ref) (chunks' : Store Chunk) : Prop :=
  ∃ qvec, embed env api question = .ok qvec ∧
    hybridRecall env api chunks question qvec recallK (extractFilenames env api question) =
      .ok (vectorResults, keywordResults, chunks')

/-- Whatever the searches find, `retrieve_best` returns a best choice of as many distinct texts as there
are, up to `final_k`. -/
theorem retrieveBest_best (env : Env) (api : Api) (chunks found : Store Chunk) (question : Text)
    (recallK rerankK finalK : ℤ) (vectorResults keywordResults : List Ref) (hfinal : 0 < finalK)
    (hscores : api.ScoresEach)
    (hrecalls : Recalls env api chunks question recallK vectorResults keywordResults found) :
    ∃ result chunks', retrieveBest env api chunks question recallK rerankK finalK = .ok (result, chunks') ∧
      Best api question found chunks' [vectorResults, keywordResults]
        (sliceTo (fuse found [vectorResults, keywordResults]).1 (max rerankK finalK)) finalK result := by
  obtain ⟨qvec, hembed, hrecall⟩ := hrecalls
  obtain ⟨result, chunks', hrerank, hbest⟩ :=
    best_of_fuse hscores question found [vectorResults, keywordResults] rerankK hfinal
  refine ⟨result, chunks', ?_, hbest⟩
  rw [retrieveBest, hembed]
  change (hybridRecall env api chunks question qvec recallK (extractFilenames env api question) >>= _) = _
  rw [hrecall]
  exact hrerank

/-- Every search finds `a` twice and `b`, and the reranker scores all pairs alike. -/
def sampleApi : Api where
  facet _ := some []
  embed texts := some (.embeddings (texts.map fun _ => [0]))
  queryPoints _ _ _ _ := some [⟨0, 1, some ['a']⟩, ⟨1, 1, some ['a']⟩, ⟨2, 1, some ['b']⟩]
  predict pairs := some (pairs.map fun _ => 0)

def noChunks : Store Chunk where
  get r := ⟨r, none, 0, none⟩
  next := 0

/-- The chunks that the two searches find. -/
def sampleFound : Store Chunk :=
  ((noChunks.allocAll [⟨0, some ['a'], 1, none⟩, ⟨1, some ['a'], 1, none⟩, ⟨2, some ['b'], 1, none⟩]).2.allocAll
    [⟨0, some ['a'], 1, none⟩, ⟨1, some ['a'], 1, none⟩, ⟨2, some ['b'], 1, none⟩]).2

theorem retrieveBest_best_sample :
    ∃ result chunks', retrieveBest Env.sample sampleApi noChunks ['q'] 15 1 4 = .ok (result, chunks') ∧
      Best sampleApi ['q'] sampleFound chunks' [[0, 1, 2], [3, 4, 5]]
        (sliceTo (fuse sampleFound [[0, 1, 2], [3, 4, 5]]).1 (max 1 4)) 4 result :=
  retrieveBest_best Env.sample sampleApi noChunks sampleFound ['q'] 15 1 4 [0, 1, 2] [3, 4, 5] (by decide)
    (fun pairs => ⟨_, rfl, List.length_map _⟩) ⟨[0], rfl, rfl⟩

end LocalRag.Retrieval
