-- SUMMARY: `_fuse` is Reciprocal Rank Fusion over distinct texts, and agreement of both searches wins.
import LocalRag.Api.Retrieval

/-!
# Rank fusion

`_fuse` counts ranks with a set per list and adds the scores up in the chunk that had its
text first. What it computes is a formula over the texts of the lists: each text scores
`1 / (_RRF_K + rank)` for every list that has it, and copies do not count.
-/

namespace LocalRag.Retrieval

open PyText Objects Ranking

/-- The texts of a ranked list. Empty ones do not count. -/
def texts (chunks : Store Chunk) (ranked : List Ref) : List Text :=
  (ranked.map fun r => (chunks.get r).content).filter (· ≠ [])

/-- The first chunk of each text, in the order of the lists. -/
def firstChunks (chunks : Store Chunk) (rankedLists : List (List Ref)) : List Ref :=
  firsts (fun r => (chunks.get r).content)
    (rankedLists.flatten.filter fun r => (chunks.get r).content ≠ [])

def textScore (chunks : Store Chunk) (rankedLists : List (List Ref)) (text : Text) : ℚ :=
  fusedScore rrfK (rankedLists.map (texts chunks)) text

/-- The result is the first chunk of each text, with the score of its text. Higher scores come first,
and of equal ones what occurs first. Nothing else is changed. -/
structure Fuses (chunks : Store Chunk) (rankedLists : List (List Ref)) (result : List Ref)
    (chunks' : Store Chunk) : Prop where
  perm : result.Perm (firstChunks chunks rankedLists)
  score : ∀ r ∈ result,
    chunks'.get r = { chunks.get r with score := textScore chunks rankedLists (chunks.get r).content }
  others : ∀ r ∉ result, chunks'.get r = chunks.get r
  order : result.Pairwise fun a b => (chunks'.get b).score < (chunks'.get a).score ∨
    (chunks'.get a).score = (chunks'.get b).score ∧ [a, b].Sublist (firstChunks chunks rankedLists)

/-! ## The loops -/

/-- The state in the middle of a list: `finished` are the lists before it, and `front` is the part of
it that is done. -/
structure FuseState.Inv (chunks : Store Chunk) (finished : List (List Ref)) (front : List Ref)
    (st : FuseState) : Prop where
  fused : st.fused = (firstChunks chunks (finished ++ [front])).map fun r => ((chunks.get r).content, r)
  seen : st.seen = distinct (texts chunks front)
  scored : ∀ r ∈ firstChunks chunks (finished ++ [front]), st.chunks.get r =
    { chunks.get r with score := textScore chunks (finished ++ [front]) (chunks.get r).content }
  others : ∀ r ∉ firstChunks chunks (finished ++ [front]), st.chunks.get r = chunks.get r

variable {chunks : Store Chunk} {finished : List (List Ref)} {front : List Ref} {c r : Ref} {st : FuseState}

theorem FuseState.Inv.content (h : st.Inv chunks finished front) (r : Ref) :
    (st.chunks.get r).content = (chunks.get r).content := by
  by_cases hr : r ∈ firstChunks chunks (finished ++ [front])
  · rw [h.scored r hr]
    rfl
  · rw [h.others r hr]

theorem mem_texts {t : Text} :
    t ∈ texts chunks front ↔ t ≠ [] ∧ ∃ r ∈ front, (chunks.get r).content = t := by
  simp [texts, and_comm]

theorem texts_append (front : List Ref) (hc : (chunks.get c).content ≠ []) :
    texts chunks (front ++ [c]) = texts chunks front ++ [(chunks.get c).content] := by
  simp [texts, hc]

theorem texts_append_textless (front : List Ref) (hc : (chunks.get c).content = []) :
    texts chunks (front ++ [c]) = texts chunks front := by
  simp [texts, hc]

/-- The chunks that have a text, one after the other. -/
theorem flatten_append (finished : List (List Ref)) (front : List Ref) (c : Ref) :
    (finished ++ [front ++ [c]]).flatten = (finished ++ [front]).flatten ++ [c] := by
  simp

/-- No two of the first chunks have the same text. -/
theorem firstChunks_inj {rankedLists : List (List Ref)} {a b : Ref} (ha : a ∈ firstChunks chunks rankedLists)
    (hb : b ∈ firstChunks chunks rankedLists) (h : (chunks.get a).content = (chunks.get b).content) : a = b :=
  List.inj_on_of_nodup_map nodup_map_firsts ha hb h

theorem mem_texts_of_front {t : Text} (ht : t ∈ texts chunks front) :
    t ∈ (firstChunks chunks (finished ++ [front])).map fun r => (chunks.get r).content := by
  obtain ⟨hne, r, hr, rfl⟩ := mem_texts.mp ht
  refine mem_map_firsts.mpr (List.mem_map_of_mem (List.mem_filter.mpr ⟨?_, decide_eq_true hne⟩))
  simp [hr]

/-- A text that no chunk before has, no list before has. -/
theorem textScore_eq_zero {rankedLists : List (List Ref)} {t : Text}
    (ht : t ∉ (firstChunks chunks rankedLists).map fun r => (chunks.get r).content) :
    textScore chunks rankedLists t = 0 := by
  refine fusedScore_eq_zero ?_
  rw [List.forall_mem_map]
  intro ranked hranked hmem
  obtain ⟨hne, r, hr, rfl⟩ := mem_texts.mp hmem
  refine ht (mem_map_firsts.mpr (List.mem_map_of_mem (List.mem_filter.mpr ⟨?_, decide_eq_true hne⟩)))
  exact List.mem_flatten.mpr ⟨ranked, hranked, hr⟩

theorem firstChunks_known (hc : (chunks.get c).content ≠ [])
    (hknown : (chunks.get c).content ∈
      (firstChunks chunks (finished ++ [front])).map fun r => (chunks.get r).content) :
    firstChunks chunks (finished ++ [front ++ [c]]) = firstChunks chunks (finished ++ [front]) := by
  have hkeep : [c].filter (fun r => decide ((chunks.get r).content ≠ [])) = [c] := by simp [hc]
  rw [firstChunks, flatten_append, List.filter_append, hkeep]
  exact firsts_append_old (mem_map_firsts.mp hknown)

theorem firstChunks_unknown (hc : (chunks.get c).content ≠ [])
    (hunknown : (chunks.get c).content ∉
      (firstChunks chunks (finished ++ [front])).map fun r => (chunks.get r).content) :
    firstChunks chunks (finished ++ [front ++ [c]]) = firstChunks chunks (finished ++ [front]) ++ [c] := by
  have hkeep : [c].filter (fun r => decide ((chunks.get r).content ≠ [])) = [c] := by simp [hc]
  rw [firstChunks, flatten_append, List.filter_append, hkeep]
  exact firsts_append_new fun h => hunknown (mem_map_firsts.mpr h)

/-! ## One chunk -/

/-- A chunk without text, or with a text that its list had before, changes nothing. -/
theorem ignored (finished : List (List Ref))
    (hc : (chunks.get c).content = [] ∨ (chunks.get c).content ∈ texts chunks front) :
    distinct (texts chunks (front ++ [c])) = distinct (texts chunks front) ∧
      firstChunks chunks (finished ++ [front ++ [c]]) = firstChunks chunks (finished ++ [front]) ∧
      ∀ t, textScore chunks (finished ++ [front ++ [c]]) t = textScore chunks (finished ++ [front]) t := by
  by_cases hempty : (chunks.get c).content = []
  · have htexts := texts_append_textless front hempty
    refine ⟨by rw [htexts], ?_, fun t => ?_⟩
    · rw [firstChunks, flatten_append, List.filter_append, firstChunks]
      simp [hempty]
    · simp [textScore, htexts]
  · have hold := hc.resolve_left hempty
    have htexts := texts_append front hempty
    refine ⟨?_, ?_, fun t => ?_⟩
    · rw [htexts]
      exact firsts_append_old (by simpa using hold)
    · exact firstChunks_known hempty (mem_texts_of_front hold)
    · rw [textScore, textScore, List.map_append, List.map_singleton, fusedScore_append, htexts,
        share_append_old (.inr hold), List.map_append, List.map_singleton, fusedScore_append]

/-- The score of a text that is new in its list grows by that of its rank, and no other score does. -/
theorem textScore_counted (finished : List (List Ref)) (hc : (chunks.get c).content ≠ [])
    (hnew : (chunks.get c).content ∉ texts chunks front) (t : Text) :
    textScore chunks (finished ++ [front ++ [c]]) t = textScore chunks (finished ++ [front]) t +
      if t = (chunks.get c).content then 1 / (rrfK + ((distinct (texts chunks front)).length + 1) : ℚ) else 0 := by
  have hzero : share rrfK (texts chunks front) (chunks.get c).content = 0 := if_neg hnew
  rw [textScore, textScore, List.map_append, List.map_singleton, fusedScore_append, texts_append front hc,
    List.map_append, List.map_singleton, fusedScore_append]
  by_cases ht : t = (chunks.get c).content
  · rw [if_pos ht, ht, share_append_new hnew, hzero, add_zero]
  · rw [if_neg ht, share_append_old (.inl ht), add_zero]

/-- The set, with a text that is new in the list. -/
theorem distinct_texts_append (hc : (chunks.get c).content ≠ []) (hnew : (chunks.get c).content ∉ texts chunks front) :
    distinct (texts chunks (front ++ [c])) = distinct (texts chunks front) ++ [(chunks.get c).content] := by
  rw [texts_append front hc]
  exact firsts_append_new (by simpa using hnew)

/-- The owner of a text that is new in the list, with the share of its rank added. -/
def counted (chunks : Store Chunk) (front : List Ref) (text : Text) (owner : Chunk) : Chunk :=
  { owner with score := owner.score + 1 / (rrfK + (distinct (texts chunks front) ++ [text]).length) }

/-- An earlier chunk owns the text. -/
theorem FuseState.Inv.count_known (h : st.Inv chunks finished front) (hc : (chunks.get c).content ≠ [])
    (hnew : (chunks.get c).content ∉ texts chunks front) {owner : Ref}
    (howner : owner ∈ firstChunks chunks (finished ++ [front]))
    (htext : (chunks.get owner).content = (chunks.get c).content) :
    FuseState.Inv chunks finished (front ++ [c])
      ⟨st.chunks.modify owner (counted chunks front (chunks.get c).content), st.fused,
        distinct (texts chunks front) ++ [(chunks.get c).content]⟩ := by
  have hfirst := firstChunks_known hc (List.mem_map.mpr ⟨owner, howner, htext⟩)
  refine ⟨hfirst ▸ h.fused, (distinct_texts_append hc hnew).symm, fun r hr => ?_, fun r hr => ?_⟩
  · rw [hfirst] at hr
    rw [textScore_counted finished hc hnew]
    by_cases hr_owner : r = owner
    · rw [hr_owner, Store.get_modify_self, h.scored owner howner, htext, if_pos rfl, counted, List.length_append,
        List.length_singleton, Nat.cast_add, Nat.cast_one]
    · have hother : (chunks.get r).content ≠ (chunks.get c).content := fun heq =>
        hr_owner (firstChunks_inj hr howner (heq.trans htext.symm))
      rw [Store.get_modify_of_ne hr_owner, h.scored r hr, if_neg hother, add_zero]
  · rw [hfirst] at hr
    have hr_owner : r ≠ owner := fun heq => hr (heq ▸ howner)
    rw [Store.get_modify_of_ne hr_owner, h.others r hr]

/-- The chunk is the first with its text, which has scored nothing so far. -/
theorem FuseState.Inv.count_unknown (h : st.Inv chunks finished front) (hc : (chunks.get c).content ≠ [])
    (hnew : (chunks.get c).content ∉ texts chunks front)
    (hunknown : (chunks.get c).content ∉
      (firstChunks chunks (finished ++ [front])).map fun r => (chunks.get r).content) :
    FuseState.Inv chunks finished (front ++ [c])
      ⟨(st.chunks.modify c fun chunk => { chunk with score := 0 }).modify c
          (counted chunks front (chunks.get c).content),
        st.fused ++ [((chunks.get c).content, c)], distinct (texts chunks front) ++ [(chunks.get c).content]⟩ := by
  have hfirst := firstChunks_unknown hc hunknown
  have hc_new : c ∉ firstChunks chunks (finished ++ [front]) := fun hmem => hunknown (List.mem_map_of_mem hmem)
  refine ⟨?_, (distinct_texts_append hc hnew).symm, fun r hr => ?_, fun r hr => ?_⟩
  · rw [hfirst, List.map_append, ← h.fused]
    rfl
  · rw [textScore_counted finished hc hnew]
    by_cases hr_new : r = c
    · rw [hr_new, Store.get_modify_self, Store.get_modify_self, h.others c hc_new, if_pos rfl,
        textScore_eq_zero hunknown, counted, List.length_append, List.length_singleton, Nat.cast_add, Nat.cast_one]
    · have hr : r ∈ firstChunks chunks (finished ++ [front]) := by simpa [hfirst, hr_new] using hr
      have hother : (chunks.get r).content ≠ (chunks.get c).content := fun heq =>
        hunknown (heq ▸ List.mem_map_of_mem hr)
      rw [Store.get_modify_of_ne hr_new, Store.get_modify_of_ne hr_new, h.scored r hr, if_neg hother, add_zero]
  · obtain ⟨hr, hr_new⟩ : r ∉ firstChunks chunks (finished ++ [front]) ∧ r ≠ c := by
      simpa [hfirst] using hr
    rw [Store.get_modify_of_ne hr_new, Store.get_modify_of_ne hr_new, h.others r hr]

theorem FuseState.Inv.fuseChunk (h : st.Inv chunks finished front) (c : Ref) :
    (fuseChunk st c).Inv chunks finished (front ++ [c]) := by
  unfold Retrieval.fuseChunk
  rw [h.content c, h.seen]
  dsimp only
  by_cases hignored : (chunks.get c).content = [] ∨ (chunks.get c).content ∈ distinct (texts chunks front)
  · obtain ⟨hdistinct, hfirst, hscore⟩ := ignored finished (hignored.imp_right mem_distinct.mp)
    rw [if_pos hignored]
    exact ⟨hfirst ▸ h.fused, hdistinct ▸ h.seen, fun r hr => hscore _ ▸ h.scored r (hfirst ▸ hr),
      fun r hr => h.others r (hfirst ▸ hr)⟩
  · rw [if_neg hignored]
    obtain ⟨hc, hnew⟩ := not_or.mp hignored
    have hnew := mt mem_distinct.mpr hnew
    have hkeys : st.fused.map Prod.fst =
        (firstChunks chunks (finished ++ [front])).map fun r => (chunks.get r).content := by
      rw [h.fused, List.map_map]
      rfl
    by_cases hknown : (chunks.get c).content ∈
        (firstChunks chunks (finished ++ [front])).map fun r => (chunks.get r).content
    · obtain ⟨owner, howner, htext⟩ := List.mem_map.mp hknown
      have hlookup : st.fused.lookup (chunks.get c).content = some owner := by
        rw [h.fused, ← htext]
        exact lookup_map_key howner nodup_map_firsts
      rw [if_pos (hkeys ▸ hknown), hlookup]
      exact h.count_known hc hnew howner htext
    · have hcounted := h.count_unknown hc hnew hknown
      have hmem : c ∈ firstChunks chunks (finished ++ [front ++ [c]]) := by simp [firstChunks_unknown hc hknown]
      have hlookup : (st.fused ++ [((chunks.get c).content, c)]).lookup (chunks.get c).content = some c := by
        have hfused : st.fused ++ [((chunks.get c).content, c)] = _ := hcounted.fused
        rw [hfused]
        exact lookup_map_key hmem nodup_map_firsts
      rw [if_neg (hkeys ▸ hknown), hlookup]
      exact hcounted

/-! ## All chunks -/

theorem FuseState.Inv.foldl (h : st.Inv chunks finished front) (rest : List Ref) :
    (rest.foldl Retrieval.fuseChunk st).Inv chunks finished (front ++ rest) := by
  induction rest generalizing st front with
  | nil => rwa [List.append_nil]
  | cons c rest ih =>
    rw [List.foldl_cons, List.append_cons]
    exact ih (h.fuseChunk c)

theorem firstChunks_append_nil (rankedLists : List (List Ref)) :
    firstChunks chunks (rankedLists ++ [[]]) = firstChunks chunks rankedLists := by
  simp [firstChunks]

theorem textScore_append_nil (rankedLists : List (List Ref)) (t : Text) :
    textScore chunks (rankedLists ++ [[]]) t = textScore chunks rankedLists t := by
  rw [textScore, List.map_append, List.map_singleton, fusedScore_append]
  exact add_zero _

/-- The set is new for every list. -/
theorem FuseState.Inv.next (h : st.Inv chunks finished front) :
    { st with seen := [] }.Inv chunks (finished ++ [front]) [] where
  fused := by rw [firstChunks_append_nil, h.fused]
  seen := rfl
  scored r hr := by
    rw [firstChunks_append_nil] at hr
    rw [textScore_append_nil, h.scored r hr]
  others r hr := by
    rw [firstChunks_append_nil] at hr
    exact h.others r hr

theorem FuseState.inv_start (chunks : Store Chunk) : FuseState.Inv chunks [] [] ⟨chunks, [], []⟩ :=
  ⟨rfl, rfl, nofun, fun _ _ => rfl⟩

theorem FuseState.inv_foldl (chunks : Store Chunk) (rankedLists : List (List Ref)) :
    { rankedLists.foldl fuseRanked ⟨chunks, [], []⟩ with seen := [] }.Inv chunks rankedLists [] := by
  induction rankedLists using List.reverseRecOn with
  | nil => exact FuseState.inv_start chunks
  | append_singleton rankedLists ranked ih =>
    rw [List.foldl_append, List.foldl_cons, List.foldl_nil]
    exact (ih.foldl ranked).next

theorem fuses_fuse (chunks : Store Chunk) (rankedLists : List (List Ref)) :
    Fuses chunks rankedLists (fuse chunks rankedLists).1 (fuse chunks rankedLists).2 := by
  have h := FuseState.inv_foldl chunks rankedLists
  unfold fuse
  dsimp only
  generalize rankedLists.foldl fuseRanked ⟨chunks, [], []⟩ = st at h
  have howners : st.fused.map Prod.snd = firstChunks chunks rankedLists := by
    have hfused := h.fused
    dsimp only at hfused
    rw [hfused, firstChunks_append_nil, List.map_map]
    exact List.map_id _
  rw [howners]
  refine ⟨sortedDesc_perm, fun r hr => ?_, fun r hr => ?_, sortedDesc_order nodup_firsts⟩
  · have hscored := h.scored r (by rwa [firstChunks_append_nil, ← mem_sortedDesc])
    rwa [textScore_append_nil] at hscored
  · exact h.others r (by rwa [firstChunks_append_nil, ← mem_sortedDesc])

/-- A chunk without text, and a further copy of a text of its list, might as well not be there. -/
theorem fuse_ignores {before after : List (List Ref)} {front rest : List Ref}
    (hc : (chunks.get c).content = [] ∨ (chunks.get c).content ∈ front.map fun r => (chunks.get r).content) :
    fuse chunks (before ++ (front ++ c :: rest) :: after) = fuse chunks (before ++ (front ++ rest) :: after) := by
  have h := (FuseState.inv_foldl chunks before).foldl front
  have hsame : fuseRanked (before.foldl fuseRanked ⟨chunks, [], []⟩) (front ++ c :: rest) =
      fuseRanked (before.foldl fuseRanked ⟨chunks, [], []⟩) (front ++ rest) := by
    unfold fuseRanked at h ⊢
    rw [List.foldl_append, List.foldl_cons, List.foldl_append]
    generalize front.foldl fuseChunk _ = st at h
    rw [List.nil_append] at h
    have hskip : (chunks.get c).content = [] ∨ (chunks.get c).content ∈ st.seen := by
      by_cases hempty : (chunks.get c).content = []
      · exact .inl hempty
      · have hold := hc.resolve_left hempty
        obtain ⟨r, hr, htext⟩ := List.mem_map.mp hold
        have hmem : (chunks.get c).content ∈ texts chunks front := mem_texts.mpr ⟨hempty, r, hr, htext⟩
        rw [h.seen]
        exact .inr (mem_distinct.mpr hmem)
    rw [fuseChunk, h.content c, if_pos hskip]
  unfold fuse
  rw [List.foldl_append, List.foldl_cons, List.foldl_append, List.foldl_cons, hsame]

/-- `_fuse` is Reciprocal Rank Fusion over distinct texts, and copies and chunks without text do not
matter. -/
theorem fuse_eq_rrf (chunks : Store Chunk) (rankedLists : List (List Ref)) :
    Fuses chunks rankedLists (fuse chunks rankedLists).1 (fuse chunks rankedLists).2 ∧
      ∀ before front c rest after, rankedLists = before ++ (front ++ rest) :: after →
        (chunks.get c).content = [] ∨ (chunks.get c).content ∈ front.map (fun r => (chunks.get r).content) →
        fuse chunks (before ++ (front ++ c :: rest) :: after) = fuse chunks rankedLists := by
  refine ⟨fuses_fuse chunks rankedLists, ?_⟩
  rintro before front c rest after rfl hc
  exact fuse_ignores hc

/-! ## Agreement -/

theorem Fuses.mem_iff {rankedLists : List (List Ref)} {result : List Ref} {chunks' : Store Chunk}
    (h : Fuses chunks rankedLists result chunks') {t : Text} :
    t ∈ result.map (fun r => (chunks.get r).content) ↔ ∃ ranked ∈ rankedLists, t ∈ texts chunks ranked := by
  rw [(h.perm.map _).mem_iff, firstChunks, mem_map_firsts]
  simp only [List.mem_map, List.mem_filter, List.mem_flatten, decide_eq_true_eq, mem_texts]
  constructor
  · rintro ⟨r, ⟨⟨ranked, hranked, hr⟩, hne⟩, rfl⟩
    exact ⟨ranked, hranked, hne, r, hr, rfl⟩
  · rintro ⟨ranked, hranked, hne, r, hr, rfl⟩
    exact ⟨r, ⟨⟨ranked, hranked, hr⟩, hne⟩, rfl⟩

/-- With at most 61 distinct texts in each of two lists, every text of both comes before every text of
only one. -/
theorem fuse_agreement_first (chunks : Store Chunk) (a b : List Ref)
    (ha : (distinct (texts chunks a)).length ≤ 61) (hb : (distinct (texts chunks b)).length ≤ 61)
    (t u : Text) (ht : t ∈ texts chunks a ∧ t ∈ texts chunks b)
    (hu : (u ∈ texts chunks a ∧ u ∉ texts chunks b) ∨ (u ∉ texts chunks a ∧ u ∈ texts chunks b)) :
    [t, u].Sublist ((fuse chunks [a, b]).1.map fun r => (chunks.get r).content) := by
  have h := fuses_fuse chunks [a, b]
  generalize fuse chunks [a, b] = fused at h ⊢
  have hscore : textScore chunks [a, b] u < textScore chunks [a, b] t :=
    fusedScore_lt_of_mem_both (k := rrfK) ha hb ht.1 ht.2 (hu.imp And.right And.left |>.symm)
  have htmem := h.mem_iff.mpr ⟨a, by simp, ht.1⟩
  have humem : u ∈ fused.1.map fun r => (chunks.get r).content := by
    rcases hu with hu | hu
    · exact h.mem_iff.mpr ⟨a, by simp, hu.1⟩
    · exact h.mem_iff.mpr ⟨b, by simp, hu.2⟩
  have hne : t ≠ u := by
    rintro rfl
    exact absurd hscore (lt_irrefl _)
  rcases pair_sublist_or hne htmem humem with hbefore | hafter
  · exact hbefore
  · -- The other order is one of non-increasing scores.
    obtain ⟨pair, hpair, hmap⟩ := List.sublist_map_iff.mp hafter
    obtain ⟨ru, rt, rfl⟩ : ∃ ru rt, pair = [ru, rt] := by
      match pair, hmap with
      | [ru, rt], _ => exact ⟨ru, rt, rfl⟩
    obtain ⟨rfl, rfl⟩ : u = (chunks.get ru).content ∧ t = (chunks.get rt).content := by simpa using hmap
    have horder := List.pairwise_iff_forall_sublist.mp h.order hpair
    rw [h.score ru (hpair.subset (by simp)), h.score rt (hpair.subset (by simp))] at horder
    rcases horder with hlt | ⟨heq, -⟩
    · exact absurd hlt hscore.asymm
    · exact absurd heq hscore.ne

/-- Three chunks with the texts `a`, `b` and `c`. -/
def sampleChunks : Store Chunk where
  get r := ⟨r, some (["a", "b", "c"].getD r "").toList, 1, none⟩
  next := 3

/-- The vector search finds `a` and `b`, the keyword search `c` and `b`. -/
theorem fuse_agreement_first_sample :
    [['b'], ['a']].Sublist ((fuse sampleChunks [[0, 1], [2, 1]]).1.map fun r => (sampleChunks.get r).content) :=
  fuse_agreement_first sampleChunks [0, 1] [2, 1] (by decide) (by decide) ['b'] ['a'] (by decide) (by decide)

end LocalRag.Retrieval
