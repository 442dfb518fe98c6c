-- SUMMARY: Every chunk that is embedded is stripped, not empty and within a bound; within the limit of the model, the text embedded is the text stored.
import LocalRag.Ingest.ChunkWindows
import LocalRag.Ingest.Reindexing

/-!
# Chunk bounds

None of the chunkers keeps to `CHUNK_SIZE`. The recursive splitter may repeat up to
`CHUNK_OVERLAP` characters and a separator in front of a part. The paragraph buffer
of the Markdown chunker does not count the separators after empty paragraphs at its
front, and the packing pass keeps an empty chunk for the next window. What is not
counted is whitespace at the front of a chunk, so the bound is one on stripped
chunks.
-/

namespace LocalRag

open PyText PyPath Packing Effects

/-- The bound on the length of a stripped chunk. -/
def chunkBound (s : Settings) : ℤ := max s.maxChunkChars (s.chunkSize + s.chunkOverlap + 2)

/-- Stripped, the text is within the bound. -/
def Bounded (s : Settings) (c : Text) : Prop := ((strip c).length : ℤ) ≤ chunkBound s

variable {s : Settings} {sep t c : Text} {l : List Text}

theorem Bounded.of_length_le (h : (c.length : ℤ) ≤ chunkBound s) : Bounded s c := by
  have := length_strip_le c
  unfold Bounded
  omega

theorem Bounded.of_fits (h : (c.length : ℤ) ≤ s.maxChunkChars) : Bounded s c :=
  .of_length_le (h.trans (le_max_left _ _))

/-! ## The recursive splitter -/

/-- With an overlap, a chunk is longer than `CHUNK_SIZE` only by what it repeats. -/
theorem length_mergeSplits_le (hover : 0 ≤ s.chunkOverlap) (hsep : (sep.length : ℤ) ≤ 2)
    (hl : ∀ t ∈ l, (t.length : ℤ) ≤ s.chunkSize) :
    ∀ c ∈ mergeSplits s l sep s.chunkOverlap, (c.length : ℤ) ≤ s.chunkSize + s.chunkOverlap + 2 := by
  rw [mergeSplits_eq_pack]
  intro c hc
  obtain ⟨w, hw, rfl⟩ := List.mem_map.mp hc
  rw [length_join]
  rcases pack_span_le l w hw with hfits | ⟨a, ha, hitems⟩
  · omega
  · have hkept := pack_kept_le hover l w hw
    have hlen : len a ≤ s.chunkSize := hl a ha
    rw [hitems, span_snoc]
    split <;> omega

theorem length_recursiveSplit_le (hs : s.Accepted) (t : Text) :
    ∀ c ∈ recursiveSplit s separators t, (c.length : ℤ) ≤ s.chunkSize + s.chunkOverlap + 2 := by
  intro c hc
  obtain ⟨r, hr, hc⟩ := (mem_recursiveSplit_iff hs (by decide)).mp hc
  have hshort : ∀ sep ∈ separators, (sep.length : ℤ) ≤ 2 := by decide
  have hpieces : ∀ piece ∈ r.pieces, (piece.length : ℤ) ≤ s.chunkSize :=
    fun piece hpiece => (pieces_of_mem_runs hr piece hpiece).2
  exact length_mergeSplits_le hs.chunking.1 (hshort _ (separator_of_mem_runs hr)) hpieces c hc

theorem length_chunkText_le (hs : s.Accepted) (t : Text) :
    ∀ c ∈ chunkText s t, (c.length : ℤ) ≤ s.chunkSize + s.chunkOverlap + 2 := by
  unfold chunkText
  split
  · simp
  · exact length_recursiveSplit_le hs t

theorem bounded_chunkText (hs : s.Accepted) (t : Text) : ∀ c ∈ chunkText s t, Bounded s c :=
  fun c hc => .of_length_le ((length_chunkText_le hs t c hc).trans (le_max_right _ _))

/-! ## The packing pass -/

/-- Without an overlap only empty chunks are repeated. -/
theorem nw_join_of_span_le (hsep : nw sep = []) (h : span len sep.length l ≤ 0) :
    nw (join sep l) = [] := by
  rw [nw_join hsep, List.flatten_eq_nil_iff]
  intro u hu
  obtain ⟨t, ht, rfl⟩ := List.mem_map.mp hu
  have hle : len t ≤ span len sep.length l := size_le_span len_nonneg (by omega) ht
  have hzero : (t.length : ℤ) ≤ 0 := hle.trans h
  have hnil : t = [] := List.length_eq_zero_iff.mp (by omega)
  rw [hnil, nw_nil]

theorem bounded_packed (hs : s.Accepted) (hsep : nw sep = []) (hl : ∀ c ∈ l, Bounded s c) :
    ∀ c ∈ mergeSplits s l sep 0, Bounded s c := by
  rw [mergeSplits_eq_pack]
  intro c hc
  obtain ⟨w, hw, rfl⟩ := List.mem_map.mp hc
  rcases pack_span_le l w hw with hfits | ⟨a, ha, hitems⟩
  · refine .of_fits ?_
    rw [length_join]
    exact hfits.trans hs.chunking.2.2
  · have hkept := nw_join_of_span_le hsep (pack_kept_le le_rfl l w hw)
    unfold Bounded
    rw [hitems]
    by_cases hnil : w.kept = []
    · rw [hnil, List.nil_append, join_singleton]
      exact hl a ha
    · rw [join_append_of_ne_nil sep hnil (by simp), join_singleton,
        strip_append_of_nw_nil (by rw [nw_append, hkept, hsep, List.append_nil])]
      exact hl a ha

/-! ## Python -/

theorem bounded_emit (hs : s.Accepted) (segment : Text) : ∀ c ∈ emit s segment, Bounded s c := by
  unfold emit
  split
  · simp
  · split
    · exact bounded_chunkText hs segment
    · next hfits => simpa using Bounded.of_fits (not_lt.mp hfits)

theorem bounded_chunkBody (hs : s.Accepted) (lines : List Text) (body : List Stmt) (prevEnd : ℕ) :
    ∀ c ∈ (chunkBody s lines body prevEnd).1, Bounded s c := by
  induction body generalizing prevEnd with
  | nil => simp [chunkBody]
  | cons node body ih =>
    intro c hc
    simp only [chunkBody, List.mem_append] at hc
    rcases hc with hc | hc | hc
    · split at hc
      · exact bounded_emit hs _ c hc
      · cases hc
    · exact bounded_emit hs _ c hc
    · exact ih node.endLineno c hc

theorem bounded_chunkPython (env : Env) (text : Text) :
    ∀ c ∈ chunkPython env text, Bounded env.settings c := by
  have hplain := bounded_chunkText env.accepted text
  unfold chunkPython
  cases env.ast.run text with
  | none => exact hplain
  | some body =>
    have hbody := bounded_chunkBody env.accepted (splitlines true text) body 0
    dsimp only
    generalize chunkBody env.settings (splitlines true text) body 0 = result at hbody ⊢
    have hall : ∀ c ∈ result.1 ++ (if result.2 < (splitlines true text).length then
        emit env.settings (lineSpan (splitlines true text) (result.2 + 1)
          (splitlines true text).length) else []), Bounded env.settings c := by
      intro c hc
      rcases List.mem_append.mp hc with hc | hc
      · exact hbody c hc
      · split at hc
        · exact bounded_emit env.accepted _ c hc
        · cases hc
    generalize result.1 ++ _ = all at hall ⊢
    split
    · exact hplain
    · exact bounded_packed env.accepted (by decide) hall

/-! ## Markdown -/

/-- The paragraphs in a buffer from the first one that is not empty. -/
def counted (buf : List Text) : List Text := buf.dropWhile List.isEmpty

/-- The empty paragraphs at the front add only line breaks. -/
theorem strip_join_counted (hsep : nw sep = []) (buf : List Text) :
    strip (join sep (counted buf)) = strip (join sep buf) := by
  induction buf with
  | nil => rfl
  | cons p buf ih =>
    cases p with
    | cons ch p => rfl
    | nil =>
      change strip (join sep (counted buf)) = _
      rw [ih]
      by_cases hbuf : buf = []
      · simp [hbuf]
      · rw [join_cons_of_ne_nil _ _ hbuf, List.nil_append, strip_append_of_nw_nil hsep]

theorem counted_snoc (buf : List Text) (p : Text) :
    counted (buf ++ [p]) = if counted buf = [] then counted [p] else counted buf ++ [p] := by
  unfold counted
  rw [List.dropWhile_append]
  simp

/-- The buffer that is counted starts with a paragraph that is not empty. -/
theorem length_join_counted_pos (sep : Text) {buf : List Text} (h : counted buf ≠ []) :
    0 < (join sep (counted buf)).length := by
  induction buf with
  | nil => exact absurd rfl h
  | cons p buf ih =>
    cases p with
    | nil => exact ih h
    | cons ch p =>
      change 0 < (join sep ((ch :: p) :: buf)).length
      by_cases hbuf : buf = []
      · simp [hbuf]
      · rw [join_cons_of_ne_nil _ _ hbuf]
        simp

theorem maxMdChunk_nonneg (hs : s.Accepted) : 0 ≤ s.maxMdChunk :=
  hs.chunkSize_pos.le.trans hs.chunking.2.2

/-- `buf_len` is the length of the buffer without the empty paragraphs at its front. -/
structure ParagraphState.Counts (s : Settings) (st : ParagraphState) : Prop where
  bounded : ∀ c ∈ st.finalChunks, Bounded s c
  bufLen : st.bufLen = (join ['\n', '\n'] (counted st.buf)).length
  bufLen_le : st.bufLen ≤ s.maxMdChunk

theorem ParagraphState.Counts.flushed {st : ParagraphState} (h : st.Counts s) :
    ∀ c ∈ st.finalChunks ++ [join ['\n', '\n'] st.buf], Bounded s c := by
  intro c hc
  rcases List.mem_append.mp hc with hc | hc
  · exact h.bounded c hc
  · rw [List.mem_singleton.mp hc, Bounded, ← strip_join_counted (by decide)]
    have hfits := h.bufLen_le
    rw [h.bufLen] at hfits
    exact Bounded.of_fits hfits

/-- An oversized paragraph is split on its own; any other one is counted as it joins the buffer. -/
theorem counts_addParagraph (hs : s.Accepted) {st : ParagraphState} (h : st.Counts s) (p : Text)
    (hfits : st.buf ≠ [] → st.bufLen + (p.length + 2) ≤ s.maxMdChunk) :
    (if (p.length : ℤ) > s.maxMdChunk then
      { st with finalChunks := st.finalChunks ++ chunkText s p }
    else
      { st with
        buf := st.buf ++ [p]
        bufLen := st.bufLen + (p.length + if st.bufLen = 0 then 0 else 2) } :
      ParagraphState).Counts s := by
  split
  · refine ⟨fun c hc => ?_, h.bufLen, h.bufLen_le⟩
    exact (List.mem_append.mp hc).elim (h.bounded c) (bounded_chunkText hs p c)
  · next hsmall =>
    have hlen := h.bufLen
    by_cases hnil : counted st.buf = []
    · rw [hnil, join_nil, List.length_nil] at hlen
      refine ⟨h.bounded, ?_, ?_⟩
      · dsimp only
        rw [hlen, counted_snoc, if_pos hnil]
        cases p <;> simp [counted]
      · dsimp only
        rw [hlen]
        simpa using not_lt.mp hsmall
    · have hpos := length_join_counted_pos ['\n', '\n'] hnil
      have hne : st.bufLen ≠ 0 := by omega
      have hbuf : st.buf ≠ [] := fun hbuf => hnil (by rw [hbuf]; rfl)
      refine ⟨h.bounded, ?_, ?_⟩
      · dsimp only
        rw [if_neg hne, hlen, counted_snoc, if_neg hnil, join_append_of_ne_nil _ hnil (by simp)]
        simp
        omega
      · dsimp only
        rw [if_neg hne]
        exact hfits hbuf

theorem counts_paragraphStep (hs : s.Accepted) {st : ParagraphState} (h : st.Counts s) (p : Text) :
    (paragraphStep s st p).Counts s := by
  unfold paragraphStep
  dsimp only
  generalize hadd : (p.length + if st.buf.isEmpty then 0 else 2 : ℤ) = additional
  refine counts_addParagraph hs ?_ p ?_
  · split
    · exact ⟨h.flushed, rfl, maxMdChunk_nonneg hs⟩
    · exact h
  · split
    · simp
    · next hkeep =>
      intro hbuf
      rw [if_neg (by simpa using hbuf)] at hadd
      simpa [hbuf, ← hadd] using hkeep

theorem counts_foldl (hs : s.Accepted) {st : ParagraphState} (h : st.Counts s) (ps : List Text) :
    (ps.foldl (paragraphStep s) st).Counts s := by
  induction ps generalizing st with
  | nil => exact h
  | cons p ps ih => exact ih (counts_paragraphStep hs h p)

theorem bounded_splitOversizedMarkdownSection (hs : s.Accepted) (sec : Text) :
    ∀ c ∈ splitOversizedMarkdownSection s sec, Bounded s c := by
  unfold splitOversizedMarkdownSection
  split
  · next hfits => simpa using Bounded.of_fits hfits
  · have hstart : ParagraphState.Counts s ⟨[], [], 0⟩ := ⟨by simp, rfl, maxMdChunk_nonneg hs⟩
    have hread := counts_foldl hs hstart (split ['\n', '\n'] sec)
    dsimp only
    split
    · exact hread.bounded
    · exact hread.flushed

/-! ## The dispatcher -/

theorem bounded_chunkDocument (env : Env) (path : PurePath) (text : Text) :
    ∀ c ∈ chunkDocument env path text, Bounded env.settings c := by
  unfold chunkDocument
  dsimp only
  split
  · exact bounded_chunkPython env text
  · split
    · refine bounded_packed env.accepted (by decide) fun c hc => ?_
      obtain ⟨sec, -, hc⟩ := List.mem_flatMap.mp hc
      exact bounded_splitOversizedMarkdownSection env.accepted sec c hc
    · exact bounded_chunkText env.accepted text

/-- What is embedded is not empty, stripped and within the bound. -/
theorem documentChunks_bounded (env : Env) (path : PurePath) (text : Text) :
    ∀ c ∈ documentChunks env path text,
      c ≠ [] ∧ strip c = c ∧ (c.length : ℤ) ≤ chunkBound env.settings := by
  intro c hc
  obtain ⟨raw, hraw, rfl⟩ := List.mem_map.mp hc
  obtain ⟨hmem, hne⟩ := List.mem_filter.mp hraw
  have hne := (decide_eq_true_eq.mp hne).2
  exact ⟨hne, strip_strip raw, bounded_chunkDocument env path text raw hmem⟩

/-! ## What is embedded is what is stored -/

/-- The points were made of texts that were embedded: each has the text and the vector
of one of them. -/
def StoresEmbedded (env : Env) (trace : List (Event Services)) (points : List Point) : Prop :=
  ∃ texts vectors, ⟨Call.embed texts, true⟩ ∈ trace ∧ env.ollama texts = .embeddings vectors ∧
    vectors.length = texts.length ∧
    (points.map fun pt => (pt.payload.text, pt.dense)) = texts.zip vectors

/-- Beside the calls `trace`, the call embeds the chunks of the file or stores what was
embedded, if it embeds or stores anything. -/
def EmbedsOrStores (env : Env) (fs : FileSystem) (path : PurePath) (trace : List (Event Services)) :
    Call → Prop
  | .embed texts => ∃ node, fs.fileAt path = some node ∧
      texts = documentChunks env path (env.decode node.bytes)
  | .upsert points => StoresEmbedded env trace points
  | _ => True

variable {env : Env} {fs : FileSystem} {path : PurePath} {trace trace' : List (Event Services)}

theorem EmbedsOrStores.mono {c : Call} (h : EmbedsOrStores env fs path trace c)
    (hsub : trace ⊆ trace') : EmbedsOrStores env fs path trace' c := by
  cases c with
  | upsert points =>
    obtain ⟨texts, vectors, hmem, h⟩ := h
    exact ⟨texts, vectors, hsub hmem, h⟩
  | _ => exact h

/-- The answers in any world with the given files, or by failing, with the calls made so far. -/
def recordedIn (env : Env) (fs : FileSystem) : Answers Services Exn (List (Event Services)) :=
  fun c t o t' => ((∃ w, w.fs = fs ∧ o = (serve env c w).1) ∨ o = .error (serviceFault c)) ∧
    t' = t ++ [⟨c, o.toBool⟩]

/-- What is left of a program that embeds and stores as it should, after the calls `trace`. -/
abbrev EmbedsAndStores {α : Type} (env : Env) (fs : FileSystem) (path : PurePath) (prog : App α)
    (Q : Except Exn α → List (Event Services) → Prop) (trace : List (Event Services)) : Prop :=
  wp (recordedIn env fs) (fun c t => EmbedsOrStores env fs path t c) prog Q trace

theorem embedsAndStores_call {c : Call}
    {Q : Except Exn (Services.Reply c) → List (Event Services) → Prop}
    (hc : EmbedsOrStores env fs path trace c)
    (hok : ∀ w a, w.fs = fs → (serve env c w).1 = .ok a → Q (.ok a) (trace ++ [⟨c, true⟩]))
    (herr : ∀ e, Q (.error e) (trace ++ [⟨c, false⟩])) :
    EmbedsAndStores env fs path (call c) Q trace := by
  refine wp_lift.mpr ⟨hc, ?_⟩
  rintro o t' ⟨⟨w, hw, rfl⟩ | rfl, rfl⟩
  · cases hreply : (serve env c w).1 with
    | ok a => exact hok w a hw hreply
    | error e => exact herr e
  · exact herr _

/-- A call with any answer. -/
theorem embedsAndStores_any {c : Call}
    {Q : Except Exn (Services.Reply c) → List (Event Services) → Prop}
    (hc : EmbedsOrStores env fs path trace c) (hQ : ∀ o t, Q o t) :
    EmbedsAndStores env fs path (call c) Q trace :=
  embedsAndStores_call hc (fun _ _ _ _ => hQ _ _) fun _ => hQ _ _

theorem embedsAndStores_ensureCollection :
    EmbedsAndStores env fs path (ensureCollection env) (fun _ _ => True) trace := by
  have hlast : ∀ t, EmbedsAndStores env fs path (call (.setEnsured true))
      (fun _ _ => True) t := fun t => embedsAndStores_any trivial fun _ _ => trivial
  unfold ensureCollection
  refine wp_bind.mpr (embedsAndStores_call trivial (fun w (ensured : Bool) _ _ => ?_)
    fun _ => trivial)
  dsimp only [onOk]
  split
  · trivial
  refine wp_bind.mpr (embedsAndStores_call trivial (fun w (found : Bool) _ _ => ?_)
    fun _ => trivial)
  dsimp only [onOk]
  split
  · refine wp_bind.mpr (embedsAndStores_call trivial (fun w (sparse : List Text) _ _ => ?_)
      fun _ => trivial)
    dsimp only [onOk]
    change wp _ _ (if sparse.contains sparseVector then call (.setEnsured true)
      else throw Exn.oldLayout >>= fun _ => call (.setEnsured true)) _ _
    split
    · exact hlast _
    · trivial
  · refine wp_bind.mpr (embedsAndStores_any trivial fun r t => ?_)
    cases r with
    | error e => trivial
    | ok _ =>
      refine wp_bind.mpr (embedsAndStores_any trivial fun r t => ?_)
      cases r with
      | error e => trivial
      | ok _ =>
        refine wp_bind.mpr (embedsAndStores_any trivial fun r t => ?_)
        cases r with
        | error e => trivial
        | ok _ => exact hlast t

/-- What is read is the text of the file. -/
theorem embedsAndStores_readFile :
    EmbedsAndStores env fs path (readFile path) (fun r _ => ∀ text, r = .ok (some text) →
      ∃ node, fs.fileAt path = some node ∧ text = env.decode node.bytes) trace := by
  unfold readFile
  refine wp_bind.mpr (embedsAndStores_call trivial (fun w (size : ℕ) _ _ => ?_)
    fun _ => by rintro _ ⟨⟩)
  dsimp only [onOk]
  split
  · simp [wp_pure]
  · refine wp_tryCatch.mpr (wp_bind.mpr (embedsAndStores_call trivial (fun w (text : Text) hw hread => ?_)
      fun e => ?_))
    · rintro _ ⟨⟩
      obtain ⟨node, hnode, rfl⟩ := Option.map_eq_some_iff.mp (orRaise_eq_ok_iff.mp hread)
      exact ⟨node, hw ▸ hnode, rfl⟩
    · rintro _ ⟨⟩

theorem mapM_prepareText {texts : List Text} (h : ∀ c ∈ texts, prepareText c = .ok c) :
    texts.mapM prepareText = .ok texts := by
  induction texts with
  | nil => rfl
  | cons t texts ih =>
    rw [List.mapM_cons, h t (by simp), ih fun c hc => h c (by simp [hc])]
    rfl

theorem parseEmbeddings_eq_ok {want : ℕ} {r : EmbedResponse} {vectors : List (List ℚ)}
    (h : parseEmbeddings s want r = .ok vectors) : r = .embeddings vectors := by
  unfold parseEmbeddings at h
  split at h
  · cases h
  · cases h
  · split at h
    · cases h
    · split at h <;> cases h
      rfl

/-- Texts that `_prepare_text` leaves alone are embedded as they are. -/
theorem embedsAndStores_embedBatch {texts : List Text} (hne : texts ≠ [])
    (hprep : ∀ c ∈ texts, prepareText c = .ok c)
    (htexts : EmbedsOrStores env fs path trace (.embed texts)) :
    EmbedsAndStores env fs path (embedBatch env texts) (fun r t => ∀ vectors, r = .ok vectors →
      ⟨Call.embed texts, true⟩ ∈ t ∧ env.ollama texts = .embeddings vectors ∧
        vectors.length = texts.length) trace := by
  unfold embedBatch
  rw [if_neg hne, mapM_prepareText hprep]
  refine wp_bind.mpr (wp_bind.mpr (embedsAndStores_call htexts
    (fun w (response : EmbedResponse) _ hreply => ?_) fun _ => by rintro _ ⟨⟩))
  obtain rfl : env.ollama texts = response := Except.ok.inj hreply
  exact fun vectors hv => ⟨by simp, parseEmbeddings_eq_ok hv, parseEmbeddings_length hv⟩

theorem embedsAndStores_makePoints (filepath : PurePath) (documentId : Text) (total i : ℕ)
    (l : List (Text × List ℚ)) :
    EmbedsAndStores env fs path (makePoints env path filepath documentId total l i)
      (fun r t => trace ⊆ t ∧ ∀ points, r = .ok points →
        (points.map fun pt => (pt.payload.text, pt.dense)) = l) trace := by
  induction l generalizing i trace with
  | nil => exact ⟨List.Subset.refl _, fun points h => by cases h; rfl⟩
  | cons cv l ih =>
    unfold makePoints
    refine wp_bind.mpr (embedsAndStores_call trivial (fun w (id : ℕ) _ _ => ?_)
      fun _ => ⟨by simp, by rintro _ ⟨⟩⟩)
    refine wp_bind.mpr (wp_mono (ih (i + 1)) ?_)
    rintro (e | points) t ⟨hsub, hpoints⟩
    · exact ⟨fun ev hev => hsub (by simp [hev]), fun _ h => by cases h⟩
    · refine ⟨fun ev hev => hsub (by simp [hev]), fun _ h => ?_⟩
      cases h
      rw [List.map_cons, hpoints points rfl]

theorem embedsAndStores_embedChunks (filepath : PurePath) {chunks : List Text} (hne : chunks ≠ [])
    (hprep : ∀ c ∈ chunks, prepareText c = .ok c)
    (hchunks : EmbedsOrStores env fs path trace (.embed chunks)) (documentId : Text) :
    EmbedsAndStores env fs path (embedChunks env path filepath chunks documentId)
      (fun r t => ∀ points, r = .ok points → StoresEmbedded env t points) trace := by
  unfold embedChunks
  refine wp_bind.mpr (wp_mono (embedsAndStores_embedBatch hne hprep hchunks) ?_)
  rintro (e | vectors) t hvec
  · rintro _ ⟨⟩
  · obtain ⟨hmem, hreply, hlen⟩ := hvec vectors rfl
    refine wp_mono (embedsAndStores_makePoints filepath documentId chunks.length 0
      (chunks.zip vectors)) ?_
    rintro r t' ⟨hsub, hpoints⟩ points rfl
    exact ⟨chunks, vectors, hsub hmem, hreply, hlen, hpoints points rfl⟩

theorem embedsAndStores_upsertChunks (filepath : PurePath) {points : List Point}
    (hpoints : StoresEmbedded env trace points) :
    EmbedsAndStores env fs path (upsertChunks filepath points) (fun _ _ => True) trace := by
  unfold upsertChunks
  refine wp_bind.mpr (embedsAndStores_call trivial (fun w (version : ℕ) _ _ => ?_) fun _ => trivial)
  have hstored : EmbedsOrStores env fs path (trace ++ [⟨Call.uuid4, true⟩])
      (.upsert (points.map (Point.withVersion version))) := by
    obtain ⟨texts, vectors, hmem, hreply, hlen, hmap⟩ := hpoints
    refine ⟨texts, vectors, by simp [hmem], hreply, hlen, ?_⟩
    rw [List.map_map]
    exact hmap
  refine wp_bind.mpr (wp_tryCatch.mpr (wp_bind.mpr (embedsAndStores_any hstored fun r t => ?_)))
  cases r with
  | error e => trivial
  | ok _ =>
    refine wp_tryCatch.mpr (wp_bind.mpr (embedsAndStores_any trivial fun r t => ?_))
    cases r <;> trivial

theorem embedsAndStores_indexFile
    (hprep : ∀ text, ∀ c ∈ documentChunks env path text, prepareText c = .ok c) :
    EmbedsAndStores env fs path (indexFile env path) (fun _ _ => True) trace := by
  unfold indexFile
  refine wp_bind.mpr (wp_mono embedsAndStores_ensureCollection fun r t _ => ?_)
  cases r with
  | error e => trivial
  | ok _ =>
  refine wp_bind.mpr (embedsAndStores_call trivial (fun w (filepath : PurePath) _ _ => ?_)
    fun _ => trivial)
  refine wp_bind.mpr (wp_mono embedsAndStores_readFile ?_)
  rintro (e | _ | text) t htext
  · trivial
  · trivial
  obtain ⟨node, hfile, rfl⟩ := htext text rfl
  simp only [onOk]
  split
  · trivial
  next hne =>
  refine wp_bind.mpr (wp_tryCatch.mpr (wp_map.mpr (wp_mono (embedsAndStores_embedChunks filepath hne
    (hprep _) ⟨node, hfile, rfl⟩ _) ?_)))
  rintro (e | points) t' hpoints
  · trivial
  · exact embedsAndStores_upsertChunks filepath (hpoints points rfl)

/-- Within the limit of the model `_prepare_text` leaves a chunk as it is. -/
theorem prepareText_chunk (hlimit : chunkBound env.settings ≤ Settings.maxEmbedChars) {text c : Text}
    (hc : c ∈ documentChunks env path text) : prepareText c = .ok c := by
  obtain ⟨hne, hstrip, hlen⟩ := documentChunks_bounded env path text c hc
  have hfits : c.length ≤ Settings.maxEmbedChars := by exact_mod_cast hlen.trans hlimit
  unfold prepareText
  simp only [hstrip, if_neg hne, List.take_of_length_le hfits]

/-- The chunks that `index_file` embeds are not empty, stripped and within the bound. If
the bound is within `MAX_EMBED_CHARS`, `_prepare_text` changes none of them, and in
every run, whichever calls fail and wherever it stops, the texts embedded are the chunks
of the file and the texts stored are those embedded, each with its own vector. -/
theorem indexFile_embeds_what_it_stores (env : Env) (path : PurePath) :
    (∀ text, ∀ c ∈ stripChunks (chunkDocument env path text),
      c ≠ [] ∧ strip c = c ∧ (c.length : ℤ) ≤ chunkBound env.settings) ∧
    (chunkBound env.settings ≤ Settings.maxEmbedChars →
      (∀ text, ∀ c ∈ stripChunks (chunkDocument env path text), prepareText c = .ok c) ∧
      ∀ (w : World) (rest : App IndexDecision) (s : Traced),
        (indexFile env path).Steps ((services env).answers fun _ _ => True) (w, []) rest s →
          ∀ e ∈ s.2, EmbedsOrStores env w.fs path s.2 e.call) := by
  refine ⟨documentChunks_bounded env path, fun hlimit => ⟨fun text c => prepareText_chunk hlimit, ?_⟩⟩
  intro w rest s hrun
  have hspec : EmbedsAndStores env w.fs path (indexFile env path) (fun _ _ => True) [] :=
    embedsAndStores_indexFile fun _ _ => prepareText_chunk hlimit
  have hrecorded := wp_simulate (A := (services env).answers fun _ _ => True) (f := Prod.snd)
    (s := (w, [])) (fun s : Traced => s.1.fs = w.fs) hspec rfl ?_
  · refine wp_steps_preserved (J := fun s : Traced => ∀ e ∈ s.2, EmbedsOrStores env w.fs path s.2 e.call)
      hrecorded hrun (by simp) ?_
    rintro c s o s' ⟨-, hc⟩ hJ ha e he
    have htrace : s'.2 = s.2 ++ [⟨c, o.toBool⟩] := by
      rcases ha with ⟨rfl, rfl⟩ | ⟨-, rfl, rfl⟩ <;> rfl
    have hsub : s.2 ⊆ s'.2 := by rw [htrace]; exact List.subset_append_left _ _
    rw [htrace] at he
    rcases List.mem_append.mp he with he | he
    · exact (hJ e he).mono hsub
    · rw [List.mem_singleton.mp he]
      exact hc.mono hsub
  · rintro c s o s' hs - (⟨rfl, rfl⟩ | ⟨-, rfl, rfl⟩)
    · exact ⟨serve_fs.trans hs, .inl ⟨s.1, hs, rfl⟩, rfl⟩
    · exact ⟨hs, .inr rfl, rfl⟩

theorem indexFile_embeds_what_it_stores_sample :
    let run := (runIn (indexFile Env.sample samplePath) [] (sampleWorld [104, 105])).2
    (∀ c ∈ stripChunks (chunkDocument Env.sample samplePath " hi ".toList), prepareText c = .ok c) ∧
    StoresEmbedded Env.sample run.2
      (versionPoints Env.sample samplePath samplePath "hi".toList [[0]] 0) := by
  intro run
  have hstored : Call.upsert (versionPoints Env.sample samplePath samplePath "hi".toList [[0]] 0) ∈
      run.2.map fun e => (show Call from e.call) := by
    decide +kernel
  obtain ⟨e, he, hcall⟩ := List.mem_map.mp hstored
  change e.call = _ at hcall
  have hclaim := (indexFile_embeds_what_it_stores Env.sample samplePath).2 (by decide)
  have hrun := hclaim.2 (sampleWorld [104, 105]) _ run
    (Prog.run_steps (services Env.sample) (fun _ _ => True) _ [] _) e he
  rw [hcall] at hrun
  exact ⟨hclaim.1 " hi ".toList, hrun⟩

end LocalRag
