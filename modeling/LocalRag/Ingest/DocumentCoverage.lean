-- SUMMARY: The packing pass, the Python and Markdown chunkers and the dispatcher lose, reorder and invent nothing.
import LocalRag.Ingest.Coverage

/-! # Coverage of documents -/

namespace LocalRag

open PyText PyPath Packing

variable {s : Settings} {sep : Text} {cs : List Text} {t : Text}

/-! ## The packing pass -/

/-- Both of two relations hold along a list. -/
theorem isChain_and {α : Type} {R S : α → α → Prop} {l : List α} (hR : l.IsChain R)
    (hS : l.IsChain S) : l.IsChain fun a b => R a b ∧ S a b := by
  induction l with
  | nil => exact List.isChain_nil
  | cons a l ih =>
    rw [List.isChain_cons] at hR hS ⊢
    exact ⟨fun b hb => ⟨hR.1 b hb, hS.1 b hb⟩, ih hR.2 hS.2⟩

/-- The chunk that a window of pieces is packed into. -/
def packedText (sep : Text) (w : Window Piece) : Text := join sep (w.items.map Piece.text)

/-- A packed window as a piece: it repeats what its first fresh piece repeats. -/
def packedPiece (sep : Text) (w : Window Piece) : Piece where
  repeated := (w.fresh.head?.map Piece.repeated).getD []
  own := (packedText sep w).drop ((w.fresh.head?.map Piece.repeated).getD []).length

/-- The size of a piece. -/
def pieceLen (p : Piece) : ℤ := len p.text

theorem pieceLen_nonneg (p : Piece) : 0 ≤ pieceLen p := len_nonneg p.text

/-- A window whose only repetition is at its start. -/
structure RepeatsAtStart (w : Window Piece) : Prop where
  kept_text : ∀ p ∈ w.kept, p.text = []
  exists_first : ∃ q rest, w.fresh = q :: rest ∧ (q.repeated ≠ [] → w.kept = []) ∧
    ∀ p ∈ rest, p.repeated = []

theorem nw_packedText (hsep : nw sep = []) (w : Window Piece) :
    nw (packedText sep w) = ((w.kept ++ w.fresh).map fun p => nw p.text).flatten := by
  rw [packedText, nw_join hsep, List.map_map]
  rfl

theorem nw_text_of_repeated_nil {l : List Piece} (h : ∀ p ∈ l, p.repeated = []) :
    (l.map fun p => nw p.text) = l.map fun p => nw p.own :=
  List.map_congr_left fun p hp => by simp [Piece.text, h p hp]

theorem packedPiece_text {w : Window Piece} (hw : RepeatsAtStart w) :
    (packedPiece sep w).text = packedText sep w := by
  obtain ⟨q, rest, hfresh, hstart, -⟩ := hw.exists_first
  unfold packedPiece Piece.text
  rw [hfresh, List.head?_cons, Option.map_some, Option.getD_some]
  have hprefix : q.repeated <+: packedText sep w := by
    by_cases hq : q.repeated = []
    · rw [hq]; exact List.nil_prefix
    · unfold packedText Window.items
      rw [hstart hq, hfresh, List.nil_append, List.map_cons]
      by_cases hrest : rest = []
      · simp [hrest, Piece.text]
      · rw [join_cons_of_ne_nil _ _ (by simpa using hrest)]
        simp [Piece.text]
  exact List.prefix_iff_eq_append.mp hprefix

theorem nw_packedPiece_own (hsep : nw sep = []) {w : Window Piece} (hw : RepeatsAtStart w) :
    nw (packedPiece sep w).own = (w.fresh.map fun p => nw p.own).flatten := by
  obtain ⟨q, rest, hfresh, -, hrest⟩ := hw.exists_first
  have htext : nw (packedPiece sep w).repeated ++ nw (packedPiece sep w).own =
      nw q.repeated ++ (w.fresh.map fun p => nw p.own).flatten := by
    have hkept : (w.kept.map fun p => nw p.text).flatten = [] := by
      simp only [List.flatten_eq_nil_iff, List.mem_map]
      rintro _ ⟨p, hp, rfl⟩
      rw [hw.kept_text p hp, nw_nil]
    rw [← nw_append]
    change nw (packedPiece sep w).text = _
    rw [packedPiece_text hw, nw_packedText hsep, List.map_append, List.flatten_append, hkept, hfresh,
      List.map_cons, List.map_cons, nw_text_of_repeated_nil hrest]
    simp [Piece.text]
  have hq : (packedPiece sep w).repeated = q.repeated := by simp [packedPiece, hfresh]
  rw [hq] at htext
  exact List.append_cancel_left htext

/-- In a window that fits, only the first fresh piece can repeat anything: a piece
that does is too large for one chunk with the piece before it. -/
theorem repeated_nil_of_fits (hsep : (0 : ℤ) ≤ sep.length) {w : Window Piece}
    (hfits : w.Fits pieceLen sep.length s.chunkSize) (hlinks : w.fresh.IsChain (Separate s))
    {q : Piece} {rest : List Piece} (hfresh : w.fresh = q :: rest) :
    ∀ p ∈ rest, p.repeated = [] := by
  intro p hp
  obtain ⟨pre, post, rfl⟩ := List.append_of_mem hp
  obtain ⟨before, b, hbefore⟩ := List.eq_nil_or_concat (q :: pre) |>.resolve_left (by simp)
  rw [List.concat_eq_append] at hbefore
  have hsplit : w.fresh = (before ++ [b]) ++ p :: post := by rw [hfresh, ← hbefore]; simp
  -- `b` is the piece before `p`.
  have hlink : Separate s b p := by
    rw [hsplit, List.append_assoc, List.singleton_append] at hlinks
    exact (List.isChain_append_cons_cons.mp hlinks).2.1
  refine hlink.2.resolve_right fun hlarge => ?_
  have hsmall := hfits (before ++ [b]) p post hsplit (by simp)
  have hb : pieceLen b ≤ span pieceLen sep.length (w.kept ++ (before ++ [b])) :=
    size_le_span pieceLen_nonneg hsep (by simp)
  unfold pieceLen len at hb hsmall
  omega

/-- A window that follows another repeats nothing, or starts afresh. -/
theorem repeatsAtStart_of_follows (hsep : (0 : ℤ) ≤ sep.length) {v w : Window Piece}
    (hv : v.fresh ≠ []) (hfits : w.Fits pieceLen sep.length s.chunkSize)
    (hlinks : w.fresh.IsChain (Separate s))
    (hfollows : Window.Follows pieceLen sep.length s.chunkSize 0 v w)
    (hborder : ∀ p ∈ v.fresh.getLast?, ∀ q ∈ w.fresh.head?, Separate s p q) :
    RepeatsAtStart w := by
  obtain ⟨hkept, q, rest, hfresh, -⟩ := hfollows
  have hempty : ∀ p ∈ w.kept, p.text = [] := by
    intro p hp
    have hle : pieceLen p ≤ span pieceLen sep.length w.kept := size_le_span pieceLen_nonneg hsep hp
    have hzero : span pieceLen sep.length w.kept ≤ 0 := by
      rw [hkept]
      exact span_carry_le le_rfl v.items
    have : (p.text.length : ℤ) ≤ 0 := hle.trans hzero
    exact List.length_eq_zero_iff.mp (by omega)
  refine ⟨hempty, q, rest, hfresh, fun hq => ?_, repeated_nil_of_fits hsep hfits hlinks hfresh⟩
  -- What is kept ends with the last piece of `v`, which is not empty as `q` repeats its end.
  by_contra hne
  obtain ⟨init, b, hb⟩ := List.eq_nil_or_concat v.fresh |>.resolve_left hv
  rw [List.concat_eq_append] at hb
  have hlast : b ∈ w.kept := by
    obtain ⟨front, hfront⟩ : w.kept <:+ v.items := by
      rw [hkept]
      exact carry_suffix v.items
    obtain ⟨keptInit, c, hc⟩ := List.eq_nil_or_concat w.kept |>.resolve_left hne
    rw [List.concat_eq_append] at hc
    have hend : (front ++ keptInit) ++ [c] = (v.kept ++ init) ++ [b] := by
      rw [List.append_assoc, ← hc, hfront, Window.items, hb, List.append_assoc]
    obtain ⟨-, hcb⟩ := List.append_inj' hend rfl
    rw [hc, ← List.singleton_inj.mp hcb]
    simp
  have hsuffix := (hborder b (by simp [hb]) q (by simp [hfresh])).1.1
  rw [hempty b hlast, List.suffix_nil] at hsuffix
  exact hq hsuffix

/-- Packing chunks without overlap keeps what they cover. -/
theorem covered_packed (hsep : nw sep = [])
    (h : Covered (Separate s) cs t) : Covered (Overlaps s) (mergeSplits s cs sep 0) t := by
  obtain ⟨ps, rfl, hps⟩ := h
  have hgap : (0 : ℤ) ≤ sep.length := Int.natCast_nonneg _
  generalize hws : pack pieceLen sep.length s.chunkSize 0 ps = ws
  have hfits : ∀ w ∈ ws, w.fresh ≠ [] ∧ w.Fits pieceLen sep.length s.chunkSize := by
    rw [← hws]; exact pack_fits ps
  have hfresh : (ws.map Window.fresh).flatten = ps := by rw [← hws]; exact pack_fresh ps
  have hchain : ws.IsChain (Window.Follows pieceLen sep.length s.chunkSize 0) := by
    rw [← hws]; exact pack_isChain ps
  have hhead : ∀ w ∈ ws.head?, w.kept = [] := by rw [← hws]; exact pack_head_kept ps
  obtain ⟨hinner, houter⟩ := (List.isChain_flatten (by
    rw [List.mem_map]; rintro ⟨w, hw, hnil⟩; exact (hfits w hw).1 hnil)).mp (hfresh ▸ hps.links)
  rw [List.isChain_map] at houter
  have hlinks : ∀ w ∈ ws, w.fresh.IsChain (Separate s) :=
    fun w hw => hinner w.fresh (List.mem_map_of_mem hw)
  have hall : ∀ w ∈ ws, RepeatsAtStart w := by
    refine List.IsChain.induction _ ws
      (List.IsChain.iff_mem.mp (isChain_and hchain houter)) ?_ ?_
    · rintro v w ⟨hv, hw, hfollows, hborder⟩ -
      exact repeatsAtStart_of_follows hgap (hfits v hv).1 (hfits w hw).2 (hlinks w hw) hfollows
        hborder
    · intro hne
      have hmem := List.head_mem hne
      have hnil := hhead _ (List.head?_eq_some_head hne)
      obtain ⟨q, rest, hq⟩ := List.exists_cons_of_ne_nil (hfits _ hmem).1
      exact ⟨by simp [hnil], q, rest, hq, fun _ => hnil,
        repeated_nil_of_fits hgap (hfits _ hmem).2 (hlinks _ hmem) hq⟩
  refine ⟨ws.map (packedPiece sep), ?_, ?_, ?_, ?_⟩
  · rw [mergeSplits_eq_pack, pack_map Piece.text ps, show len ∘ Piece.text = pieceLen from rfl, hws,
      List.map_map, List.map_map]
    refine List.map_congr_left fun w hw => ?_
    rw [Function.comp, packedPiece_text (hall w hw)]
    simp [packedText, Window.items]
  · intro p hp
    rw [List.head?_map, Option.mem_def, Option.map_eq_some_iff] at hp
    obtain ⟨w, hw, rfl⟩ := hp
    obtain ⟨rest, rfl⟩ := List.head?_eq_some_iff.mp hw
    obtain ⟨q, more, hq, -⟩ := (hall w (by simp)).exists_first
    have hfirst : ps.head? = some q := by rw [← hfresh]; simp [hq]
    simpa [packedPiece, hq] using hps.head q hfirst
  · rw [List.isChain_map]
    refine houter.imp_of_mem_imp fun v w hv hw hborder => ?_
    obtain ⟨init, b, hb⟩ := List.eq_nil_or_concat v.fresh |>.resolve_left (hfits v hv).1
    rw [List.concat_eq_append] at hb
    obtain ⟨q, rest, hq, -⟩ := (hall w hw).exists_first
    obtain ⟨hsuffix, hlength⟩ := (hborder b (by simp [hb]) q (by simp [hq])).1
    have hrepeated : (packedPiece sep w).repeated = q.repeated := by simp [packedPiece, hq]
    unfold Overlaps
    rw [packedPiece_text (hall v hv), hrepeated]
    refine ⟨hsuffix.trans ?_, hlength⟩
    have hend : [b.text] <:+ v.items.map Piece.text := by
      rw [Window.items, hb]
      exact ⟨(v.kept ++ init).map Piece.text, by simp⟩
    have hjoin := join_suffix sep hend
    rwa [join_singleton] at hjoin
  · rw [← hps.nw_own, ← hfresh, List.map_map, List.map_flatten, List.flatten_flatten, List.map_map,
      List.map_map]
    congr 1
    exact List.map_congr_left fun w hw => nw_packedPiece_own hsep (hall w hw)

/-! ## Python -/

theorem covered_emit (hover : 0 ≤ s.chunkOverlap) (segment : Text) :
    Covered (Separate s) (emit s segment) segment := by
  unfold emit
  split
  · next h => exact covered_nil (by rw [h, nw_nil])
  · split
    · exact covered_chunkText hover segment
    · exact covered_singleton rfl

/-- The non-whitespace characters of the lines from `start` to `stop`, 0-based, the
last one not included. -/
def lineRange (lines : List Text) (start stop : ℕ) : Text := ((lines.take stop).drop start).flatten

theorem lineRange_append {lines : List Text} {a b c : ℕ} (hab : a ≤ b) (hbc : b ≤ c) :
    lineRange lines a b ++ lineRange lines b c = lineRange lines a c := by
  have htake : lines.take b = (lines.take c).take b := by rw [List.take_take, Nat.min_eq_left hbc]
  have hdrop : (lines.take c).drop b = ((lines.take c).drop a).drop (b - a) := by
    rw [List.drop_drop, Nat.add_sub_cancel' hab]
  unfold lineRange
  rw [htake, ← List.flatten_append, hdrop, List.drop_take, List.take_append_drop]

theorem lineRange_self (lines : List Text) (a : ℕ) : lineRange lines a a = [] := by
  simp [lineRange]

theorem covered_emit_lineSpan (hover : 0 ≤ s.chunkOverlap) (lines : List Text) (start stop : ℕ) :
    Covered (Separate s) (emit s (lineSpan lines (start + 1) stop)) (lineRange lines start stop) :=
  (covered_emit hover _).congr (by simp [lineSpan, lineRange])

theorem foldl_min_le (l : List ℕ) (n : ℕ) : l.foldl min n ≤ n := by
  induction l generalizing n with
  | nil => exact le_rfl
  | cons m l ih => exact (ih (min n m)).trans (min_le_left n m)

/-- The chunks of the statements cover the lines up to the end of the last one. -/
theorem covered_chunkBody (hover : 0 ≤ s.chunkOverlap) (lines : List Text) (body : List Stmt)
    (prevEnd : ℕ) (hlines : ∀ node ∈ body, node.lineno ≤ node.endLineno)
    (hfirst : ∀ node ∈ body.head?, prevEnd ≤ node.lineno)
    (horder : body.IsChain fun a b => a.endLineno ≤ b.lineno) :
    prevEnd ≤ (chunkBody s lines body prevEnd).2 ∧
      Covered (Separate s) (chunkBody s lines body prevEnd).1
        (lineRange lines prevEnd (chunkBody s lines body prevEnd).2) := by
  induction body generalizing prevEnd with
  | nil => exact ⟨le_rfl, covered_nil (by rw [chunkBody, lineRange_self, nw_nil])⟩
  | cons node body ih =>
    rw [List.isChain_cons] at horder
    obtain ⟨hend, hrest⟩ := ih node.endLineno (fun n hn => hlines n (by simp [hn])) horder.1 horder.2
    have hnode := hlines node (by simp)
    have hprev : prevEnd ≤ node.lineno := hfirst node (by simp)
    have hdeco := foldl_min_le node.decoratorLinenos node.lineno
    simp only [chunkBody]
    generalize hstart : max (node.decoratorLinenos.foldl min node.lineno) (prevEnd + 1) = start
    obtain ⟨start, rfl⟩ : ∃ n, start = n + 1 := ⟨start - 1, by omega⟩
    refine ⟨hprev.trans (hnode.trans hend), ?_⟩
    have hgap : Covered (Separate s)
        (if start + 1 > prevEnd + 1 then
          emit s (lineSpan lines (prevEnd + 1) (start + 1 - 1)) else [])
        (lineRange lines prevEnd start) := by
      split
      · exact covered_emit_lineSpan hover lines prevEnd start
      · obtain rfl : start = prevEnd := by omega
        exact covered_nil (by rw [lineRange_self, nw_nil])
    have htail := (covered_emit_lineSpan hover lines start node.endLineno).append hover hrest
      (v := lineRange lines start node.endLineno ++
        lineRange lines node.endLineno (chunkBody s lines body node.endLineno).2) (nw_append ..)
    refine hgap.append hover htail ?_
    have hshared : start ≤ node.endLineno := by omega
    rw [lineRange_append hshared hend, ← nw_append, lineRange_append (by omega)
      (hshared.trans hend)]

theorem covered_chunkPython (env : Env) (text : Text) :
    Covered (Overlaps env.settings) (chunkPython env text) text := by
  have hover := env.accepted.chunking.1
  have hplain := (covered_chunkText hover text).mono fun _ _ h => h.1
  unfold chunkPython
  cases hparse : env.ast.run text with
  | none => exact hplain
  | some body =>
    obtain ⟨hlines, horder⟩ := env.ast.sourceOrder text body hparse
    have hbody := (covered_chunkBody hover (splitlines true text) body 0 hlines
      (fun _ _ => Nat.zero_le _) horder).2
    have htext := flatten_splitlines_keepends text
    dsimp only
    generalize splitlines true text = lines at hbody htext ⊢
    generalize chunkBody env.settings lines body 0 = result at hbody ⊢
    obtain ⟨chunks, prevEnd⟩ := result
    have htail : Covered (Separate env.settings)
        (if prevEnd < lines.length then
          emit env.settings (lineSpan lines (prevEnd + 1) lines.length) else [])
        (lines.drop prevEnd).flatten := by
      split
      · have := covered_emit_lineSpan hover lines prevEnd lines.length
        rwa [lineRange, List.take_length] at this
      · next h => exact covered_nil (by rw [List.drop_of_length_le (not_lt.mp h)]; rfl)
    -- The lines up to `prevEnd` and those after it are the text.
    have hall := hbody.append hover htail (v := text) (by
      rw [lineRange, List.drop_zero, ← nw_append, ← List.flatten_append, List.take_append_drop, htext])
    dsimp only at hall ⊢
    generalize chunks ++ (if prevEnd < lines.length then
      emit env.settings (lineSpan lines (prevEnd + 1) lines.length) else []) = all at hall ⊢
    split
    · exact hplain
    · exact covered_packed (by decide) hall

/-! ## Markdown -/

/-- What a state of the section loop has read. -/
def SectionState.nwRead (st : SectionState) : Text :=
  (st.sections.map nw).flatten ++ (st.current.map nw).flatten

theorem nwRead_sectionStep (st : SectionState) (line : Text) :
    (sectionStep st line).nwRead = st.nwRead ++ nw line := by
  have hkeep (st' : SectionState) (h : st'.nwRead = st.nwRead) :
      ({ st' with current := st'.current ++ [line] } : SectionState).nwRead =
        st.nwRead ++ nw line := by
    rw [← h]; simp [SectionState.nwRead]
  refine hkeep _ ?_
  split
  · split
    · rfl
    · split <;> rfl
  · split
    · simp [SectionState.nwRead, nw_join (by decide : nw ['\n'] = [])]
    · rfl

theorem nwRead_foldl (st : SectionState) (lines : List Text) :
    (lines.foldl sectionStep st).nwRead = st.nwRead ++ (lines.map nw).flatten := by
  induction lines generalizing st with
  | nil => simp
  | cons line lines ih => rw [List.foldl_cons, ih, nwRead_sectionStep]; simp

theorem nw_splitMarkdownSections (text : Text) :
    ((splitMarkdownSections text).map nw).flatten = nw text := by
  unfold splitMarkdownSections
  dsimp only
  rw [nw_filter_ne_nil, List.map_map]
  have hstrip : (nw ∘ strip) = nw := funext nw_strip
  have hread := nwRead_foldl ⟨[], [], none⟩ (splitlines false text)
  rw [nw_splitlines] at hread
  rw [hstrip, ← List.nil_append (nw text)]
  change _ = SectionState.nwRead ⟨[], [], none⟩ ++ nw text
  rw [← hread]
  split
  · next h => simp [SectionState.nwRead, h]
  · simp [SectionState.nwRead, nw_join (by decide : nw ['\n'] = [])]

/-- The chunks of a state of the paragraph loop, and its buffer, cover a text. -/
structure ParagraphState.CoversText (s : Settings) (st : ParagraphState) (t : Text) : Prop where
  covered : ∃ u, Covered (Separate s) st.finalChunks u ∧ nw t = nw u ++ (st.buf.map nw).flatten
  bufLen_nonneg : 0 ≤ st.bufLen

/-- Writing the buffer out keeps what is covered. -/
theorem ParagraphState.CoversText.flushed (hover : 0 ≤ s.chunkOverlap) {st : ParagraphState}
    (h : st.CoversText s t) :
    Covered (Separate s) (st.finalChunks ++ [join ['\n', '\n'] st.buf]) t := by
  obtain ⟨u, hu, ht⟩ := h.covered
  have hbuf : nw (join ['\n', '\n'] st.buf) = (st.buf.map nw).flatten := nw_join (by decide) _
  exact hu.append hover (covered_singleton rfl) (by rw [ht, hbuf])

/-- An oversized paragraph is split on its own; any other waits in the buffer. -/
theorem coversText_addParagraph (hover : 0 ≤ s.chunkOverlap) {st : ParagraphState}
    (h : st.CoversText s t) (p : Text) (hbuf : (p.length : ℤ) > s.maxMdChunk → st.buf = []) :
    (if (p.length : ℤ) > s.maxMdChunk then
      { st with finalChunks := st.finalChunks ++ chunkText s p }
    else
      { st with
        buf := st.buf ++ [p]
        bufLen := st.bufLen + (p.length + if st.bufLen = 0 then 0 else 2) } :
      ParagraphState).CoversText s (t ++ p) := by
  obtain ⟨⟨u, hu, ht⟩, hlen⟩ := h
  split
  · next hp =>
    have hempty := hbuf hp
    refine ⟨⟨u ++ p, hu.append hover (covered_chunkText hover p) (nw_append u p), ?_⟩, hlen⟩
    rw [nw_append, ht, hempty, nw_append]
    simp
  · refine ⟨⟨u, hu, by simp [ht]⟩, ?_⟩
    dsimp only
    split <;> omega

theorem coversText_paragraphStep (hover : 0 ≤ s.chunkOverlap) {st : ParagraphState}
    (h : st.CoversText s t) (p : Text) : (paragraphStep s st p).CoversText s (t ++ p) := by
  have hlen := h.bufLen_nonneg
  have hadd : (p.length : ℤ) ≤ p.length + if st.buf.isEmpty then 0 else 2 := by split <;> omega
  unfold paragraphStep
  dsimp only
  generalize (p.length + if st.buf.isEmpty then 0 else 2 : ℤ) = additional at hadd ⊢
  refine coversText_addParagraph hover ?_ p fun hp => ?_
  · split
    · exact ⟨⟨t, h.flushed hover, by simp⟩, le_rfl⟩
    · exact h
  · split
    · rfl
    · next hkeep =>
      -- The buffer stays only if the paragraph fits beside it, or if it is empty.
      by_contra hne
      simp only [Bool.and_eq_true, Bool.not_eq_true', List.isEmpty_eq_false_iff, decide_eq_true_eq,
        not_and, not_lt] at hkeep
      have := hkeep hne
      omega

theorem coversText_foldl (hover : 0 ≤ s.chunkOverlap) {st : ParagraphState}
    (h : st.CoversText s t) (ps : List Text) :
    (ps.foldl (paragraphStep s) st).CoversText s (t ++ ps.flatten) := by
  induction ps generalizing st t with
  | nil => simpa using h
  | cons p ps ih =>
    have := ih (coversText_paragraphStep hover h p)
    simpa using this

theorem covered_splitOversizedMarkdownSection (hover : 0 ≤ s.chunkOverlap) (sec : Text) :
    Covered (Separate s) (splitOversizedMarkdownSection s sec) sec := by
  unfold splitOversizedMarkdownSection
  split
  · exact covered_singleton rfl
  · have hstart : ParagraphState.CoversText s ⟨[], [], 0⟩ [] := ⟨⟨[], covered_nil rfl, rfl⟩, le_rfl⟩
    have hread := coversText_foldl hover hstart (split ['\n', '\n'] sec)
    have hsec : nw ([] ++ (split ['\n', '\n'] sec).flatten) = nw sec := by
      rw [List.nil_append, nw_flatten, nw_split (by simp) (by decide)]
    dsimp only
    split
    · next hbuf =>
      obtain ⟨u, hu, ht⟩ := hread.covered
      exact hu.congr (by rw [← hsec, ht, List.isEmpty_iff.mp hbuf]; simp)
    · exact (hread.flushed hover).congr hsec

theorem covered_chunkMarkdown (hover : 0 ≤ s.chunkOverlap) (text : Text) :
    Covered (Overlaps s) (chunkMarkdown s text) text :=
  covered_packed (by decide) (covered_flatMap hover
    (fun sec _ => covered_splitOversizedMarkdownSection hover sec)
    (nw_splitMarkdownSections text).symm)

/-! ## The dispatcher -/

theorem covered_chunkDocument (env : Env) (path : PurePath) (text : Text) :
    Covered (Overlaps env.settings) (chunkDocument env path text) text := by
  unfold chunkDocument
  dsimp only
  split
  · exact covered_chunkPython env text
  · split
    · exact covered_chunkMarkdown env.accepted.chunking.1 text
    · exact (covered_chunkText env.accepted.chunking.1 text).mono fun _ _ h => h.1

/-- The chunks of a document are pieces `o ++ r`, where `o` is the end of the chunk
before, at most `CHUNK_OVERLAP` long and empty for the first, and the parts `r`
together have the non-whitespace characters of the text. -/
theorem chunkDocument_coverage (env : Env) (path : PurePath) (text : Text) :
    ∃ ps : List (Text × Text),
      (ps.map fun p => p.1 ++ p.2) = chunkDocument env path text ∧
      (∀ p ∈ ps.head?, p.1 = []) ∧
      (ps.IsChain fun p q =>
        q.1 <:+ p.1 ++ p.2 ∧ (q.1.length : ℤ) ≤ env.settings.chunkOverlap) ∧
      (ps.map fun p => nw p.2).flatten = nw text := by
  obtain ⟨ps, htexts, hcov⟩ := covered_chunkDocument env path text
  refine ⟨ps.map fun p => (p.repeated, p.own), ?_, ?_, ?_, ?_⟩
  · rw [List.map_map, ← htexts]; rfl
  · intro p hp
    rw [List.head?_map, Option.mem_def, Option.map_eq_some_iff] at hp
    obtain ⟨q, hq, rfl⟩ := hp
    exact hcov.head q hq
  · rw [List.isChain_map]; exact hcov.links
  · rw [List.map_map]; exact hcov.nw_own

/-- A text that is not blank has a chunk that is not blank. -/
theorem exists_chunk_of_nw_ne_nil (env : Env) (path : PurePath) {text : Text}
    (h : nw text ≠ []) : ∃ c ∈ chunkDocument env path text, strip c ≠ [] := by
  obtain ⟨ps, htexts, hcov⟩ := covered_chunkDocument env path text
  by_contra hnone
  refine h ?_
  rw [← hcov.nw_own, List.flatten_eq_nil_iff]
  intro l hl
  obtain ⟨p, hp, rfl⟩ := List.mem_map.mp hl
  have hblank : strip p.text = [] := by
    by_contra hne
    exact hnone ⟨p.text, by rw [← htexts]; exact List.mem_map_of_mem hp, hne⟩
  exact nw_eq_nil_of_infix (List.suffix_append p.repeated p.own).isInfix
    (strip_eq_nil_iff.mp hblank)

end LocalRag
