-- SUMMARY: When the chunks of a Markdown document fit `MAX_MD_CHUNK`: where no empty paragraph opens a buffer for another.
import LocalRag.Ingest.ChunkBounds

/-!
# The Markdown limit

`_split_oversized_markdown_section` gathers the paragraphs of a section in a buffer and
counts its length in `buf_len`. The separator is counted where `buf_len` is not zero, and
written where the buffer is not empty. The two differ where an empty paragraph has opened
the buffer: from then on `buf_len` is too small. The packing pass that follows keeps an
empty chunk for the next window, again without counting the separator, and never drops a
chunk that is blank.
-/

namespace LocalRag

open PyText Packing

/-! ## Gathering by the length of the buffer -/

/-- What the paragraphs of a section are gathered into. -/
inductive Block where
  | buffer (paragraphs : List Text)
  /-- A paragraph that is split on its own. -/
  | large (paragraph : Text)

def closeBuffer (buf : List Text) : List Block :=
  if buf = [] then [] else [.buffer buf]

/-- The loop as its comment describes it: a paragraph joins the buffer if the joined
buffer fits `MAX_MD_CHUNK`. -/
def gather (s : Settings) : List Text → List Text → List Block
  | buf, [] => closeBuffer buf
  | buf, p :: ps =>
    if (p.length : ℤ) > s.maxMdChunk then closeBuffer buf ++ .large p :: gather s [] ps
    else if ((join ['\n', '\n'] (buf ++ [p])).length : ℤ) > s.maxMdChunk then
      closeBuffer buf ++ gather s [p] ps
    else gather s (buf ++ [p]) ps

def Block.paragraphs : Block → List Text
  | .buffer paragraphs => paragraphs
  | .large paragraph => [paragraph]

/-- The chunks of a block. -/
def Block.pieces (s : Settings) : Block → List Text
  | .buffer paragraphs => [join ['\n', '\n'] paragraphs]
  | .large paragraph => chunkText s paragraph

def sectionBlocks (s : Settings) (sec : Text) : List Block := gather s [] (split ['\n', '\n'] sec)

/-- The chunks of a section before they are packed. -/
def sectionPieces (s : Settings) (sec : Text) : List Text :=
  if (sec.length : ℤ) ≤ s.maxMdChunk then [sec]
  else (sectionBlocks s sec).flatMap (Block.pieces s)

def markdownPieces (s : Settings) (text : Text) : List Text :=
  (splitMarkdownSections text).flatMap (sectionPieces s)

/-- An empty paragraph opened the buffer and another one joined it. -/
def OpenedEmpty (buf : List Text) : Prop := ∃ p l, buf = [] :: p :: l

variable {s : Settings} {buf ps : List Text} {p : Text} {st : ParagraphState}

theorem length_join_snoc (l : List Text) (p : Text) :
    ((join ['\n', '\n'] (l ++ [p])).length : ℤ) =
      (join ['\n', '\n'] l).length + (p.length + if l = [] then 0 else 2) := by
  rw [length_join, length_join, span_snoc]
  rfl

theorem openedEmpty_snoc (hbuf : ¬OpenedEmpty buf) (p : Text) :
    OpenedEmpty (buf ++ [p]) ↔ buf = [[]] := by
  constructor
  · rintro ⟨q, l, h⟩
    match buf with
    | [] => simp at h
    | [first] =>
      obtain ⟨rfl, -⟩ := List.cons.inj h
      rfl
    | first :: second :: rest =>
      obtain ⟨rfl, -⟩ := List.cons.inj h
      exact absurd ⟨second, rest, rfl⟩ hbuf
  · rintro rfl
    exact ⟨p, [], rfl⟩

/-- The joined buffer is empty only if the buffer is, or has just one paragraph that is. -/
theorem length_join_eq_zero (h : (join ['\n', '\n'] buf).length = 0) : buf = [] ∨ buf = [[]] := by
  match buf with
  | [] => exact .inl rfl
  | [first] =>
    right
    rw [join_singleton] at h
    rw [List.length_eq_zero_iff.mp h]
  | first :: second :: rest =>
    rw [join_cons_of_ne_nil _ _ (by simp)] at h
    simp at h

theorem mem_closeBuffer {block : Block} (h : block ∈ closeBuffer buf) :
    block = .buffer buf ∧ buf ≠ [] := by
  unfold closeBuffer at h
  split at h
  · cases h
  · next hne => exact ⟨List.mem_singleton.mp h, hne⟩

/-- The blocks have the paragraphs in order. -/
theorem gather_paragraphs (buf ps : List Text) :
    (gather s buf ps).flatMap Block.paragraphs = buf ++ ps := by
  have hclosed (buf : List Text) : (closeBuffer buf).flatMap Block.paragraphs = buf := by
    unfold closeBuffer
    split
    · next h => simp [h]
    · simp [Block.paragraphs]
  induction ps generalizing buf with
  | nil => simp [gather, hclosed]
  | cons p ps ih =>
    rw [gather]
    split
    · simp [hclosed, ih, Block.paragraphs]
    · split
      · simp [hclosed, ih]
      · simp [ih]

/-- Only an oversized paragraph is split on its own, and no buffer is closed without paragraphs. -/
theorem mem_gather {block : Block} (h : block ∈ gather s buf ps) :
    (∃ paragraphs, block = .buffer paragraphs ∧ paragraphs ≠ []) ∨
      ∃ p, block = .large p ∧ (p.length : ℤ) > s.maxMdChunk := by
  have hclosed {buf : List Text} (h : block ∈ closeBuffer buf) :
      ∃ paragraphs, block = .buffer paragraphs ∧ paragraphs ≠ [] := ⟨buf, mem_closeBuffer h⟩
  induction ps generalizing buf with
  | nil => exact .inl (hclosed h)
  | cons p ps ih =>
    rw [gather] at h
    split at h
    · next hlarge =>
      rcases List.mem_append.mp h with h | h
      · exact .inl (hclosed h)
      · rcases List.mem_cons.mp h with rfl | h
        · exact .inr ⟨p, rfl, hlarge⟩
        · exact ih h
    · split at h
      · rcases List.mem_append.mp h with h | h
        · exact .inl (hclosed h)
        · exact ih h
      · exact ih h

theorem length_pieces_le (hs : s.Accepted) (hroom : s.chunkSize + s.chunkOverlap + 2 ≤ s.maxChunkChars)
    (hbuf : ((join ['\n', '\n'] buf).length : ℤ) ≤ s.maxMdChunk) :
    ∀ block ∈ gather s buf ps, ∀ piece ∈ block.pieces s, (piece.length : ℤ) ≤ s.maxMdChunk := by
  have hclosed {buf : List Text} (hbuf : ((join ['\n', '\n'] buf).length : ℤ) ≤ s.maxMdChunk) :
      ∀ block ∈ closeBuffer buf, ∀ piece ∈ block.pieces s, (piece.length : ℤ) ≤ s.maxMdChunk := by
    unfold closeBuffer
    split
    · simp
    · simpa [Block.pieces] using hbuf
  induction ps generalizing buf with
  | nil => exact hclosed hbuf
  | cons p ps ih =>
    rw [gather]
    split
    · intro block hblock
      rcases List.mem_append.mp hblock with hblock | hblock
      · exact hclosed hbuf block hblock
      · rcases List.mem_cons.mp hblock with rfl | hblock
        · intro piece hpiece
          exact (length_chunkText_le hs p piece hpiece).trans hroom
        · exact ih (by simpa using maxMdChunk_nonneg hs) block hblock
    · next hsmall =>
      split
      · intro block hblock
        rcases List.mem_append.mp hblock with hblock | hblock
        · exact hclosed hbuf block hblock
        · exact ih (by simpa using not_lt.mp hsmall) block hblock
      · next hfits => exact ih (not_lt.mp hfits)

/-! ## The counter -/

/-- `buf_len` is the length of the joined buffer. -/
def ParagraphState.Exact (st : ParagraphState) : Prop :=
  st.bufLen = (join ['\n', '\n'] st.buf).length

/-- From an empty buffer, a paragraph is split on its own or starts the buffer. -/
theorem paragraphStep_empty (finalChunks : List Text) (p : Text) :
    paragraphStep s ⟨finalChunks, [], 0⟩ p =
      if (p.length : ℤ) > s.maxMdChunk then ⟨finalChunks ++ chunkText s p, [], 0⟩
      else ⟨finalChunks, [p], p.length⟩ := by
  simp [paragraphStep]

/-- With an exact counter, the buffer is closed where the joined buffer does not fit. -/
theorem paragraphStep_closing (hexact : st.Exact)
    (hlong : ((join ['\n', '\n'] (st.buf ++ [p])).length : ℤ) > s.maxMdChunk) :
    paragraphStep s st p = paragraphStep s
      ⟨st.finalChunks ++ (closeBuffer st.buf).flatMap (Block.pieces s), [], 0⟩ p := by
  obtain ⟨finalChunks, buf, bufLen⟩ := st
  dsimp only [ParagraphState.Exact] at hexact hlong ⊢
  subst hexact
  rw [length_join_snoc] at hlong
  by_cases hnil : buf = []
  · subst hnil
    simp [closeBuffer]
  · simp only [hnil, if_false] at hlong
    simp [paragraphStep, closeBuffer, hnil, hlong, Block.pieces]

theorem paragraphStep_joining (hexact : st.Exact)
    (hfits : ¬((join ['\n', '\n'] (st.buf ++ [p])).length : ℤ) > s.maxMdChunk) :
    paragraphStep s st p = ⟨st.finalChunks, st.buf ++ [p],
      st.bufLen + (p.length + if st.bufLen = 0 then 0 else 2)⟩ := by
  obtain ⟨finalChunks, buf, bufLen⟩ := st
  dsimp only [ParagraphState.Exact] at hexact hfits ⊢
  subst hexact
  rw [length_join_snoc] at hfits
  have hsmall : ¬(p.length : ℤ) > s.maxMdChunk := by
    have : (0 : ℤ) ≤ if buf = [] then 0 else 2 := by split <;> omega
    omega
  by_cases hnil : buf = []
  · subst hnil
    simp [paragraphStep, hsmall]
  · have hopen : ¬s.maxMdChunk < (join ['\n', '\n'] buf).length + (p.length + 2 : ℤ) := by
      simpa [hnil] using hfits
    simp [paragraphStep, hnil, hsmall, hopen]

/-- What one round of the loop does when the counter is exact: it closes the blocks that the
comment describes, and the counter stays exact unless the buffer is one empty paragraph. -/
theorem paragraphStep_spec (hexact : st.Exact) (hbuf : ¬OpenedEmpty st.buf) (p : Text) :
    ∃ closed, (∀ buf, Block.buffer buf ∈ closed → buf = st.buf) ∧
      (paragraphStep s st p).finalChunks = st.finalChunks ++ closed.flatMap (Block.pieces s) ∧
      (∀ ps, gather s st.buf (p :: ps) = closed ++ gather s (paragraphStep s st p).buf ps) ∧
      ((paragraphStep s st p).Exact ↔ ¬OpenedEmpty (paragraphStep s st p).buf) := by
  have hsingle (q : Text) : ¬OpenedEmpty [q] := by
    rintro ⟨_, _, h⟩
    simp at h
  have hclosed (buf : List Text) (h : Block.buffer buf ∈ closeBuffer st.buf) : buf = st.buf := by
    simpa using (mem_closeBuffer h).1
  have hsnoc := length_join_snoc st.buf p
  by_cases hlong : ((join ['\n', '\n'] (st.buf ++ [p])).length : ℤ) > s.maxMdChunk
  · -- the buffer is closed, and the paragraph finds an empty one
    rw [paragraphStep_closing hexact hlong, paragraphStep_empty]
    by_cases hlarge : (p.length : ℤ) > s.maxMdChunk
    · rw [if_pos hlarge]
      refine ⟨closeBuffer st.buf ++ [.large p], ?_, ?_, ?_, ?_⟩
      · simpa using hclosed
      · simp [Block.pieces]
      · intro ps
        rw [gather, if_pos hlarge, List.append_assoc, List.singleton_append]
      · simp [ParagraphState.Exact, OpenedEmpty]
    · rw [if_neg hlarge]
      refine ⟨closeBuffer st.buf, hclosed, rfl, ?_, ?_⟩
      · intro ps
        rw [gather, if_neg hlarge, if_pos hlong]
      · simp [ParagraphState.Exact, hsingle]
  · -- the paragraph joins; only beside one empty paragraph the separator goes uncounted
    rw [paragraphStep_joining hexact hlong]
    refine ⟨[], by simp, by simp, ?_, ?_⟩
    · intro ps
      have hsmall : ¬(p.length : ℤ) > s.maxMdChunk := by
        have : (0 : ℤ) ≤ if st.buf = [] then 0 else 2 := by split <;> omega
        omega
      rw [gather, if_neg hsmall, if_neg hlong, List.nil_append]
    · rw [openedEmpty_snoc hbuf]
      unfold ParagraphState.Exact at hexact ⊢
      dsimp only
      rw [hsnoc, hexact]
      by_cases hzero : (join ['\n', '\n'] st.buf).length = 0
      · rcases length_join_eq_zero hzero with hnil | hone
        · simp [hnil]
        · simp [hone]
      · have hnil : st.buf ≠ [] := fun h => hzero (by simp [h])
        have hone : st.buf ≠ [[]] := fun h => hzero (by simp [h])
        simp [hzero, hnil, hone]

/-- A buffer that an empty paragraph has opened for another is closed at some time. -/
theorem openedEmpty_gather (h : OpenedEmpty buf) (ps : List Text) :
    ∃ paragraphs, Block.buffer paragraphs ∈ gather s buf ps ∧ OpenedEmpty paragraphs := by
  have hnil : buf ≠ [] := by
    obtain ⟨p, l, rfl⟩ := h
    simp
  have hhere : Block.buffer buf ∈ closeBuffer buf := by simp [closeBuffer, hnil]
  induction ps generalizing buf with
  | nil => exact ⟨buf, hhere, h⟩
  | cons p ps ih =>
    rw [gather]
    split
    · exact ⟨buf, List.mem_append_left _ hhere, h⟩
    · split
      · exact ⟨buf, List.mem_append_left _ hhere, h⟩
      · have hmore : OpenedEmpty (buf ++ [p]) := by
          obtain ⟨q, l, rfl⟩ := h
          exact ⟨q, l ++ [p], rfl⟩
        exact ih hmore (by simp) (by simp [closeBuffer])

/-- The counter is exact at every iteration if and only if no buffer that an empty
paragraph has opened takes another one. -/
theorem exact_iff (st : ParagraphState) (hexact : st.Exact) (hbuf : ¬OpenedEmpty st.buf)
    (ps : List Text) :
    (∀ read, read <+: ps → (read.foldl (paragraphStep s) st).Exact) ↔
      ∀ paragraphs, Block.buffer paragraphs ∈ gather s st.buf ps → ¬OpenedEmpty paragraphs := by
  induction ps generalizing st with
  | nil =>
    constructor
    · intro _ paragraphs h
      obtain rfl : paragraphs = st.buf := by simpa using (mem_closeBuffer h).1
      exact hbuf
    · intro _ read hread
      rw [List.prefix_nil.mp hread]
      exact hexact
  | cons p ps ih =>
    obtain ⟨closed, hclosed, -, hgather, hstep⟩ := paragraphStep_spec (s := s) hexact hbuf p
    have hreads : (∀ read, read <+: p :: ps → (read.foldl (paragraphStep s) st).Exact) ↔
        ∀ read, read <+: ps → (read.foldl (paragraphStep s) (paragraphStep s st p)).Exact := by
      constructor
      · intro h read hread
        exact h (p :: read) (List.cons_prefix_cons.mpr ⟨rfl, hread⟩)
      · intro h read hread
        rcases List.prefix_cons_iff.mp hread with rfl | ⟨rest, rfl, hrest⟩
        · exact hexact
        · exact h rest hrest
    rw [hreads, hgather]
    by_cases hopened : OpenedEmpty (paragraphStep s st p).buf
    · -- the separator is missed from here on
      have hinexact : ¬(paragraphStep s st p).Exact := fun h => hstep.mp h hopened
      constructor
      · intro h
        exact absurd (h [] List.nil_prefix) hinexact
      · intro h
        obtain ⟨paragraphs, hmem, hopened⟩ := openedEmpty_gather (s := s) hopened ps
        exact absurd hopened (h paragraphs (List.mem_append_right _ hmem))
    · rw [ih _ (hstep.mpr hopened) hopened]
      constructor
      · intro h paragraphs hmem
        rcases List.mem_append.mp hmem with hmem | hmem
        · rw [hclosed paragraphs hmem]
          exact hbuf
        · exact h paragraphs hmem
      · intro h paragraphs hmem
        exact h paragraphs (List.mem_append_right _ hmem)

/-- With an exact counter, the loop gathers what its comment describes. -/
theorem foldl_paragraphStep (st : ParagraphState) (hexact : st.Exact)
    (hbuf : ¬OpenedEmpty st.buf) (ps : List Text)
    (hall : ∀ paragraphs, Block.buffer paragraphs ∈ gather s st.buf ps → ¬OpenedEmpty paragraphs) :
    let done := ps.foldl (paragraphStep s) st
    done.finalChunks ++ (closeBuffer done.buf).flatMap (Block.pieces s) =
      st.finalChunks ++ (gather s st.buf ps).flatMap (Block.pieces s) := by
  induction ps generalizing st with
  | nil => rfl
  | cons p ps ih =>
    obtain ⟨closed, -, hchunks, hgather, hstep⟩ := paragraphStep_spec (s := s) hexact hbuf p
    rw [hgather] at hall ⊢
    have hrest (paragraphs : List Text)
        (h : Block.buffer paragraphs ∈ gather s (paragraphStep s st p).buf ps) :=
      hall paragraphs (List.mem_append_right _ h)
    -- a buffer opened that way would be among the blocks
    have hopened : ¬OpenedEmpty (paragraphStep s st p).buf := by
      intro hopened
      obtain ⟨paragraphs, hmem, hopened⟩ := openedEmpty_gather (s := s) hopened ps
      exact hrest paragraphs hmem hopened
    have hread := ih _ (hstep.mpr hopened) hopened hrest
    rw [hchunks] at hread
    rw [List.flatMap_append, ← List.append_assoc]
    exact hread

/-- In every section that is split, the counter is exact at every iteration. -/
def CountersExact (s : Settings) (text : Text) : Prop :=
  ∀ sec ∈ splitMarkdownSections text, (sec.length : ℤ) > s.maxMdChunk →
    ∀ read, read <+: split ['\n', '\n'] sec → (read.foldl (paragraphStep s) ⟨[], [], 0⟩).Exact

/-! ## Room in the packing -/

/-- The length that the packing has in hand after these pieces, the last of them first. A piece that
does not fit starts anew, beside the piece before it if that one is empty. -/
def handLength (s : Settings) : List Text → ℤ
  | [] => 0
  | [piece] => piece.length
  | piece :: last :: earlier =>
    if handLength s (last :: earlier) + 2 + piece.length > s.chunkSize then
      piece.length + if last = [] then 2 else 0
    else handLength s (last :: earlier) + 2 + piece.length

/-- There is room for the piece beside what is in hand. -/
def FindsRoom (s : Settings) (before : List Text) (piece : Text) : Prop :=
  before ≠ [] ∧ handLength s before.reverse + 2 + piece.length ≤ s.chunkSize

/-- After the piece there is room for the blank ones that follow, and for one that is not blank. -/
def Accompanied (s : Settings) (before : List Text) (piece : Text) (after : List Text) : Prop :=
  ∃ blanks next rest, after = blanks ++ next :: rest ∧ (∀ blank ∈ blanks, strip blank = []) ∧
    strip next ≠ [] ∧ ((join ['\n', '\n'] (piece :: blanks ++ [next])).length : ℤ) +
      (if before.getLast? = some [] then 2 else 0) ≤ s.chunkSize

/-- A blank piece that finds no room is accompanied by one that is not blank. -/
def BlanksAccompanied (s : Settings) (before pieces : List Text) : Prop :=
  ∀ mid piece after, pieces = mid ++ piece :: after → strip piece = [] →
    ¬FindsRoom s (before ++ mid) piece → Accompanied s (before ++ mid) piece after

theorem blanksAccompanied_nil (before : List Text) : BlanksAccompanied s before [] := by
  intro mid piece after h
  simp at h

theorem blanksAccompanied_cons {before l : List Text} {a : Text} :
    BlanksAccompanied s before (a :: l) ↔
      (strip a = [] → ¬FindsRoom s before a → Accompanied s before a l) ∧
        BlanksAccompanied s (before ++ [a]) l := by
  constructor
  · intro h
    refine ⟨fun hblank hroom => ?_, fun mid piece after hl => ?_⟩
    · have := h [] a l rfl hblank
      rw [List.append_nil] at this
      exact this hroom
    · have := h (a :: mid) piece after (by rw [hl, List.cons_append])
      rwa [List.append_cons] at this
  · rintro ⟨hfirst, hlater⟩ mid piece after hl
    cases mid with
    | nil =>
      obtain ⟨rfl, rfl⟩ := List.cons.inj hl
      rw [List.append_nil]
      exact hfirst
    | cons b mid =>
      obtain ⟨rfl, htail⟩ := List.cons.inj hl
      rw [List.append_cons]
      exact hlater mid piece after htail

/-- A window with these items takes on the blank pieces that follow and one that is not blank. -/
def Reaches (s : Settings) (items l : List Text) : Prop :=
  ∃ blanks next rest, l = blanks ++ next :: rest ∧ (∀ blank ∈ blanks, strip blank = []) ∧
    strip next ≠ [] ∧ span len 2 (items ++ blanks ++ [next]) ≤ s.chunkSize

theorem not_reaches_nil (items : List Text) : ¬Reaches s items [] := by
  rintro ⟨blanks, next, rest, h, -⟩
  simp at h

theorem reaches_cons {items l : List Text} {a : Text} : Reaches s items (a :: l) ↔
    span len 2 (items ++ [a]) ≤ s.chunkSize ∧ (strip a ≠ [] ∨ Reaches s (items ++ [a]) l) := by
  constructor
  · rintro ⟨blanks, next, rest, hl, hblanks, hnext, hspan⟩
    cases blanks with
    | nil =>
      obtain ⟨rfl, rfl⟩ := List.cons.inj hl
      rw [List.append_nil] at hspan
      exact ⟨hspan, .inl hnext⟩
    | cons b blanks =>
      obtain ⟨rfl, htail⟩ := List.cons.inj hl
      rw [List.append_cons items] at hspan
      have hpart := (span_le_of_append len_nonneg (zero_le_two : (0 : ℤ) ≤ 2) (items ++ [a])
        (blanks ++ [next])).1
      rw [← List.append_assoc] at hpart
      refine ⟨hpart.trans hspan, .inr ⟨blanks, next, rest, htail, ?_, hnext, hspan⟩⟩
      exact fun blank hblank => hblanks blank (List.mem_cons_of_mem _ hblank)
  · rintro ⟨hspan, hnext⟩
    by_cases hblank : strip a = []
    · obtain ⟨blanks, next, rest, rfl, hblanks, hnext, hspan⟩ := hnext.resolve_left (not_not.mpr hblank)
      refine ⟨a :: blanks, next, rest, rfl, ?_, hnext, ?_⟩
      · exact fun b hb => (List.mem_cons.mp hb).elim (fun h => h ▸ hblank) (hblanks b)
      · rwa [List.append_cons items]
    · exact ⟨[], a, l, rfl, by simp, hblank, by rwa [List.append_nil]⟩

/-- Without an overlap, what is repeated is one empty chunk. -/
theorem eq_of_span_le_zero {l : List Text} (hne : l ≠ []) (h : span len 2 l ≤ 0) : l = [[]] := by
  match l with
  | [first] =>
    rw [span_singleton, len] at h
    rw [List.length_eq_zero_iff.mp (by omega : first.length = 0)]
  | first :: second :: rest =>
    have hfirst := len_nonneg first
    have hrest : 0 ≤ span len 2 (second :: rest) := span_nonneg len_nonneg (by omega) _
    rw [span_cons_of_ne_nil _ (by simp)] at h
    omega

theorem carry_eq (items : List Text) :
    carry len 2 0 items = if items.getLast? = some [] then [[]] else [] := by
  have hcarried (hne : carry len 2 0 items ≠ []) : carry len 2 0 items = [[]] :=
    eq_of_span_le_zero hne (span_carry_le le_rfl items)
  split
  · next hlast =>
    obtain ⟨l, rfl⟩ := List.getLast?_eq_some_iff.mp hlast
    have hkept : [[]] <:+ carry len 2 0 (l ++ [[]]) :=
      suffix_carry (List.suffix_append _ _) (by simp [len])
    exact hcarried (List.ne_nil_of_mem (hkept.subset (List.mem_singleton_self _)))
  · next hlast =>
    by_contra hne
    obtain ⟨l, hl⟩ : [[]] <:+ items := hcarried hne ▸ carry_suffix items
    exact hlast (by simp [← hl])

theorem accompanied_iff (before : List Text) (a : Text) (l : List Text) : Accompanied s before a l ↔
    Reaches s ((if before.getLast? = some [] then [[]] else []) ++ [a]) l := by
  have hspan (blanks : List Text) (next : Text) :
      ((join ['\n', '\n'] (a :: blanks ++ [next])).length : ℤ) +
        (if before.getLast? = some [] then 2 else 0) =
      span len 2 ((if before.getLast? = some [] then [[]] else []) ++ [a] ++ blanks ++ [next]) := by
    rw [length_join]
    split
    · rw [List.append_assoc, List.append_assoc, span_append [[]] _ (by simp) (by simp)]
      simp [len, add_comm]
    · simp
  simp only [Accompanied, Reaches, hspan]

theorem handLength_snoc {before : List Text} (hne : before ≠ []) (a : Text) :
    handLength s (before ++ [a]).reverse =
      if handLength s before.reverse + 2 + a.length > s.chunkSize then
        (a.length : ℤ) + if before.getLast? = some [] then 2 else 0
      else handLength s before.reverse + 2 + a.length := by
  obtain ⟨earlier, last, rfl⟩ := (List.eq_nil_or_concat' before).resolve_left hne
  simp [handLength]

/-- The packing has the window in hand after these pieces. -/
structure InHand (s : Settings) (before : List Text) (w : Window Text) : Prop where
  before_ne_nil : before ≠ []
  length : handLength s before.reverse = span len 2 w.items
  last : before.getLast? = w.items.getLast?

theorem InHand.items_ne_nil (h : InHand s before w) : w.items ≠ [] := by
  intro hitems
  have hlast := h.last
  rw [hitems, List.getLast?_nil, List.getLast?_eq_none_iff] at hlast
  exact h.before_ne_nil hlast

theorem InHand.findsRoom_iff (h : InHand s before w) (a : Text) :
    FindsRoom s before a ↔ span len 2 w.items + (2 + len a) ≤ s.chunkSize := by
  rw [FindsRoom, h.length, add_assoc]
  exact and_iff_right h.before_ne_nil

/-- A piece that finds no room opens the next window. -/
theorem InHand.opens (h : InHand s before w) {a : Text} (hroom : ¬FindsRoom s before a) :
    InHand s (before ++ [a]) ⟨carry len 2 0 w.items, [a]⟩ := by
  refine ⟨by simp, ?_, by simp [Window.items]⟩
  have hlong : handLength s before.reverse + 2 + a.length > s.chunkSize :=
    not_le.mp fun hfits => hroom ⟨h.before_ne_nil, hfits⟩
  rw [handLength_snoc h.before_ne_nil, if_pos hlong, Window.items, carry_eq, ← h.last]
  split <;> simp [span, len, add_comm]

theorem InHand.joins (h : InHand s before w) {a : Text} (hroom : FindsRoom s before a) :
    InHand s (before ++ [a]) ⟨w.kept, w.fresh ++ [a]⟩ := by
  have hmore : Window.items ⟨w.kept, w.fresh ++ [a]⟩ = w.items ++ [a] := by simp [Window.items]
  refine ⟨by simp, ?_, by simp [hmore]⟩
  rw [handLength_snoc h.before_ne_nil, if_neg (not_lt.mpr hroom.2), hmore,
    span_append _ _ h.items_ne_nil (by simp), span_singleton, h.length, add_assoc]
  rfl

/-- A blank piece without room has to be followed. -/
theorem blank_imp_iff {room followed : Prop} {a : Text} (hroom : ¬room) :
    (strip a = [] → ¬room → followed) ↔ strip a ≠ [] ∨ followed := by
  rw [imp_iff_not_or]
  exact or_congr Iff.rfl (forall_prop_of_true hroom)

/-- The windows that come of `w` and the pieces that are left have something that is not blank if and
only if `w` has or comes to have, and the blank pieces that find no room are accompanied. -/
theorem fill_blank_iff {w : Window Text} {before : List Text} (h : InHand s before w) (l : List Text) :
    (∀ v ∈ fill len 2 s.chunkSize 0 w l, ∃ piece ∈ v.items, strip piece ≠ []) ↔
      ((∃ piece ∈ w.items, strip piece ≠ []) ∨ Reaches s w.items l) ∧ BlanksAccompanied s before l := by
  induction l generalizing w before with
  | nil => simp [fill, not_reaches_nil, blanksAccompanied_nil]
  | cons a l ih =>
    have hsnoc : span len 2 (w.items ++ [a]) = span len 2 w.items + (2 + len a) := by
      rw [span_append _ _ h.items_ne_nil (by simp), span_singleton]
    rw [fill, reaches_cons, hsnoc, blanksAccompanied_cons, ← h.findsRoom_iff]
    split
    · next hlong =>
      -- The window is closed, and `a` opens the next one.
      have hclosed : ¬FindsRoom s before a := fun hroom => hlong.not_ge ((h.findsRoom_iff a).mp hroom)
      have hrest : _ ↔ _ := ih (h.opens hclosed)
      have hcarry : (if before.getLast? = some [] then [[]] else []) = carry len 2 0 w.items := by
        rw [carry_eq, h.last]
      have hopened : (∃ piece ∈ Window.items ⟨carry len 2 0 w.items, [a]⟩, strip piece ≠ []) ↔
          strip a ≠ [] := by
        have hempty : strip [] = [] := rfl
        rw [Window.items, ← hcarry]
        split <;> simp [hempty]
      have hfull : ¬(FindsRoom s before a ∧ (strip a ≠ [] ∨ Reaches s (w.items ++ [a]) l)) :=
        fun hroom => hclosed hroom.1
      rw [List.forall_mem_cons, hrest, hopened, accompanied_iff, hcarry, blank_imp_iff hclosed,
        or_iff_left hfull]
      exact Iff.rfl
    · next hfits =>
      have hopen : FindsRoom s before a := (h.findsRoom_iff a).mpr (not_lt.mp hfits)
      have hmore : Window.items ⟨w.kept, w.fresh ++ [a]⟩ = w.items ++ [a] := by simp [Window.items]
      have hrest : _ ↔ _ := ih (h.joins hopen)
      rw [hmore] at hrest
      have hjoined : (∃ piece ∈ w.items ++ [a], strip piece ≠ []) ↔
          (∃ piece ∈ w.items, strip piece ≠ []) ∨ strip a ≠ [] := by
        simp [or_and_right, exists_or]
      rw [hrest, hjoined, or_assoc, and_iff_right hopen, and_iff_right fun _ h => absurd hopen h]

theorem pack_blank_iff (pieces : List Text) :
    (∀ w ∈ pack len 2 s.chunkSize 0 pieces, ∃ piece ∈ w.items, strip piece ≠ []) ↔
      BlanksAccompanied s [] pieces := by
  cases pieces with
  | nil => simp [pack, blanksAccompanied_nil]
  | cons a l =>
    have hhand : InHand s [a] ⟨[], [a]⟩ := ⟨by simp, by simp [handLength, Window.items, len], rfl⟩
    have hfirst : ¬FindsRoom s [] a := fun h => h.1 rfl
    have hopened : (∃ piece ∈ Window.items ⟨[], [a]⟩, strip piece ≠ []) ↔ strip a ≠ [] := by
      simp [Window.items]
    rw [pack, fill_blank_iff hhand, blanksAccompanied_cons, accompanied_iff, blank_imp_iff hfirst, hopened]
    exact Iff.rfl

/-! ## The chunks of a document -/

/-- No separator goes uncounted, and no blank chunk stays alone. -/
structure Unaffected (s : Settings) (text : Text) : Prop where
  /-- An empty paragraph never opens a buffer that takes another one. -/
  opened : ∀ sec ∈ splitMarkdownSections text, (sec.length : ℤ) > s.maxMdChunk →
    ∀ paragraphs, Block.buffer paragraphs ∈ sectionBlocks s sec → ¬OpenedEmpty paragraphs
  /-- The chunk after an empty one has room for the separator. -/
  repeated : ∀ piece, [[], piece] <:+: markdownPieces s text → (piece.length : ℤ) + 2 ≤ s.maxMdChunk
  /-- A blank chunk that finds no room has room beside it, up to the next one that is not blank. -/
  blank : BlanksAccompanied s [] (markdownPieces s text)

variable {text : Text}

theorem countersExact_iff : CountersExact s text ↔
    ∀ sec ∈ splitMarkdownSections text, (sec.length : ℤ) > s.maxMdChunk →
      ∀ paragraphs, Block.buffer paragraphs ∈ sectionBlocks s sec → ¬OpenedEmpty paragraphs := by
  have hempty : ¬OpenedEmpty [] := by simp [OpenedEmpty]
  have hiff (sec : Text) := exact_iff (s := s) ⟨[], [], 0⟩ rfl hempty (split ['\n', '\n'] sec)
  constructor
  · intro h sec hsec hlong
    exact (hiff sec).mp (h sec hsec hlong)
  · intro h sec hsec hlong
    exact (hiff sec).mpr (h sec hsec hlong)

theorem splitOversizedMarkdownSection_eq (sec : Text) (h : (sec.length : ℤ) > s.maxMdChunk →
      ∀ paragraphs, Block.buffer paragraphs ∈ sectionBlocks s sec → ¬OpenedEmpty paragraphs) :
    splitOversizedMarkdownSection s sec = sectionPieces s sec := by
  have hempty : ¬OpenedEmpty [] := by simp [OpenedEmpty]
  unfold splitOversizedMarkdownSection sectionPieces
  split
  · rfl
  · next hlong =>
    have hread := foldl_paragraphStep (s := s) ⟨[], [], 0⟩ rfl hempty _ (h (not_le.mp hlong))
    dsimp only at hread ⊢
    rw [List.nil_append] at hread
    rw [sectionBlocks, ← hread]
    by_cases hnil : ((split ['\n', '\n'] sec).foldl (paragraphStep s) ⟨[], [], 0⟩).buf = []
    · simp [closeBuffer, hnil]
    · simp [closeBuffer, hnil, Block.pieces]

theorem chunkMarkdown_eq_pack (h : CountersExact s text) :
    chunkMarkdown s text = (pack len 2 s.chunkSize 0 (markdownPieces s text)).map fun w =>
      join ['\n', '\n'] w.items := by
  have hpieces : (splitMarkdownSections text).flatMap (splitOversizedMarkdownSection s) =
      markdownPieces s text := by
    apply List.flatMap_congr
    intro sec hsec
    exact splitOversizedMarkdownSection_eq sec (countersExact_iff.mp h sec hsec)
  rw [chunkMarkdown, hpieces, mergeSplits_eq_pack]
  rfl

theorem length_markdownPieces_le (hs : s.Accepted)
    (hroom : s.chunkSize + s.chunkOverlap + 2 ≤ s.maxChunkChars) :
    ∀ piece ∈ markdownPieces s text, (piece.length : ℤ) ≤ s.maxMdChunk := by
  intro piece hpiece
  obtain ⟨sec, -, hpiece⟩ := List.mem_flatMap.mp hpiece
  unfold sectionPieces at hpiece
  split at hpiece
  · next hfits =>
    rw [List.mem_singleton.mp hpiece]
    exact hfits
  · obtain ⟨block, hblock, hpiece⟩ := List.mem_flatMap.mp hpiece
    exact length_pieces_le hs hroom (by simpa using maxMdChunk_nonneg hs) block hblock piece hpiece

theorem strip_join_ne_nil {l : List Text} :
    strip (join ['\n', '\n'] l) ≠ [] ↔ ∃ piece ∈ l, strip piece ≠ [] := by
  have hsep : nw ['\n', '\n'] = [] := by decide
  simp [strip_eq_nil_iff, nw_join hsep]

/-- The chunks of a Markdown document are not blank and fit `MAX_MD_CHUNK`, and the
counter is exact, if and only if no separator goes uncounted and no blank chunk stays
alone. -/
theorem chunkMarkdown_fits_iff (hs : s.Accepted)
    (hroom : s.chunkSize + s.chunkOverlap + 2 ≤ s.maxChunkChars) (text : Text) :
    ((∀ c ∈ chunkMarkdown s text, strip c ≠ [] ∧ (c.length : ℤ) ≤ s.maxMdChunk) ∧
      CountersExact s text) ↔ Unaffected s text := by
  have hspan (l : List Text) : ((join ['\n', '\n'] l).length : ℤ) = span len 2 l := length_join _ l
  constructor
  · rintro ⟨hchunks, hexact⟩
    rw [chunkMarkdown_eq_pack hexact, List.forall_mem_map] at hchunks
    refine ⟨countersExact_iff.mp hexact, ?_, ?_⟩
    · intro piece hinside
      by_contra hlong
      -- the packing pass repeats the empty chunk before the one that has no room for it
      have hpair : span len 2 ([[]] ++ [piece]) = 2 + piece.length := by
        simp [span, len]
      have hsize : s.chunkSize ≤ s.maxMdChunk := hs.chunking.2.2
      obtain ⟨w, hw, hle⟩ : ∃ w ∈ pack len 2 s.chunkSize 0 (markdownPieces s text),
          span len 2 ([[]] ++ [piece]) ≤ span len 2 w.items :=
        pack_repeats len_nonneg (by omega) hinside (by simp) (by simp [len]) (by omega)
      have hfits := (hchunks w hw).2
      rw [hspan] at hfits
      omega
    · exact pack_blank_iff _ |>.mp fun w hw => strip_join_ne_nil.mp (hchunks w hw).1
  · intro h
    have hexact := countersExact_iff.mpr h.opened
    refine ⟨?_, hexact⟩
    rw [chunkMarkdown_eq_pack hexact, List.forall_mem_map]
    intro w hw
    refine ⟨strip_join_ne_nil.mpr ((pack_blank_iff _).mpr h.blank w hw), ?_⟩
    rw [hspan]
    rcases pack_span_le _ w hw with hfits | ⟨piece, hpiece, hitems⟩
    · exact hfits.trans hs.chunking.2.2
    · -- one chunk beside what is repeated, which can only be an empty one
      by_cases hkept : w.kept = []
      · rw [hitems, hkept, List.nil_append, span_singleton]
        exact length_markdownPieces_le hs hroom piece hpiece
      · have hempty := eq_of_span_le_zero hkept (pack_kept_le le_rfl _ w hw)
        rw [hempty] at hitems
        have hinside : [[], piece] <:+: markdownPieces s text := by
          have := pack_stretch _ w hw
          rwa [hitems] at this
        have := h.repeated piece hinside
        rw [hitems]
        simp [span, len]
        omega

/-- A paragraph that fills a chunk, an empty one, and two that fit one chunk together. -/
def emptyAtFlush : Text :=
  join ['\n', '\n'] [List.replicate 2000 'a', [], List.replicate 1990 'b', List.replicate 8 'c']

theorem chunkMarkdown_fits_iff_emptyAtFlush :
    ({} : Settings).Accepted ∧
      (((∀ c ∈ chunkMarkdown {} emptyAtFlush,
          strip c ≠ [] ∧ (c.length : ℤ) ≤ ({} : Settings).maxMdChunk) ∧
        CountersExact {} emptyAtFlush) ↔ Unaffected {} emptyAtFlush) :=
  ⟨defaults_accepted, chunkMarkdown_fits_iff defaults_accepted (by decide) emptyAtFlush⟩

set_option maxRecDepth 8000 in
/-- With the default settings the last two paragraphs become a chunk of 2002 characters. -/
theorem chunkMarkdown_exceeds_limit :
    ({} : Settings).Accepted ∧
      ({} : Settings).chunkSize + ({} : Settings).chunkOverlap + 2 ≤ ({} : Settings).maxChunkChars ∧
      ¬∀ c ∈ chunkMarkdown {} emptyAtFlush,
        strip c ≠ [] ∧ (c.length : ℤ) ≤ ({} : Settings).maxMdChunk := by
  have hlong : ∃ c ∈ chunkMarkdown {} emptyAtFlush, c.length = 2002 := by decide +kernel
  obtain ⟨c, hc, hlen⟩ := hlong
  have hlimit : ({} : Settings).maxMdChunk = 2000 := rfl
  refine ⟨defaults_accepted, by decide, fun hall => ?_⟩
  have := (hall c hc).2
  omega

/-! ## Documents without blank paragraphs -/

theorem strip_ne_nil_of_mem_splitMarkdownSections {sec : Text} (h : sec ∈ splitMarkdownSections text) :
    strip sec ≠ [] := by
  obtain ⟨hmem, hne⟩ := List.mem_filter.mp h
  obtain ⟨raw, -, rfl⟩ := List.mem_map.mp hmem
  rw [strip_strip]
  simpa using hne

/-- If no section that is split has a blank paragraph or a paragraph with a blank chunk,
the document is unaffected. -/
theorem unaffected_of_not_blank (h : ∀ sec ∈ splitMarkdownSections text,
      (sec.length : ℤ) > s.maxMdChunk → ∀ p ∈ split ['\n', '\n'] sec, strip p ≠ [] ∧
        ((p.length : ℤ) > s.maxMdChunk → ∀ c ∈ chunkText s p, strip c ≠ [])) :
    Unaffected s text := by
  have hparagraph {sec : Text} {block : Block} (hblock : block ∈ sectionBlocks s sec) {p : Text}
      (hp : p ∈ block.paragraphs) : p ∈ split ['\n', '\n'] sec := by
    have hall : (sectionBlocks s sec).flatMap Block.paragraphs = _ := gather_paragraphs _ _
    rw [List.nil_append] at hall
    exact hall ▸ List.mem_flatMap.mpr ⟨block, hblock, hp⟩
  have hpieces : ∀ piece ∈ markdownPieces s text, strip piece ≠ [] := by
    intro piece hpiece
    obtain ⟨sec, hsec, hpiece⟩ := List.mem_flatMap.mp hpiece
    unfold sectionPieces at hpiece
    split at hpiece
    · rw [List.mem_singleton.mp hpiece]
      exact strip_ne_nil_of_mem_splitMarkdownSections hsec
    · next hlong =>
      obtain ⟨block, hblock, hpiece⟩ := List.mem_flatMap.mp hpiece
      have hsec := h sec hsec (not_le.mp hlong)
      rcases mem_gather hblock with ⟨paragraphs, rfl, hne⟩ | ⟨p, rfl, hlarge⟩
      · obtain ⟨first, rest, rfl⟩ := List.exists_cons_of_ne_nil hne
        rw [List.mem_singleton.mp hpiece]
        have hfirst := hparagraph hblock (p := first) List.mem_cons_self
        exact strip_join_ne_nil.mpr ⟨first, List.mem_cons_self, (hsec first hfirst).1⟩
      · have hp := hparagraph hblock (p := p) List.mem_cons_self
        exact (hsec p hp).2 hlarge piece hpiece
  have hempty : strip [] = [] := rfl
  constructor
  · intro sec hsec hlong paragraphs hblock hopened
    obtain ⟨p, l, rfl⟩ := hopened
    exact (h sec hsec hlong [] (hparagraph hblock List.mem_cons_self)).1 hempty
  · intro piece hinside
    exact absurd hempty (hpieces [] (hinside.subset (by simp)))
  · intro before piece after hsplit hblank
    exact absurd hblank (hpieces piece (by simp [hsplit]))

end LocalRag
