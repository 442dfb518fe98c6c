-- SUMMARY: When the chunks of a plain text fit `CHUNK_SIZE`: the carried-over overlap, the separator and the next piece must. Merging without an overlap is a greedy partition.
import LocalRag.Ingest.Coverage

/-!
# Text windows

The recursive splitter closes a chunk when the next piece does not fit. It then
carries the end of the chunk over, up to `CHUNK_OVERLAP` characters, and adds the
piece without looking at the size again. So a chunk is longer than `CHUNK_SIZE`
exactly where such an end, the separator and the piece are.
-/

namespace LocalRag

open PyText Packing

/-! ## The pieces of a text -/

/-- Neighbouring pieces of a text, cut at one separator. -/
structure PieceRun where
  separator : Text
  pieces : List Text

/-- The parts a text is cut into at a separator; at the empty one, its characters. -/
def partsAt (separator text : Text) : List Text :=
  if separator = [] then text.map ([·]) else (split separator text).filter (· != [])

/-- The part has to be split further. -/
def oversized (s : Settings) (part : Text) : Bool := (part.length : ℤ) > s.chunkSize

/-- The runs of a text, cut at the first separator that applies: the parts between
two oversized ones. An oversized part has runs at the separators that follow. -/
def runs (s : Settings) : List Text → Text → List PieceRun
  | [], _ => []
  | separator :: remaining, text =>
    if separator = [] ∨ separator <:+: text ∨ remaining = [] then
      ((partsAt separator text).splitOnP (oversized s)).map (PieceRun.mk separator) ++
        ((partsAt separator text).filter (oversized s)).flatMap (runs s remaining)
    else runs s remaining text

/-- Whatever is within the overlap fits `CHUNK_SIZE` together with the piece after it. -/
def PieceRun.Fits (s : Settings) (r : PieceRun) : Prop :=
  ∀ tail piece, tail ++ [piece] <:+: r.pieces → tail ≠ [] →
    ((join r.separator tail).length : ℤ) ≤ s.chunkOverlap →
    ((join r.separator (tail ++ [piece])).length : ℤ) ≤ s.chunkSize

variable {s : Settings} {sep t c : Text}

theorem ne_nil_of_mem_partsAt (h : c ∈ partsAt sep t) : c ≠ [] := by
  unfold partsAt at h
  split at h
  · obtain ⟨ch, -, rfl⟩ := List.mem_map.mp h
    exact List.cons_ne_nil ch []
  · simpa using (List.mem_filter.mp h).2

/-- A run has none of the oversized parts, and all its pieces are parts. -/
theorem mem_of_mem_splitOnP {α : Type} {p : α → Bool} {l run : List α} {a : α}
    (hrun : run ∈ l.splitOnP p) (ha : a ∈ run) : a ∈ l ∧ p a = false := by
  induction l generalizing run with
  | nil =>
    rw [List.splitOnP_nil, List.mem_singleton] at hrun
    rw [hrun] at ha
    cases ha
  | cons b l ih =>
    obtain ⟨first, rest, hl⟩ := List.exists_cons_of_ne_nil (List.splitOnP_ne_nil p l)
    rw [List.splitOnP_cons_eq_if_modifyHead, hl] at hrun
    rw [hl] at ih
    by_cases hb : p b = true
    · rw [if_pos hb] at hrun
      rcases List.mem_cons.mp hrun with rfl | hrun
      · cases ha
      · exact (ih hrun ha).imp_left (List.mem_cons_of_mem b)
    · rw [if_neg hb, List.modifyHead_cons] at hrun
      rcases List.mem_cons.mp hrun with rfl | hrun
      · rcases List.mem_cons.mp ha with rfl | ha
        · exact ⟨List.mem_cons_self, Bool.not_eq_true _ ▸ hb⟩
        · exact (ih List.mem_cons_self ha).imp_left (List.mem_cons_of_mem b)
      · exact (ih (List.mem_cons_of_mem _ hrun) ha).imp_left (List.mem_cons_of_mem b)

theorem separator_of_mem_runs {seps : List Text} {r : PieceRun} (hr : r ∈ runs s seps t) :
    r.separator ∈ seps := by
  induction seps generalizing t with
  | nil => cases hr
  | cons sep remaining ih =>
    rw [runs] at hr
    split at hr
    · rcases List.mem_append.mp hr with hr | hr
      · obtain ⟨pieces, -, rfl⟩ := List.mem_map.mp hr
        exact List.mem_cons_self
      · obtain ⟨part, -, hr⟩ := List.mem_flatMap.mp hr
        exact List.mem_cons_of_mem _ (ih hr)
    · exact List.mem_cons_of_mem _ (ih hr)

theorem pieces_of_mem_runs {seps : List Text} {r : PieceRun} (hr : r ∈ runs s seps t) :
    ∀ piece ∈ r.pieces, piece ≠ [] ∧ (piece.length : ℤ) ≤ s.chunkSize := by
  induction seps generalizing t with
  | nil => cases hr
  | cons sep remaining ih =>
    rw [runs] at hr
    split at hr
    · rcases List.mem_append.mp hr with hr | hr
      · obtain ⟨pieces, hpieces, rfl⟩ := List.mem_map.mp hr
        intro piece hpiece
        obtain ⟨hpart, hsmall⟩ := mem_of_mem_splitOnP hpieces hpiece
        exact ⟨ne_nil_of_mem_partsAt hpart, by simpa [oversized] using hsmall⟩
      · obtain ⟨part, -, hr⟩ := List.mem_flatMap.mp hr
        exact ih hr
    · exact ih hr

/-! ## Splitting is merging the runs -/

/-- Merging no parts gives no chunks, so the loop need not look whether there are any. -/
theorem merged_eq (good : List Text) : (if good.isEmpty then [] else
    mergeSplits s good sep s.chunkOverlap) = mergeSplits s good sep s.chunkOverlap := by
  split
  · next h =>
    rw [List.isEmpty_iff.mp h]
    rfl
  · rfl

theorem mem_splitParts_iff (recurse : Text → List Text) (parts good : List Text) :
    c ∈ splitParts s sep recurse parts good ↔
      (∃ run ∈ (parts.splitOnP (oversized s)).modifyHead (good ++ ·),
        c ∈ mergeSplits s run sep s.chunkOverlap) ∨
      ∃ part ∈ parts, oversized s part ∧ c ∈ recurse part := by
  induction parts generalizing good with
  | nil =>
    rw [splitParts, merged_eq]
    simp
  | cons part parts ih =>
    obtain ⟨first, rest, hparts⟩ :=
      List.exists_cons_of_ne_nil (List.splitOnP_ne_nil (oversized s) parts)
    rw [splitParts, List.splitOnP_cons_eq_if_modifyHead]
    by_cases hlong : (part.length : ℤ) > s.chunkSize
    · -- the parts waiting are a run, and the next run starts empty
      have hlong' : oversized s part = true := by simpa [oversized] using hlong
      rw [if_pos hlong, if_pos hlong', merged_eq, List.mem_append, List.mem_append, ih, hparts]
      simp only [List.modifyHead_cons, List.exists_mem_cons_iff, List.append_nil, List.nil_append,
        hlong', true_and]
      simp only [or_assoc, or_left_comm]
    · -- the part joins the run that is waiting
      have hlong' : ¬oversized s part = true := by simpa [oversized] using hlong
      rw [if_neg hlong, if_neg hlong', ih, hparts]
      simp [hlong']

/-- The last separator is empty, and at it no part is oversized. -/
theorem mem_recursiveSplit_iff (hs : s.Accepted) {seps : List Text} (hlast : [] ∈ seps) :
    c ∈ recursiveSplit s seps t ↔
      ∃ r ∈ runs s seps t, c ∈ mergeSplits s r.pieces r.separator s.chunkOverlap := by
  have hpos := hs.chunkSize_pos
  induction seps generalizing t with
  | nil => cases hlast
  | cons sep remaining ih =>
    have hrest : sep ≠ [] → [] ∈ remaining := fun hne =>
      (List.mem_cons.mp hlast).resolve_left (Ne.symm hne)
    rw [recursiveSplit, runs]
    by_cases hcut : sep = [] ∨ sep <:+: t ∨ remaining = []
    · have hdeeper : ∀ part ∈ partsAt sep t, oversized s part →
          (c ∈ (if remaining.isEmpty then [part] else recursiveSplit s remaining part) ↔
            ∃ r ∈ runs s remaining part, c ∈ mergeSplits s r.pieces r.separator s.chunkOverlap) := by
        intro part hpart hlong
        by_cases hne : sep = []
        · -- a single character is not longer than a positive size
          rw [partsAt, if_pos hne] at hpart
          obtain ⟨ch, -, rfl⟩ := List.mem_map.mp hpart
          simp [oversized] at hlong
          omega
        · rw [if_neg (by simpa using List.ne_nil_of_mem (hrest hne))]
          exact ih (hrest hne)
      rw [if_pos hcut, if_pos hcut]
      change c ∈ splitParts s sep _ (partsAt sep t) [] ↔ _
      rw [mem_splitParts_iff]
      obtain ⟨first, rest, hparts⟩ :=
        List.exists_cons_of_ne_nil (List.splitOnP_ne_nil (oversized s) (partsAt sep t))
      rw [hparts]
      simp only [List.modifyHead_cons, List.nil_append, List.mem_append, or_and_right, exists_or,
        List.mem_map, List.mem_flatMap, List.mem_filter]
      apply or_congr
      · simp
      constructor
      · rintro ⟨part, hpart, hlong, hc⟩
        obtain ⟨r, hr, hc⟩ := (hdeeper part hpart hlong).mp hc
        exact ⟨r, ⟨part, ⟨hpart, hlong⟩, hr⟩, hc⟩
      · rintro ⟨r, ⟨part, ⟨hpart, hlong⟩, hr⟩, hc⟩
        exact ⟨part, hpart, hlong, (hdeeper part hpart hlong).mpr ⟨r, hr, hc⟩⟩
    · rw [if_neg hcut, if_neg hcut]
      exact ih (hrest fun hnil => hcut (.inl hnil))

/-! ## Chunk lengths -/

theorem mergeSplits_fits_iff (hover : 0 ≤ s.chunkOverlap) {r : PieceRun}
    (hr : ∀ piece ∈ r.pieces, (piece.length : ℤ) ≤ s.chunkSize) :
    (∀ c ∈ mergeSplits s r.pieces r.separator s.chunkOverlap, (c.length : ℤ) ≤ s.chunkSize) ↔
      r.Fits s := by
  have hgap : (0 : ℤ) ≤ r.separator.length := Int.natCast_nonneg _
  have hwithin := pack_within_iff len_nonneg hgap hover hr
  rw [mergeSplits_eq_pack]
  simpa only [List.forall_mem_map, length_join, PieceRun.Fits] using hwithin

theorem recursiveSplit_fits_iff (hs : s.Accepted) (t : Text) :
    (∀ c ∈ recursiveSplit s separators t, (c.length : ℤ) ≤ s.chunkSize) ↔
      ∀ r ∈ runs s separators t, r.Fits s := by
  have hmem (c : Text) : c ∈ recursiveSplit s separators t ↔ ∃ r ∈ runs s separators t,
      c ∈ mergeSplits s r.pieces r.separator s.chunkOverlap :=
    mem_recursiveSplit_iff hs (by decide)
  have hrun (r : PieceRun) (hr : r ∈ runs s separators t) :=
    mergeSplits_fits_iff hs.chunking.1 fun piece hpiece => (pieces_of_mem_runs hr piece hpiece).2
  constructor
  · intro hall r hr
    apply (hrun r hr).mp
    exact fun c hc => hall c ((hmem c).mpr ⟨r, hr, hc⟩)
  · intro hall c hc
    obtain ⟨r, hr, hc⟩ := (hmem c).mp hc
    exact (hrun r hr).mpr (hall r hr) c hc

/-- The chunks of a text fit `CHUNK_SIZE` if and only if its runs do. A blank text has none. -/
theorem chunkText_fits_iff (hs : s.Accepted) (text : Text) :
    (∀ c ∈ chunkText s text, (c.length : ℤ) ≤ s.chunkSize) ↔
      strip text = [] ∨ ∀ r ∈ runs s separators text, r.Fits s := by
  rw [chunkText]
  split
  · next hblank => simp [hblank]
  · next htext =>
    rw [recursiveSplit_fits_iff hs, or_iff_right htext]

/-- A short word, then one that fills a chunk on its own. -/
def wordThenLong (n : ℕ) : Text := 'a' :: ' ' :: List.replicate n 'b'

theorem chunkText_fits_iff_wordThenLong :
    ({} : Settings).Accepted ∧
      ((∀ c ∈ chunkText {} (wordThenLong 498), (c.length : ℤ) ≤ ({} : Settings).chunkSize) ↔
        strip (wordThenLong 498) = [] ∨
          ∀ r ∈ runs {} separators (wordThenLong 498), r.Fits {}) :=
  ⟨defaults_accepted, chunkText_fits_iff defaults_accepted (wordThenLong 498)⟩

set_option maxRecDepth 4000 in
/-- With the default settings, a word of one character before one of 500 gives a
chunk of 502. -/
theorem chunkText_exceeds_chunkSize :
    ({} : Settings).Accepted ∧
      ¬∀ c ∈ chunkText {} (wordThenLong 500), (c.length : ℤ) ≤ ({} : Settings).chunkSize := by
  have hlong : ∃ c ∈ chunkText {} (wordThenLong 500), c.length = 502 := by decide +kernel
  obtain ⟨c, hc, hlen⟩ := hlong
  have hsize : ({} : Settings).chunkSize = 500 := rfl
  refine ⟨defaults_accepted, fun hall => ?_⟩
  have := hall c hc
  omega

/-! ## Without an overlap -/

theorem run_wordThenLong {n : ℕ} (hn : (n : ℤ) ≤ s.chunkSize) (hpos : 0 < n) :
    ⟨[' '], [['a'], List.replicate n 'b']⟩ ∈ runs s separators (wordThenLong n) := by
  have hline : '\n' ∉ wordThenLong n := by simp [wordThenLong]
  have hspace : ¬[' '] <:+: List.replicate n 'b' := by simp [List.singleton_infix_iff]
  have hparts : partsAt [' '] (wordThenLong n) = [['a'], List.replicate n 'b'] := by
    have hsplit : split [' '] (wordThenLong n) = ['a'] :: split [' '] (List.replicate n 'b') := by
      simp [split, splitGo, wordThenLong]
    rw [partsAt, if_neg (by simp), hsplit, split_of_not_infix hspace]
    simp [Nat.ne_of_gt hpos]
  have hsmall : ∀ part ∈ partsAt [' '] (wordThenLong n), oversized s part = false := by
    simp [hparts, oversized]
    omega
  have hbreak (sep : Text) (hsep : '\n' ∈ sep) : ¬sep <:+: wordThenLong n :=
    fun hinside => hline (hinside.subset hsep)
  have hhere : [' '] <:+: wordThenLong n := ⟨['a'], List.replicate n 'b', rfl⟩
  rw [separators, runs, if_neg (by simp [hbreak]), runs, if_neg (by simp [hbreak]), runs,
    if_pos (.inr (.inl hhere)), List.splitOnP_eq_singleton hsmall, hparts]
  simp

/-- Every text is split into chunks that fit if and only if nothing is carried over. -/
theorem chunkText_always_fits_iff (hs : s.Accepted) :
    (∀ text, ∀ c ∈ chunkText s text, (c.length : ℤ) ≤ s.chunkSize) ↔ s.chunkOverlap = 0 := by
  constructor
  · intro hall
    by_contra hne
    -- one character is within the overlap, and the word after it fills the chunk
    have hover := hs.chunking.1
    have hpos := hs.chunkSize_pos
    obtain ⟨n, hn⟩ : ∃ n : ℕ, s.chunkSize = n := ⟨s.chunkSize.toNat, by omega⟩
    have htext : strip (wordThenLong n) ≠ [] := fun hblank =>
      absurd (nw_eq_nil_iff.mp (strip_eq_nil_iff.mp hblank) 'a' List.mem_cons_self) (by decide)
    have hchunks := hall (wordThenLong n)
    rw [chunkText, if_neg htext] at hchunks
    have hfits := (recursiveSplit_fits_iff hs _).mp hchunks _
      (run_wordThenLong (le_of_eq hn.symm) (by omega)) [['a']] _ List.infix_rfl (by simp)
      (by simp; omega)
    simp [join_cons_of_ne_nil] at hfits
    omega
  · intro hzero text
    rw [chunkText]
    split
    · simp
    · refine (recursiveSplit_fits_iff hs text).mpr fun r hr tail piece hinside hne htail => ?_
      -- a piece is not empty, so nothing is within an overlap of zero
      obtain ⟨first, tail, rfl⟩ := List.exists_cons_of_ne_nil hne
      have hfirst : first ≠ [] :=
        (pieces_of_mem_runs hr first (hinside.subset List.mem_cons_self)).1
      have hpos : 0 < first.length := List.length_pos_iff.mpr hfirst
      have hle : len first ≤ _ := size_le_span len_nonneg (Int.natCast_nonneg r.separator.length)
        (List.mem_cons_self (l := tail))
      rw [← length_join, len] at hle
      omega

/-! ## Merging without an overlap -/

/-- The groups are consecutive parts of the pieces. Each is one piece or fits `CHUNK_SIZE`, and none
has room for the first piece of the group after it. -/
structure GreedyPartition (s : Settings) (separator : Text) (pieces : List Text)
    (groups : List (List Text)) : Prop where
  flatten : groups.flatten = pieces
  ne_nil : ∀ g ∈ groups, g ≠ []
  fits : ∀ g ∈ groups, (∃ piece, g = [piece]) ∨ ((join separator g).length : ℤ) ≤ s.chunkSize
  maximal : groups.IsChain fun g next => ∃ piece rest, next = piece :: rest ∧
    s.chunkSize < ((join separator g ++ separator ++ piece).length : ℤ)

/-- The windows of a packing without an overlap are such groups. -/
theorem greedyPartition_pack {pieces : List Text} (hpieces : ∀ piece ∈ pieces, piece ≠ []) :
    GreedyPartition s sep pieces ((pack len sep.length s.chunkSize 0 pieces).map Window.items) := by
  have hgap : (0 : ℤ) ≤ sep.length := Int.natCast_nonneg _
  have hsize : ∀ piece ∈ pieces, 0 < len piece := fun piece hpiece =>
    Int.natCast_pos.mpr (List.length_pos_iff.mpr (hpieces piece hpiece))
  have hkept : ∀ w ∈ pack len sep.length s.chunkSize 0 pieces, w.kept = [] :=
    pack_kept_eq_nil len_nonneg hgap hsize
  have hitems : ∀ w ∈ pack len sep.length s.chunkSize 0 pieces, w.items = w.fresh := by
    intro w hw
    rw [Window.items, hkept w hw, List.nil_append]
  have hfresh (w) (hw : w ∈ pack len sep.length s.chunkSize 0 pieces) : w.fresh ≠ [] :=
    (pack_fits pieces w hw).1
  refine ⟨?_, ?_, ?_, ?_⟩
  · rw [← List.flatMap_def, List.flatMap_congr hitems, pack_fresh]
  · rw [List.forall_mem_map]
    exact fun w hw => hitems w hw ▸ hfresh w hw
  · rw [List.forall_mem_map]
    intro w hw
    rcases pack_span_le pieces w hw with hfits | ⟨piece, -, hone⟩
    · exact .inr (by rwa [length_join])
    · exact .inl ⟨piece, by rw [hone, hkept w hw, List.nil_append]⟩
  · rw [List.isChain_map]
    refine List.IsChain.imp_of_mem_imp ?_ (pack_isChain pieces)
    rintro v w hv hw ⟨-, piece, rest, hnext, hlong⟩
    refine ⟨piece, rest, by rw [hitems w hw, hnext], ?_⟩
    rw [List.length_append, List.length_append, Int.natCast_add, Int.natCast_add, length_join,
      Int.add_assoc]
    exact hlong

/-- `_merge_splits` without an overlap joins the groups of a greedy partition. -/
theorem mergeSplits_greedy (s : Settings) (separator : Text) (pieces : List Text)
    (hpieces : ∀ piece ∈ pieces, piece ≠ []) :
    ∃ groups, mergeSplits s pieces separator 0 = groups.map (join separator) ∧
      GreedyPartition s separator pieces groups := by
  refine ⟨_, ?_, greedyPartition_pack hpieces⟩
  rw [mergeSplits_eq_pack, List.map_map]
  rfl

/-- Three pieces of three characters, two of which fit. -/
theorem mergeSplits_greedy_sample :
    ∃ groups, mergeSplits { chunkSize := 8 } ["abc".toList, "def".toList, "ghi".toList] [' '] 0 =
        groups.map (join [' ']) ∧
      GreedyPartition { chunkSize := 8 } [' '] ["abc".toList, "def".toList, "ghi".toList] groups :=
  mergeSplits_greedy { chunkSize := 8 } [' '] _ (by decide)

end LocalRag
