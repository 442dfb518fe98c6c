-- SUMMARY: What the chunkers do to a text: every non-whitespace character is kept once, in order, up to overlaps with the chunk before.
import LocalRag.Base.Packing
import LocalRag.Ingest.Chunkers

/-!
# Coverage

A chunk is read as a piece: characters repeated from the chunk before, then its
own. `Covers` says that the own characters of a list of pieces are, whitespace
aside, the text. The recursive splitter guarantees more than that about its
overlaps: a chunk that repeats something does not fit into one chunk with its
predecessor. So the packing pass that follows never joins the two, and
nothing is packed twice.
-/

namespace LocalRag

open PyText PyPath Packing

/-! ## Pieces -/

structure Piece where
  repeated : Text
  own : Text

def Piece.text (p : Piece) : Text := p.repeated ++ p.own

/-- What a piece repeats is the end of its predecessor, within the overlap. -/
def Overlaps (s : Settings) (p q : Piece) : Prop :=
  q.repeated <:+ p.text ∧ (q.repeated.length : ℤ) ≤ s.chunkOverlap

/-- Moreover, a piece that repeats anything is too large for one chunk with its predecessor. -/
def Separate (s : Settings) (p q : Piece) : Prop :=
  Overlaps s p q ∧ (q.repeated = [] ∨ s.chunkSize < p.text.length + q.text.length)

/-- The pieces, each linked to the one before, cover the text. -/
structure Covers (link : Piece → Piece → Prop) (ps : List Piece) (t : Text) : Prop where
  head : ∀ p ∈ ps.head?, p.repeated = []
  links : ps.IsChain link
  nw_own : (ps.map fun p => nw p.own).flatten = nw t

/-- The chunks can be read as pieces that cover the text. -/
def Covered (link : Piece → Piece → Prop) (cs : List Text) (t : Text) : Prop :=
  ∃ ps, ps.map Piece.text = cs ∧ Covers link ps t

variable {s : Settings} {link : Piece → Piece → Prop} {cs ds : List Text} {t u : Text}

theorem Covered.congr (h : Covered link cs t) (htu : nw t = nw u) : Covered link cs u := by
  obtain ⟨ps, hps, hcov⟩ := h
  exact ⟨ps, hps, hcov.head, hcov.links, hcov.nw_own.trans htu⟩

theorem Covered.mono {link' : Piece → Piece → Prop} (h : Covered link cs t)
    (himp : ∀ p q, link p q → link' p q) : Covered link' cs t := by
  obtain ⟨ps, hps, hcov⟩ := h
  exact ⟨ps, hps, hcov.head, hcov.links.imp himp, hcov.nw_own⟩

/-- A piece that repeats nothing may follow any other. -/
theorem separate_of_repeated_nil (hover : 0 ≤ s.chunkOverlap) {p q : Piece}
    (h : q.repeated = []) : Separate s p q := by
  refine ⟨⟨?_, ?_⟩, .inl h⟩
  · rw [h]; exact List.nil_suffix
  · rw [h]; simpa using hover

theorem covered_nil (h : nw t = []) : Covered (Separate s) [] t :=
  ⟨[], rfl, by simp, List.isChain_nil, by simp [h]⟩

theorem covered_singleton {c : Text} (h : nw c = nw t) : Covered (Separate s) [c] t :=
  ⟨[⟨[], c⟩], by simp [Piece.text], by simp, List.isChain_singleton _, by simp [h]⟩

/-- Chunks of neighbouring texts are chunks of the whole. -/
theorem Covered.append (hover : 0 ≤ s.chunkOverlap) {v : Text}
    (ht : Covered (Separate s) cs t) (hu : Covered (Separate s) ds u)
    (hv : nw v = nw t ++ nw u) : Covered (Separate s) (cs ++ ds) v := by
  obtain ⟨ps, rfl, hps⟩ := ht
  obtain ⟨qs, rfl, hqs⟩ := hu
  refine ⟨ps ++ qs, by simp, ?_, ?_, ?_⟩
  · intro p hp
    rw [List.head?_append] at hp
    cases hhead : ps.head? with
    | none => rw [hhead] at hp; exact hqs.head p hp
    | some q =>
      rw [hhead] at hp
      cases hp
      exact hps.head p hhead
  · rw [List.isChain_append]
    exact ⟨hps.links, hqs.links, fun p _ q hq => separate_of_repeated_nil hover (hqs.head q hq)⟩
  · rw [List.map_append, List.flatten_append, hps.nw_own, hqs.nw_own, hv]

theorem covered_flatMap (hover : 0 ≤ s.chunkOverlap) {f : Text → List Text} {l : List Text}
    (hf : ∀ t ∈ l, Covered (Separate s) (f t) t) (hu : nw u = (l.map nw).flatten) :
    Covered (Separate s) (l.flatMap f) u := by
  induction l generalizing u with
  | nil => exact covered_nil (by simpa using hu)
  | cons t l ih =>
    rw [List.flatMap_cons]
    refine (hf t (by simp)).append hover (ih (u := l.flatten) (fun t' ht' => hf t' (by simp [ht']))
      (nw_flatten l)) ?_
    rw [hu, nw_flatten]
    simp

/-! ## The merging loop is a packing -/

/-- The length of a text, as the merging loop counts it. -/
def len (t : Text) : ℤ := t.length

theorem len_nonneg (t : Text) : 0 ≤ len t := Int.natCast_nonneg _

theorem length_join (sep : Text) (l : List Text) :
    ((join sep l).length : ℤ) = span len sep.length l := by
  induction l with
  | nil => rfl
  | cons t l ih =>
    by_cases h : l = []
    · subst h; simp [len]
    · rw [join_cons_of_ne_nil _ _ h, span_cons_of_ne_nil _ h, ← ih]
      simp [len]

theorem dropFront_eq (sepLen overlap : ℤ) (l : List Text) :
    dropFront sepLen overlap l (span len sepLen l) =
      (carry len sepLen overlap l, span len sepLen (carry len sepLen overlap l)) := by
  induction l with
  | nil => rfl
  | cons t l ih =>
    rw [dropFront, carry]
    split
    · next h =>
      have hrest : span len sepLen (t :: l) - (t.length + if l.isEmpty then 0 else sepLen) =
          span len sepLen l := by
        cases l with
        | nil => simp [len]
        | cons u l => rw [span_cons_of_ne_nil t (by simp)]; simp [len]
      simp only [hrest, ih]
    · rfl

/-- The state of the loop with a window under construction. -/
def Window.state (sepLen : ℤ) (chunks : List Text) (w : Window Text) : MergeState :=
  ⟨chunks, w.items, span len sepLen w.items⟩

theorem span_snoc (sepLen : ℤ) (l : List Text) (t : Text) :
    span len sepLen (l ++ [t]) =
      span len sepLen l + (len t + if l = [] then 0 else sepLen) := by
  by_cases h : l = []
  · simp [h]
  · rw [span_append l [t] h (by simp)]
    simp [h]
    omega

theorem mergeStep_state (s : Settings) (sep : Text) (overlap : ℤ) (chunks : List Text)
    {w : Window Text} (hw : w.items ≠ []) (t : Text) :
    mergeStep s sep overlap (Window.state sep.length chunks w) t =
      if s.chunkSize < span len sep.length w.items + (sep.length + len t) then
        Window.state sep.length (chunks ++ [join sep w.items])
          ⟨carry len sep.length overlap w.items, [t]⟩
      else Window.state sep.length chunks ⟨w.kept, w.fresh ++ [t]⟩ := by
  have hnonempty : w.items.isEmpty = false := by simpa using hw
  have hsep (l : List Text) : (if (l ++ [t]).length > 1 then (sep.length : ℤ) else 0) =
      if l = [] then 0 else (sep.length : ℤ) := by
    cases l <;> simp
  unfold mergeStep Window.state
  simp only [hnonempty, Bool.not_false, Bool.true_and, decide_eq_true_eq, if_false,
    Bool.false_eq_true]
  have hcond : span len sep.length w.items + (t.length + sep.length) > s.chunkSize ↔
      s.chunkSize < span len sep.length w.items + (sep.length + len t) := by
    unfold len; omega
  by_cases h : s.chunkSize < span len sep.length w.items + (sep.length + len t)
  · rw [if_pos (hcond.mpr h), if_pos h]
    simp only [dropFront_eq, Window.items, span_snoc, hsep]
    rfl
  · rw [if_neg (mt hcond.mp h), if_neg h]
    have hsnoc : w.kept ++ (w.fresh ++ [t]) = w.items ++ [t] := by simp [Window.items]
    rw [hsep w.items]
    simp only [Window.items, hsnoc, span_snoc]
    rfl

theorem foldl_mergeStep (s : Settings) (sep : Text) (overlap : ℤ) (l : List Text)
    (chunks : List Text) {w : Window Text} (hw : w.items ≠ []) :
    let st := l.foldl (mergeStep s sep overlap) (Window.state sep.length chunks w)
    st.current ≠ [] ∧ st.chunks ++ [join sep st.current] =
      chunks ++ (fill len sep.length s.chunkSize overlap w l).map fun w => join sep w.items := by
  induction l generalizing chunks w with
  | nil => exact ⟨hw, by simp [fill, Window.state]⟩
  | cons t l ih =>
    rw [List.foldl_cons, mergeStep_state s sep overlap chunks hw, fill]
    split
    · obtain ⟨hne, heq⟩ := ih (chunks ++ [join sep w.items])
        (w := ⟨carry len sep.length overlap w.items, [t]⟩) (by simp [Window.items])
      exact ⟨hne, by rw [heq]; simp⟩
    · exact ih chunks (w := ⟨w.kept, w.fresh ++ [t]⟩) (by simp [Window.items])

theorem mergeSplits_eq_pack (s : Settings) (splits : List Text) (sep : Text) (overlap : ℤ) :
    mergeSplits s splits sep overlap =
      (pack len sep.length s.chunkSize overlap splits).map fun w => join sep w.items := by
  cases splits with
  | nil => rfl
  | cons t l =>
    have hfirst : mergeStep s sep overlap ⟨[], [], 0⟩ t =
        Window.state sep.length [] ⟨[], [t]⟩ := by
      simp [mergeStep, Window.state, Window.items, len]
    obtain ⟨hne, heq⟩ := foldl_mergeStep s sep overlap l [] (w := ⟨[], [t]⟩) (by simp [Window.items])
    unfold mergeSplits
    rw [List.foldl_cons, hfirst]
    simp only [List.isEmpty_iff, hne, if_false, heq, List.nil_append, pack]

/-! ## Merging with overlap -/

variable {sep : Text}

theorem join_suffix (sep : Text) {l m : List Text} (h : l <:+ m) : join sep l <:+ join sep m := by
  obtain ⟨k, rfl⟩ := h
  by_cases hk : k = []
  · rw [hk]; exact List.suffix_rfl
  by_cases hl : l = []
  · rw [hl]; exact List.nil_suffix
  rw [join_append_of_ne_nil sep hk hl]
  exact List.suffix_append _ _

/-- A window as a piece: it repeats its kept parts. -/
def windowPiece (sep : Text) (w : Window Text) : Piece where
  repeated := join sep w.kept
  own := (if w.kept = [] then [] else sep) ++ join sep w.fresh

theorem windowPiece_text {w : Window Text} (hw : w.fresh ≠ []) :
    (windowPiece sep w).text = join sep w.items := by
  unfold windowPiece Piece.text Window.items
  by_cases hkept : w.kept = []
  · simp [hkept]
  · simp [hkept, join_append_of_ne_nil sep hkept hw]

theorem nw_windowPiece_own (hsep : nw sep = []) (w : Window Text) :
    nw (windowPiece sep w).own = (w.fresh.map nw).flatten := by
  unfold windowPiece
  rw [nw_append, nw_join hsep]
  split <;> simp [hsep]

theorem separate_of_follows (hover : 0 ≤ s.chunkOverlap) {v w : Window Text}
    (hv : v.fresh ≠ []) (hw : w.fresh ≠ [])
    (h : Window.Follows len sep.length s.chunkSize s.chunkOverlap v w) :
    Separate s (windowPiece sep v) (windowPiece sep w) := by
  obtain ⟨hkept, a, l, hfresh, hlarge⟩ := h
  unfold Separate Overlaps
  rw [windowPiece_text hv, windowPiece_text hw, length_join, length_join]
  refine ⟨⟨?_, ?_⟩, ?_⟩
  · simp only [windowPiece, hkept]
    exact join_suffix sep (carry_suffix _)
  · simp only [windowPiece, hkept, length_join]
    exact span_carry_le hover _
  · by_cases hnil : w.kept = []
    · exact .inl (by simp [windowPiece, hnil])
    · right
      have hitems : span len sep.length w.items =
          span len sep.length w.kept + (sep.length + span len sep.length (a :: l)) := by
        rw [Window.items, hfresh, span_append _ _ hnil (by simp)]
      have hkeptNonneg : 0 ≤ span len sep.length w.kept := span_nonneg len_nonneg (by omega) w.kept
      have ha : len a ≤ span len sep.length (a :: l) :=
        size_le_span len_nonneg (by omega) List.mem_cons_self
      omega

theorem covered_mergeSplits (hover : 0 ≤ s.chunkOverlap) (hsep : nw sep = []) {l : List Text}
    (ht : nw t = (l.map nw).flatten) :
    Covered (Separate s) (mergeSplits s l sep s.chunkOverlap) t := by
  have hfresh : ∀ w ∈ pack len sep.length s.chunkSize s.chunkOverlap l, w.fresh ≠ [] :=
    fun w hw => (pack_fits l w hw).1
  rw [mergeSplits_eq_pack]
  refine ⟨(pack len sep.length s.chunkSize s.chunkOverlap l).map (windowPiece sep), ?_, ?_, ?_, ?_⟩
  · rw [List.map_map]
    exact List.map_congr_left fun w hw => windowPiece_text (hfresh w hw)
  · intro p hp
    rw [List.head?_map, Option.mem_def, Option.map_eq_some_iff] at hp
    obtain ⟨w, hw, rfl⟩ := hp
    simp [windowPiece, pack_head_kept l w hw]
  · rw [List.isChain_map]
    exact (pack_isChain l).imp_of_mem_imp fun v w hv hw h =>
      separate_of_follows hover (hfresh v hv) (hfresh w hw) h
  · rw [ht, List.map_map]
    simp only [Function.comp_def, nw_windowPiece_own hsep]
    exact pack_flatMap nw l

/-! ## Recursive splitting -/

/-- The separators that are not empty are whitespace. -/
theorem nw_of_mem_separators : ∀ sep ∈ separators, nw sep = [] := by decide

theorem covered_splitParts (hover : 0 ≤ s.chunkOverlap) (hsep : nw sep = [])
    {recurse : Text → List Text} (hrec : ∀ part, Covered (Separate s) (recurse part) part)
    (parts good : List Text) (ht : nw t = ((good ++ parts).map nw).flatten) :
    Covered (Separate s) (splitParts s sep recurse parts good) t := by
  have hgood (good : List Text) : Covered (Separate s)
      (if good.isEmpty then [] else mergeSplits s good sep s.chunkOverlap) good.flatten := by
    split
    · next h => exact covered_nil (by simp [List.isEmpty_iff.mp h])
    · exact covered_mergeSplits hover hsep (nw_flatten good)
  induction parts generalizing good t with
  | nil =>
    rw [splitParts]
    exact (hgood good).congr (by rw [ht, nw_flatten, List.append_nil])
  | cons part parts ih =>
    rw [splitParts]
    split
    · have hrest := ih [] (t := parts.flatten) (nw_flatten parts)
      have htail := (hrec part).append hover hrest (v := (part :: parts).flatten) (by simp)
      refine (hgood good).append hover htail ?_
      rw [ht, ← nw_append, ← List.flatten_append, nw_flatten]
    · exact ih (good ++ [part]) (by rw [ht]; simp)

theorem nw_filter_ne_nil (l : List Text) :
    ((l.filter (· != [])).map nw).flatten = (l.map nw).flatten := by
  induction l with
  | nil => rfl
  | cons t l ih => cases t <;> simp_all

theorem covered_recursiveSplit (hover : 0 ≤ s.chunkOverlap) (seps : List Text)
    (hseps : ∀ sep ∈ seps, nw sep = []) (t : Text) :
    Covered (Separate s) (recursiveSplit s seps t) t := by
  induction seps generalizing t with
  | nil => exact covered_singleton rfl
  | cons sep remaining ih =>
    have ih := ih fun sep' h => hseps sep' (by simp [h])
    rw [recursiveSplit]
    split
    · refine covered_splitParts hover (hseps sep (by simp)) ?_ _ _ ?_
      · intro part
        split
        · exact covered_singleton rfl
        · exact ih part
      · rw [List.nil_append]
        split
        · rw [← nw_flatten]
          exact congrArg nw (List.flatMap_singleton' t).symm
        · next hne => rw [nw_filter_ne_nil, nw_split hne (hseps sep (by simp))]
    · exact ih t

theorem covered_chunkText (hover : 0 ≤ s.chunkOverlap) (t : Text) :
    Covered (Separate s) (chunkText s t) t := by
  unfold chunkText
  split
  · next h => exact covered_nil (strip_eq_nil_iff.mp h)
  · exact covered_recursiveSplit hover separators nw_of_mem_separators t

end LocalRag
