-- SUMMARY: When the sections of a Markdown document begin at its headers outside of code: as long as no line is misread as a fence.
import LocalRag.Base.CodeFences
import LocalRag.Ingest.Chunkers
import Mathlib.Data.List.SplitBy

/-!
# Markdown sections

`_split_markdown_sections` keeps track of the open code fence line by line. It reads two
kinds of lines as fences that are none: text that begins with inline code between at
least three backticks is read as an opening fence, and a run followed by whitespace
other than spaces and tabs as a closing one. From then on it takes code for text, or text
for code, so that the next header is not treated as what it is.
-/

namespace LocalRag

open PyText CommonMark

/-! ## Sections -/

/-- The lines, each with whether it is a header outside of code. -/
def markHeaders : Option Fence → List Text → List (Bool × Text)
  | _, [] => []
  | fence, line :: rest => (fence.isNone && isHeader line, line) :: markHeaders (nextFence fence line) rest

/-- Cut before every marked line. -/
def cutAtMarks (marked : List (Bool × Text)) : List (List (Bool × Text)) :=
  marked.splitBy fun _ next => !next.1

def sectionText (sec : List (Bool × Text)) : Text := join ['\n'] (sec.map Prod.snd)

/-- The stripped texts that are not blank. -/
def nonBlank (sections : List Text) : List Text := (sections.map strip).filter (· != [])

/-- The sections that the headers outside of code begin. -/
def markdownSections (lines : List Text) : List Text :=
  nonBlank ((cutAtMarks (markHeaders none lines)).map sectionText)

/-- The text is cut into these sections. -/
def SectionsRight (text : Text) : Prop :=
  splitMarkdownSections text = markdownSections (splitlines false text)

/-- Wherever a header comes after some lines of the text, it is treated as what it is. -/
def HeadersRight (text : Text) : Prop :=
  ∀ n header, isHeader header = true → (∀ c ∈ header, lineBreak c = false) →
    SectionsRight (join ['\n'] ((splitlines false text).take n ++ [header]))

/-! ## Misread lines -/

/-- With this fence open, the line is taken for a fence that it is not: an opening fence with a
backtick in its info string, or a closing one followed by whitespace other than spaces and tabs. -/
def Misread (fence : Option Fence) (line : Text) : Prop :=
  ∃ f, fenceLine line = some f ∧
    match fence with
    | none => f.opens = false
    | some opened => f.char = opened.char ∧ opened.length ≤ f.length ∧ strip f.info = [] ∧
        f.closes opened = false

def NoneMisread : Option Fence → List Text → Prop
  | _, [] => True
  | fence, line :: rest => ¬ Misread fence line ∧ NoneMisread (nextFence fence line) rest

variable {line text : Text} {lines : List Text} {fence : Option Fence} {f : Fence}

/-! ## Fences -/

theorem fenceMatch_eq (line : Text) :
    fenceMatch line = (fenceLine line).map fun f => (f.marker, f.info) := by
  unfold fenceMatch fenceLine Fence.marker
  dsimp only
  generalize (line.takeWhile (· == ' ')).length = indent
  generalize line.drop indent = rest
  cases rest with
  | nil => simp
  | cons c rest =>
    simp only [List.head?_cons, Option.some_inj]
    by_cases hchar : c = tick ∨ c = '~'
    · -- the marker is the run of the first character, whichever of the two it is
      have hmarker : (if c = '~' then (c :: rest).takeWhile (· == '~')
          else (c :: rest).takeWhile (· == backtick)) = (c :: rest).takeWhile (· == c) := by
        rcases hchar with rfl | rfl
        · exact if_neg (by decide)
        · exact if_pos rfl
      have hrun := takeWhile_eq_replicate c (c :: rest)
      rw [hmarker]
      generalize (c :: rest).takeWhile (· == c) = run at hrun
      by_cases hfence : indent ≤ 3 ∧ 3 ≤ run.length
      · rw [if_pos hfence, if_pos ⟨hfence.1, hchar, hfence.2⟩, Option.map_some, ← hrun]
      · rw [if_neg hfence, if_neg fun h => hfence ⟨h.1, h.2.2⟩, Option.map_none]
    · obtain ⟨htick, htilde⟩ := not_or.mp hchar
      have hrun : (c :: rest).takeWhile (· == backtick) = [] :=
        List.takeWhile_cons_of_neg (by simpa [backtick, tick] using htick)
      rw [if_neg htilde, hrun]
      simp [hchar]

theorem fenceLine_of_isHeader (h : isHeader line = true) : fenceLine line = none := by
  cases line with
  | nil => rfl
  | cons c line =>
    by_cases hhash : c = '#'
    · subst hhash
      simp [fenceLine, tick]
    · simp [isHeader, hhash] at h
/-- What a line does to the fence that `_split_markdown_sections` has open. -/
def fenceStep (opened : Option Text) (line : Text) : Option Text :=
  match fenceMatch line, opened with
  | none, opened => opened
  | some (marker, _), none => some marker
  | some (marker, info), some opened =>
    if marker.head? = opened.head? ∧ marker.length ≥ opened.length ∧ strip info = [] then none
    else some opened

/-- The lines, each with whether `_split_markdown_sections` takes it for a header outside of code. -/
def markRead : Option Text → List Text → List (Bool × Text)
  | _, [] => []
  | opened, line :: rest => (opened.isNone && isHeader line, line) :: markRead (fenceStep opened line) rest

/-! ## The loop cuts at the headers that it sees -/

/-- The closed sections and the open one, after a line. -/
def cutStep (st : List Text × List Text) (m : Bool × Text) : List Text × List Text :=
  if m.1 = true ∧ st.2 ≠ [] then (st.1 ++ [join ['\n'] st.2], [m.2]) else (st.1, st.2 ++ [m.2])

def closed (st : List Text × List Text) : List Text :=
  if st.2 = [] then st.1 else st.1 ++ [join ['\n'] st.2]

theorem sectionStep_eq (st : SectionState) (line : Text) : sectionStep st line =
    let cut := cutStep (st.sections, st.current) (st.openFence.isNone && isHeader line, line)
    ⟨cut.1, cut.2, fenceStep st.openFence line⟩ := by
  obtain ⟨sections, current, opened⟩ := st
  cases hmatch : fenceMatch line with
  | none =>
    by_cases hcut : opened = none ∧ isHeader line = true ∧ current ≠ []
    · simp [sectionStep, cutStep, fenceStep, hmatch, hcut]
    · have hcut' : ¬ ((opened.isNone && isHeader line) = true ∧ current ≠ []) := by
        rintro ⟨hheader, hne⟩
        rw [Bool.and_eq_true, Option.isNone_iff_eq_none] at hheader
        exact hcut ⟨hheader.1, hheader.2, hne⟩
      simp only [sectionStep, cutStep, fenceStep, hmatch]
      rw [if_neg hcut, if_neg hcut']
  | some fence =>
    obtain ⟨marker, info⟩ := fence
    -- a line that is read as a fence is no header, so it never cuts
    have hheader : isHeader line = false := by
      refine Bool.eq_false_iff.mpr fun hheader => ?_
      rw [fenceMatch_eq, fenceLine_of_isHeader hheader] at hmatch
      cases hmatch
    cases opened with
    | none => simp [sectionStep, cutStep, fenceStep, hmatch, hheader]
    | some opened =>
      simp only [sectionStep, cutStep, fenceStep, hmatch, hheader]
      split <;> simp

theorem foldl_sectionStep (lines : List Text) (st : SectionState) :
    let cut := (markRead st.openFence lines).foldl cutStep (st.sections, st.current)
    (lines.foldl sectionStep st).sections = cut.1 ∧ (lines.foldl sectionStep st).current = cut.2 := by
  induction lines generalizing st with
  | nil => exact ⟨rfl, rfl⟩
  | cons line lines ih =>
    rw [List.foldl_cons, sectionStep_eq]
    exact ih _

theorem splitMarkdownSections_eq (text : Text) : splitMarkdownSections text =
    nonBlank (closed ((markRead none (splitlines false text)).foldl cutStep ([], []))) := by
  obtain ⟨hsections, hcurrent⟩ := foldl_sectionStep (splitlines false text) ⟨[], [], none⟩
  rw [splitMarkdownSections, hsections, hcurrent]
  rfl

/-- What has been cut so far: the closed sections are those of the lines `done`, and the open one has
the lines `cur`, of which at most the first is marked. -/
structure CutsAt (st : List Text × List Text) (done cur : List (Bool × Text)) : Prop where
  closed : st.1 = (cutAtMarks done).map sectionText
  open_ : st.2 = cur.map Prod.snd
  first : cur = [] → done = []
  begins : done ≠ [] → ∀ m ∈ cur.head?, m.1 = true
  unmarked : ∀ m ∈ cur.tail, m.1 = false

variable {st : List Text × List Text} {done cur marked : List (Bool × Text)}

theorem isChain_of_unmarked {m : Bool × Text} (h : ∀ x ∈ marked, x.1 = false) :
    (m :: marked).IsChain fun _ next => (!next.1) = true := by
  induction marked generalizing m with
  | nil => exact List.isChain_singleton _
  | cons x marked ih =>
    refine List.isChain_cons_cons.mpr ⟨by simp [h x], ih fun y hy => h y (List.mem_cons_of_mem _ hy)⟩

/-- Closing the open section. -/
theorem CutsAt.cutAtMarks_append (h : CutsAt st done cur) (hne : cur ≠ []) :
    cutAtMarks (done ++ cur) = cutAtMarks done ++ [cur] := by
  obtain ⟨m, rest, rfl⟩ := List.exists_cons_of_ne_nil hne
  unfold cutAtMarks
  rw [List.splitBy_append_cons, List.splitBy_of_isChain hne (isChain_of_unmarked h.unmarked)]
  intro x hx
  have hmarked := h.begins (List.ne_nil_of_mem (List.mem_of_getLast? hx)) m rfl
  simp [hmarked]

theorem CutsAt.cutStep (h : CutsAt st done cur) (m : Bool × Text) : ∃ done' cur',
    done' ++ cur' = done ++ cur ++ [m] ∧ CutsAt (cutStep st m) done' cur' := by
  unfold LocalRag.cutStep
  split
  · next hcut =>
    -- the header closes the section before it
    have hne : cur ≠ [] := by
      rintro rfl
      exact hcut.2 h.open_
    refine ⟨done ++ cur, [m], rfl, ?_, rfl, by simp, fun _ => by simp [hcut.1], by simp⟩
    simp [h.cutAtMarks_append hne, h.closed, h.open_, sectionText]
  · next hkeep =>
    refine ⟨done, cur ++ [m], (List.append_assoc _ _ _).symm, h.closed, by simp [h.open_], by simp, ?_, ?_⟩
    · intro hdone x hx
      have hne : cur ≠ [] := fun hnil => hdone (h.first hnil)
      rw [List.head?_append_of_ne_nil _ hne] at hx
      exact h.begins hdone x hx
    · intro x hx
      cases cur with
      | nil => cases hx
      | cons c cur =>
        rcases List.mem_append.mp hx with hx | hx
        · exact h.unmarked x hx
        · rw [List.mem_singleton.mp hx]
          have hopen : st.2 ≠ [] := by simp [h.open_]
          exact Bool.eq_false_iff.mpr fun hm => hkeep ⟨hm, hopen⟩

theorem CutsAt.closed_eq (h : CutsAt st done cur) :
    LocalRag.closed st = (cutAtMarks (done ++ cur)).map sectionText := by
  unfold LocalRag.closed
  by_cases hnil : cur = []
  · subst hnil
    have hopen : st.2 = [] := h.open_
    rw [if_pos hopen, h.closed, List.append_nil]
  · have hopen : st.2 ≠ [] := by simpa [h.open_] using hnil
    rw [if_neg hopen, h.cutAtMarks_append hnil, h.closed, h.open_]
    simp [sectionText]

theorem closed_foldl (marked : List (Bool × Text)) :
    closed (marked.foldl cutStep ([], [])) = (cutAtMarks marked).map sectionText := by
  have hall : ∀ done cur st, CutsAt st done cur → ∃ done' cur', done' ++ cur' = done ++ cur ++ marked ∧
      CutsAt (marked.foldl cutStep st) done' cur' := by
    induction marked with
    | nil => exact fun done cur st h => ⟨done, cur, (List.append_nil _).symm, h⟩
    | cons m marked ih =>
      intro done cur st h
      obtain ⟨done', cur', hsame, h'⟩ := h.cutStep m
      obtain ⟨done'', cur'', hsame', h''⟩ := ih done' cur' _ h'
      refine ⟨done'', cur'', ?_, h''⟩
      rw [hsame', hsame, List.append_assoc, List.singleton_append]
  obtain ⟨done, cur, hsame, h⟩ := hall [] [] ([], []) ⟨rfl, rfl, fun _ => rfl, by simp, by simp⟩
  rw [h.closed_eq, hsame]
  rfl

/-! ## Reading the fences right -/

theorem length_marker : f.marker.length = f.length := List.length_replicate

theorem head?_marker (hf : 3 ≤ f.length) : f.marker.head? = some f.char := by
  obtain ⟨n, hn⟩ : ∃ n, f.length = n + 1 := ⟨f.length - 1, by omega⟩
  rw [Fence.marker, hn]
  rfl

/-- What the code asks of a line that may close a fence. -/
def ClosesRead (f opened : Fence) : Prop :=
  f.char = opened.char ∧ opened.length ≤ f.length ∧ strip f.info = []

theorem fenceStep_none (hline : fenceLine line = none) (opened : Option Text) :
    fenceStep opened line = opened := by
  simp [fenceStep, fenceMatch_eq, hline]

theorem fenceStep_opening (hline : fenceLine line = some f) : fenceStep none line = some f.marker := by
  simp [fenceStep, fenceMatch_eq, hline]

theorem fenceStep_some {opened : Fence} (hopened : 3 ≤ opened.length) (hline : fenceLine line = some f) :
    fenceStep (some opened.marker) line =
      if f.char = opened.char ∧ opened.length ≤ f.length ∧ strip f.info = [] then none
      else some opened.marker := by
  obtain ⟨-, -, -, hlength, -⟩ := eq_of_fenceLine hline
  simp only [fenceStep, fenceMatch_eq, hline, Option.map_some, head?_marker hopened, head?_marker hlength,
    Option.some_inj, length_marker, ge_iff_le]

/-- Spaces and tabs are whitespace. -/
theorem closesRead_of_closes {opened : Fence} (h : f.closes opened = true) : ClosesRead f opened := by
  simp only [Fence.closes, Bool.and_eq_true, beq_iff_eq, decide_eq_true_eq, List.all_eq_true,
    Bool.or_eq_true] at h
  obtain ⟨⟨hchar, hlength⟩, hinfo⟩ := h
  refine ⟨hchar, hlength, strip_eq_nil_iff.mpr (nw_eq_nil_iff.mpr fun c hc => ?_)⟩
  rcases hinfo c hc with rfl | rfl <;> decide

theorem nextFence_length (hfence : ∀ f ∈ fence, 3 ≤ f.length) : ∀ f ∈ nextFence fence line, 3 ≤ f.length := by
  intro f hf
  cases fence with
  | none =>
    obtain ⟨hline, -⟩ := Option.filter_eq_some_iff.mp hf
    obtain ⟨-, -, -, hlength, -⟩ := eq_of_fenceLine hline
    exact hlength
  | some opened =>
    rw [nextFence] at hf
    split at hf
    · cases hf
    · exact hfence f hf

/-- A line that is not misread does to the code's fence what it does to the fence. -/
theorem fenceStep_eq (hfence : ∀ f ∈ fence, 3 ≤ f.length) (hread : ¬ Misread fence line) :
    fenceStep (fence.map Fence.marker) line = (nextFence fence line).map Fence.marker := by
  cases hline : fenceLine line with
  | none =>
    rw [fenceStep_none hline]
    cases fence <;> simp [nextFence, hline]
  | some f =>
    cases fence with
    | none =>
      have hopens : f.opens = true := by
        by_contra hopens
        exact hread ⟨f, hline, Bool.eq_false_iff.mpr hopens⟩
      rw [Option.map_none, fenceStep_opening hline, nextFence, hline, Option.filter_some, if_pos hopens]
      rfl
    | some opened =>
      have hcloses : ClosesRead f opened ↔ f.closes opened = true := by
        refine ⟨fun h => ?_, closesRead_of_closes⟩
        by_contra hopen
        exact hread ⟨f, hline, h.1, h.2.1, h.2.2, Bool.eq_false_iff.mpr hopen⟩
      -- the code compares first characters, which a marker of three or more has
      rw [Option.map_some, fenceStep_some (hfence opened rfl) hline, nextFence, hline, Option.any_some]
      by_cases h : f.closes opened = true
      · rw [if_pos h, Option.map_none]
        exact if_pos (hcloses.mpr h)
      · rw [if_neg h, Option.map_some]
        exact if_neg (mt hcloses.mp h)

theorem markRead_eq (hfence : ∀ f ∈ fence, 3 ≤ f.length) (hread : NoneMisread fence lines) :
    markRead (fence.map Fence.marker) lines = markHeaders fence lines := by
  induction lines generalizing fence with
  | nil => rfl
  | cons line lines ih =>
    rw [markRead, markHeaders, fenceStep_eq hfence hread.1, ih (nextFence_length hfence) hread.2,
      Option.isNone_map]

theorem sectionsRight_of_noneMisread (h : NoneMisread none (splitlines false text)) : SectionsRight text := by
  have hfence : ∀ f ∈ (none : Option Fence), 3 ≤ f.length := by simp
  have hmarks : markRead none (splitlines false text) = markHeaders none (splitlines false text) :=
    markRead_eq hfence h
  rw [SectionsRight, splitMarkdownSections_eq, hmarks, closed_foldl]
  rfl

/-! ## A misread line -/

theorem exists_misread (h : ¬ NoneMisread fence lines) : ∃ pre line post, lines = pre ++ line :: post ∧
    NoneMisread fence pre ∧ Misread (pre.foldl nextFence fence) line := by
  induction lines generalizing fence with
  | nil => exact absurd trivial h
  | cons line lines ih =>
    by_cases hmisread : Misread fence line
    · exact ⟨[], line, lines, rfl, trivial, hmisread⟩
    · obtain ⟨pre, line', post, rfl, hpre, hline'⟩ := ih fun hrest => h ⟨hmisread, hrest⟩
      exact ⟨line :: pre, line', post, rfl, ⟨hmisread, hpre⟩, hline'⟩

/-- After a misread line the code has a fence open where there is none, or the other way round. -/
theorem isNone_fenceStep_of_misread (hfence : ∀ f ∈ fence, 3 ≤ f.length) (h : Misread fence line) :
    (fenceStep (fence.map Fence.marker) line).isNone = !(nextFence fence line).isNone := by
  obtain ⟨f, hline, hf⟩ := h
  cases fence with
  | none =>
    have hopens : ¬ f.opens = true := Bool.eq_false_iff.mp hf
    rw [Option.map_none, fenceStep_opening hline, nextFence, hline, Option.filter_some, if_neg hopens]
    rfl
  | some opened =>
    obtain ⟨hchar, hlength, hinfo, hcloses⟩ := hf
    have hstep : fenceStep (some opened.marker) line = none :=
      (fenceStep_some (hfence opened rfl) hline).trans (if_pos ⟨hchar, hlength, hinfo⟩)
    rw [Option.map_some, hstep, nextFence, hline, Option.any_some, if_neg (Bool.eq_false_iff.mp hcloses)]
    rfl

theorem markHeaders_append (fence : Option Fence) (pre rest : List Text) : markHeaders fence (pre ++ rest) =
    markHeaders fence pre ++ markHeaders (pre.foldl nextFence fence) rest := by
  induction pre generalizing fence with
  | nil => rfl
  | cons line pre ih => simp [markHeaders, ih]

theorem markRead_append (opened : Option Text) (pre rest : List Text) : markRead opened (pre ++ rest) =
    markRead opened pre ++ markRead (pre.foldl fenceStep opened) rest := by
  induction pre generalizing opened with
  | nil => rfl
  | cons line pre ih => simp [markRead, ih]

theorem foldl_fenceStep (hfence : ∀ f ∈ fence, 3 ≤ f.length) (h : NoneMisread fence lines) :
    lines.foldl fenceStep (fence.map Fence.marker) = (lines.foldl nextFence fence).map Fence.marker ∧
      ∀ f ∈ lines.foldl nextFence fence, 3 ≤ f.length := by
  induction lines generalizing fence with
  | nil => exact ⟨rfl, hfence⟩
  | cons line lines ih =>
    rw [List.foldl_cons, List.foldl_cons, fenceStep_eq hfence h.1]
    exact ih (nextFence_length hfence) h.2

/-! ### One cut more or less -/

theorem length_nonBlank_snoc {t : Text} (ht : nw t ≠ []) (l : List Text) :
    (nonBlank (l ++ [t])).length = (nonBlank l).length + 1 := by
  have hstrip : strip t ≠ [] := mt strip_eq_nil_iff.mp ht
  simp [nonBlank, List.filter_append, hstrip]

theorem nw_join_ne_nil {l : List Text} (hmem : line ∈ l) (hline : nw line ≠ []) :
    nw (join ['\n'] l) ≠ [] := by
  rw [nw_join (by decide)]
  intro hnil
  exact hline (List.flatten_eq_nil_iff.mp hnil _ (List.mem_map_of_mem hmem))

/-- Cutting before the last line or not: the number of sections tells. -/
theorem nonBlank_cutStep_ne {header : Text} (hmem : line ∈ st.2) (hline : nw line ≠ [])
    (hheader : nw header ≠ []) (b : Bool) :
    nonBlank (closed (cutStep st (b, header))) ≠ nonBlank (closed (cutStep st (!b, header))) := by
  have hopen : st.2 ≠ [] := List.ne_nil_of_mem hmem
  have hcut : closed (cutStep st (true, header)) = st.1 ++ [join ['\n'] st.2] ++ [header] := by
    rw [cutStep, if_pos ⟨rfl, hopen⟩, closed, if_neg (List.cons_ne_nil _ _), join_singleton]
  have hkeep : closed (cutStep st (false, header)) = st.1 ++ [join ['\n'] (st.2 ++ [header])] := by
    rw [cutStep, if_neg fun h => Bool.false_ne_true h.1, closed, if_neg (List.append_ne_nil_of_left_ne_nil hopen _)]
  have hlengths : (nonBlank (closed (cutStep st (true, header)))).length =
      (nonBlank (closed (cutStep st (false, header)))).length + 1 := by
    rw [hcut, hkeep, length_nonBlank_snoc hheader, length_nonBlank_snoc (nw_join_ne_nil hmem hline),
      length_nonBlank_snoc (nw_join_ne_nil (List.mem_append_left _ hmem) hline)]
  intro heq
  have hlength := congrArg List.length heq
  cases b with
  | false =>
    rw [Bool.not_false] at hlength
    omega
  | true =>
    rw [Bool.not_true] at hlength
    omega

theorem mem_open_foldl (marked : List (Bool × Text)) (st : List Text × List Text) (m : Bool × Text) :
    m.2 ∈ ((marked ++ [m]).foldl cutStep st).2 := by
  rw [List.foldl_append, List.foldl_cons, List.foldl_nil, cutStep]
  split <;> simp

theorem markdownSections_eq (lines : List Text) :
    markdownSections lines = nonBlank (closed ((markHeaders none lines).foldl cutStep ([], []))) := by
  rw [closed_foldl, markdownSections]

/-- A header right after the first misread line is treated as what it is not. -/
theorem sections_ne_of_misread {pre : List Text} {header : Text} (hpre : NoneMisread none pre)
    (hline : Misread (pre.foldl nextFence none) line) (hheader : isHeader header = true)
    (hnw : nw header ≠ []) :
    nonBlank (closed ((markRead none (pre ++ [line, header])).foldl cutStep ([], []))) ≠
      markdownSections (pre ++ [line, header]) := by
  obtain ⟨f, hfence, -⟩ := id hline
  have hnone : ∀ f ∈ (none : Option Fence), 3 ≤ f.length := by simp
  obtain ⟨hopened, hlength⟩ := foldl_fenceStep hnone hpre
  have hmarks : markRead none pre = markHeaders none pre := markRead_eq hnone hpre
  have hno : isHeader line = false := by
    refine Bool.eq_false_iff.mpr fun hyes => ?_
    rw [fenceLine_of_isHeader hyes] at hfence
    cases hfence
  -- after the line the code takes the fence for open where it is closed, and the other way round
  have hflip := isNone_fenceStep_of_misread hlength hline
  rw [markdownSections_eq, markRead_append, markHeaders_append, hmarks]
  rw [Option.map_none] at hopened
  simp only [hopened, markRead, markHeaders, hno, hheader, Bool.and_false, Bool.and_true, hflip]
  generalize (nextFence (pre.foldl nextFence none) line).isNone = b
  have hlast : ∀ b, (markHeaders none pre ++ [(false, line), (b, header)]).foldl cutStep ([], []) =
      cutStep ((markHeaders none pre ++ [(false, line)]).foldl cutStep ([], [])) (b, header) :=
    fun b => by simp
  rw [hlast, hlast]
  exact (nonBlank_cutStep_ne (mem_open_foldl _ _ (false, line)) (nw_ne_nil_of_fenceLine hfence) hnw b).symm

/-- Wherever headers are treated as what they are, no line is misread. -/
theorem noneMisread_of_headersRight (h : HeadersRight text) : NoneMisread none (splitlines false text) := by
  by_contra hmisread
  obtain ⟨pre, line, post, hlines, hpre, hline⟩ := exists_misread hmisread
  -- Any header will do.
  obtain ⟨header, hheader, hbreak, hnw⟩ : ∃ header : Text, isHeader header = true ∧
      (∀ c ∈ header, lineBreak c = false) ∧ nw header ≠ [] :=
    ⟨['#', ' '], rfl, by simp [lineBreak], by simp [nw, isspace]⟩
  have hne : header ≠ [] := by
    rintro rfl
    exact hnw rfl
  have hplain : ∀ l ∈ pre ++ [line], ∀ c ∈ l, lineBreak c = false := by
    intro l hl
    apply lineBreak_of_mem_splitlines (t := text)
    rw [hlines, ← List.singleton_append, ← List.append_assoc]
    exact List.mem_append_left _ hl
  have hdoc : splitlines false (join ['\n'] (pre ++ [line] ++ [header])) = pre ++ [line] ++ [header] :=
    splitlines_join hplain hbreak hne
  have hright := h (pre.length + 1) header hheader hbreak
  have htake : (splitlines false text).take (pre.length + 1) = pre ++ [line] := by
    simp [hlines, List.take_append]
  rw [htake, SectionsRight, splitMarkdownSections_eq, hdoc, List.append_assoc] at hright
  exact sections_ne_of_misread hpre hline hheader hnw hright

/-! ## Documents -/

theorem noneMisread_take (h : NoneMisread fence lines) (n : ℕ) {header : Text}
    (hheader : isHeader header = true) : NoneMisread fence (lines.take n ++ [header]) := by
  have hlast : ∀ fence, NoneMisread fence [header] := by
    refine fun fence => ⟨?_, trivial⟩
    rintro ⟨f, hline, -⟩
    rw [fenceLine_of_isHeader hheader] at hline
    cases hline
  induction lines generalizing fence n with
  | nil => simpa using hlast fence
  | cons line lines ih =>
    cases n with
    | zero => exact hlast fence
    | succ n => exact ⟨h.1, ih h.2 n⟩

/-- If no line is misread, the sections begin exactly at the headers outside of code. No line is misread
exactly in the texts where a header would be treated as what it is wherever it came. -/
theorem splitMarkdownSections_right_iff (text : Text) :
    (NoneMisread none (splitlines false text) → SectionsRight text) ∧
      (HeadersRight text ↔ NoneMisread none (splitlines false text)) := by
  refine ⟨sectionsRight_of_noneMisread, noneMisread_of_headersRight, fun h n header hheader hplain => ?_⟩
  have hne : header ≠ [] := by
    rintro rfl
    cases hheader
  apply sectionsRight_of_noneMisread
  rw [splitlines_join (fun l hl => lineBreak_of_mem_splitlines (List.mem_of_mem_take hl)) hplain hne]
  exact noneMisread_take h n hheader

/-! ## Examples -/

/-- Inline code at the start of a line, then a header. -/
def inlineCodeText : Text :=
  List.replicate 3 tick ++ 'a' :: List.replicate 3 tick ++ "\n# b".toList

/-- The line with inline code is taken for an opening fence, and the header for code. -/
theorem splitMarkdownSections_swallows_header : ¬ ∀ text, SectionsRight text := by
  intro hright
  have hone : (splitMarkdownSections inlineCodeText).length = 1 := by decide +kernel
  have htwo : (markdownSections (splitlines false inlineCodeText)).length = 2 := by decide +kernel
  rw [hright inlineCodeText, htwo] at hone
  cases hone

end LocalRag
