-- SUMMARY: The physical lines that Python's parser counts, and exactly where str.splitlines counts the same ones.
import LocalRag.Base.PyText

/-!
# Physical lines

The parser ends a line at a newline, a carriage return, or both in this order.
`str.splitlines` ends one at eight other characters too. The two agree on the first
lines of a text as long as none of these others comes in them, except at the very
end of the text.
-/

namespace PyText

/-- The lines of a source text, with their ends. -/
def physicalLines : Text → List Text
  | [] => []
  | '\r' :: '\n' :: t => ['\r', '\n'] :: physicalLines t
  | c :: t =>
    if c = '\n' ∨ c = '\r' then [c] :: physicalLines t
    else
      match physicalLines t with
      | [] => [[c]]
      | line :: rest => (c :: line) :: rest

/-- A character that ends a line for `splitlines`, and none for the parser. -/
def strayBreak (c : Char) : Bool := lineBreak c && c != '\n' && c != '\r'

/-- The parser and `splitlines` count the same first `n` lines. -/
def SameLines (n : ℕ) (t : Text) : Prop := (splitlines true t).take n = (physicalLines t).take n

/-- A stray break in the first `n` lines is the end of the text. -/
def StraysLast (n : ℕ) (t : Text) : Prop :=
  ∀ u c v, t = u ++ c :: v → strayBreak c = true → v ≠ [] →
    ((physicalLines t).take n).flatten.length ≤ u.length

variable {m n : ℕ} {c : Char} {t : Text}

/-! ## The first character -/

theorem physicalLines_ne_nil (h : t ≠ []) : physicalLines t ≠ [] := by
  induction t using physicalLines.induct <;> simp_all [physicalLines]

theorem ne_nil_of_mem_physicalLines {line : Text} (h : line ∈ physicalLines t) : line ≠ [] := by
  induction t using physicalLines.induct generalizing line with
  | case1 => cases h
  | case2 t ih => grind [physicalLines]
  | case3 c t hcrlf hc ih => grind [physicalLines]
  | case4 c t hcrlf hc hnil ih => grind [physicalLines]
  | case5 c t hcrlf hc line' rest hlines ih => grind [physicalLines]

theorem splitlines_ne_nil (h : t ≠ []) : splitlines true t ≠ [] := by
  induction t using linesWithEnds.induct <;> simp_all [splitlines, linesWithEnds]

theorem splitlines_crlf :
    splitlines true ('\r' :: '\n' :: t) = ['\r', '\n'] :: splitlines true t := by
  simp [splitlines, linesWithEnds]

theorem splitlines_break (hcrlf : ∀ u, c = '\r' → t = '\n' :: u → False) (hc : lineBreak c = true) :
    splitlines true (c :: t) = [c] :: splitlines true t := by
  unfold splitlines
  rw [linesWithEnds]
  · simp [hc]
  · exact hcrlf

theorem straysLast_cons (hc : strayBreak c = false)
    (hlength : ((physicalLines (c :: t)).take m).flatten.length =
      ((physicalLines t).take n).flatten.length + 1) : StraysLast m (c :: t) ↔ StraysLast n t := by
  constructor
  · intro h u c' v ht hc' hv
    have hle := h (c :: u) c' v (by rw [ht, List.cons_append]) hc' hv
    rw [hlength, List.length_cons] at hle
    omega
  · intro h u c' v ht hc' hv
    cases u with
    | nil =>
      obtain ⟨rfl, -⟩ := List.cons.inj ht
      rw [hc] at hc'
      cases hc'
    | cons d u =>
      have hle := h u c' v (List.cons.inj ht).2 hc' hv
      rw [hlength, List.length_cons]
      omega

/-! ## Where the two agree -/

theorem sameLines_zero : SameLines 0 t := by
  rw [SameLines, List.take_zero, List.take_zero]

theorem straysLast_zero : StraysLast 0 t := fun u _ _ _ _ _ => by simp

/-- A line that both end at the same place. -/
theorem sameLines_succ_iff {line u : Text} (hsplit : splitlines true t = line :: splitlines true u)
    (hphysical : physicalLines t = line :: physicalLines u) : SameLines (n + 1) t ↔ SameLines n u := by
  rw [SameLines, SameLines, hsplit, hphysical, List.take_succ_cons, List.take_succ_cons, List.cons.injEq,
    and_iff_right rfl]

/-- `splitlines` counts the lines of the parser exactly where no stray break comes between them. -/
theorem sameLines_iff : SameLines n t ↔ StraysLast n t := by
  induction t using physicalLines.induct generalizing n with
  | case1 => simp [SameLines, StraysLast, splitlines, linesWithEnds, physicalLines]
  | case2 t ih =>
    -- `\r\n` is one break for both
    cases n with
    | zero => exact iff_of_true sameLines_zero straysLast_zero
    | succ n =>
      have hphysical : physicalLines ('\n' :: t) = ['\n'] :: physicalLines t := by simp [physicalLines]
      rw [sameLines_succ_iff splitlines_crlf (by simp [physicalLines]), ih,
        straysLast_cons (by decide) (n := n + 1), straysLast_cons (by decide) (n := n)]
      · simp [hphysical]
      · simp [hphysical, physicalLines]
  | case3 c t hcrlf hc ih =>
    have hbreak : lineBreak c = true := by rcases hc with rfl | rfl <;> decide
    cases n with
    | zero => exact iff_of_true sameLines_zero straysLast_zero
    | succ n =>
      have hphysical : physicalLines (c :: t) = [c] :: physicalLines t := by
        rw [physicalLines, if_pos hc]
        exact hcrlf
      rw [sameLines_succ_iff (splitlines_break hcrlf hbreak) hphysical, ih, straysLast_cons (n := n)]
      · rcases hc with rfl | rfl <;> decide
      · simp [hphysical]
  | case4 c t hcrlf hc hnil ih =>
    -- the last character of a text without a line break at its end
    obtain rfl : t = [] := by_contra fun hne => physicalLines_ne_nil hne hnil
    refine iff_of_true ?_ fun u c' v ht _ hv => ?_
    · have hsplit : splitlines true [c] = [[c]] := by
        cases hbreak : lineBreak c <;> simp [splitlines, linesWithEnds, hbreak]
      have hphysical : physicalLines [c] = [[c]] := by simp [physicalLines, hc]
      rw [SameLines, hsplit, hphysical]
    · cases u with
      | nil => exact absurd (List.cons.inj ht).2.symm hv
      | cons d u => simp at ht
  | case5 c t hcrlf hc line rest hlines ih =>
    have hphysical : physicalLines (c :: t) = (c :: line) :: rest := by
      rw [physicalLines, if_neg hc, hlines]
      exact hcrlf
    have hne : t ≠ [] := by
      rintro rfl
      cases hlines
    cases n with
    | zero => exact iff_of_true sameLines_zero straysLast_zero
    | succ n =>
    cases hbreak : lineBreak c with
    | true =>
      -- `splitlines` ends the line after this character, and the parser does not.
      have hline : line ≠ [] := ne_nil_of_mem_physicalLines (hlines ▸ List.mem_cons_self)
      have hstray : strayBreak c = true := by
        rw [not_or] at hc
        simp [strayBreak, hbreak, hc]
      refine iff_of_false (fun hsame => ?_) fun hlast => ?_
      · rw [SameLines, splitlines_break hcrlf hbreak, hphysical, List.take_succ_cons,
          List.take_succ_cons] at hsame
        exact hline (List.cons.inj (List.cons.inj hsame).1).2.symm
      · have hle := hlast [] c t rfl hstray hne
        simp [hphysical] at hle
    | false =>
      obtain ⟨l, ls, hsplit⟩ := List.exists_cons_of_ne_nil (splitlines_ne_nil hne)
      have hstray : strayBreak c = false := by simp [strayBreak, hbreak]
      rw [straysLast_cons hstray (n := n + 1), ← ih]
      · rw [SameLines, SameLines, splitlines_cons hbreak hsplit, hphysical, hsplit, hlines]
        simp
      · simp [hphysical, hlines]

end PyText
