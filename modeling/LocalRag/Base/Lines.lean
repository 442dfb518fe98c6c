-- SUMMARY: A stream cut into reads, and read line by line: the lines do not depend on the cuts.
import Mathlib.Data.List.Basic

/-!
# Lines of a stream

A reader keeps the text after the last separator and splits it again with the next
read. The library is over the elements of a stream, and any separator.
-/

namespace LocalRag.Lines

variable {α : Type} [BEq α] (sep : α)

/-- The complete lines of the reads, from the text that is held back. -/
def readLines : List α → List (List α) → List (List α)
  | _, [] => []
  | held, read :: reads =>
    let lines := (held ++ read).splitOn sep
    lines.dropLast ++ readLines (lines.getLastD []) reads

/-- Splitting goes on from the text after the last separator. -/
theorem splitOn_append (l m : List α) :
    (l ++ m).splitOn sep =
      (l.splitOn sep).dropLast ++ ((l.splitOn sep).getLastD [] ++ m).splitOn sep := by
  induction l with
  | nil => rfl
  | cons a l ih =>
    obtain ⟨first, rest, hsplit⟩ := List.exists_cons_of_ne_nil (List.splitOn_ne_nil sep l)
    rw [hsplit] at ih
    rw [List.cons_append, List.splitOn_cons_eq_if_modifyHead, List.splitOn_cons_eq_if_modifyHead, ih,
      hsplit]
    split
    · rfl
    · next ha =>
      cases rest with
      | nil =>
        have hmodify : ((a :: first) ++ m).splitOn sep =
            ((first ++ m).splitOn sep).modifyHead (List.cons a) := by
          rw [List.cons_append, List.splitOn_cons_eq_if_modifyHead, if_neg ha]
        exact hmodify.symm
      | cons _ _ => rfl

variable [LawfulBEq α]

theorem sep_notMem_splitOn {l line : List α} (hline : line ∈ l.splitOn sep) : sep ∉ line := by
  induction l generalizing line with
  | nil =>
    obtain rfl := List.mem_singleton.mp hline
    exact List.not_mem_nil
  | cons a l ih =>
    obtain ⟨first, rest, hsplit⟩ := List.exists_cons_of_ne_nil (List.splitOn_ne_nil sep l)
    rw [hsplit] at ih
    rw [List.splitOn_cons_eq_if_modifyHead, hsplit] at hline
    split at hline
    · rcases List.mem_cons.mp hline with rfl | hline
      · exact List.not_mem_nil
      · exact ih hline
    · next ha =>
      rcases List.mem_cons.mp hline with rfl | hline
      · have hfirst := ih (List.mem_cons_self ..)
        have hne : sep ≠ a := by
          rintro rfl
          exact ha (BEq.refl _)
        exact List.not_mem_cons_of_ne_of_not_mem hne hfirst
      · exact ih (List.mem_cons_of_mem _ hline)

theorem sep_notMem_getLastD (l : List α) : sep ∉ (l.splitOn sep).getLastD [] := by
  have hne := List.splitOn_ne_nil sep l
  rw [List.getLastD_eq_getLast?, List.getLast?_eq_some_getLast hne]
  exact sep_notMem_splitOn sep (List.getLast_mem hne)

/-- The lines of the reads are the lines of the stream. -/
theorem readLines_eq {held : List α} (hheld : sep ∉ held) (reads : List (List α)) :
    readLines sep held reads = ((held ++ reads.flatten).splitOn sep).dropLast := by
  induction reads generalizing held with
  | nil =>
    rw [List.flatten_nil, List.append_nil, List.splitOn_eq_singleton hheld]
    rfl
  | cons read reads ih =>
    unfold readLines
    dsimp only
    rw [ih (sep_notMem_getLastD sep _), List.flatten_cons, ← List.append_assoc,
      splitOn_append sep (held ++ read),
      List.dropLast_append_of_ne_nil (List.splitOn_ne_nil sep _)]

/-- Splitting gives back lines that end with the separator. -/
theorem splitOn_lines {lines : List (List α)} (hlines : ∀ line ∈ lines, sep ∉ line) :
    ((lines.map (· ++ [sep])).flatten).splitOn sep = lines ++ [[]] := by
  induction lines with
  | nil => rfl
  | cons line lines ih =>
    have hrest := ih fun l hl => hlines l (List.mem_cons_of_mem _ hl)
    rw [List.map_cons, List.flatten_cons, List.append_assoc, List.singleton_append,
      List.splitOn_append_cons_self_of_not_mem (hlines line (List.mem_cons_self ..)), hrest]
    rfl

/-- However the lines are cut, the reader yields them. -/
theorem readLines_lines {lines : List (List α)} (hlines : ∀ line ∈ lines, sep ∉ line)
    {reads : List (List α)} (hreads : reads.flatten = (lines.map (· ++ [sep])).flatten) :
    readLines sep [] reads = lines := by
  rw [readLines_eq sep List.not_mem_nil, List.nil_append, hreads, splitOn_lines sep hlines,
    List.dropLast_concat]

end LocalRag.Lines
