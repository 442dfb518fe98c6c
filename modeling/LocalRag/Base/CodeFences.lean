-- SUMMARY: CommonMark's fenced code blocks, for lines outside of other blocks: which lines open and close one.
import LocalRag.Base.PyText

/-!
# Fenced code blocks

A fence is at most three blanks, then at least three backticks or tildes, then the info
string. The info string of an opening fence of backticks has no backtick: otherwise the
line is text with inline code. A closing fence is at least as long as the opening one,
and only spaces and tabs follow it. A fence that is not closed stays open to the end.
-/

namespace CommonMark

open PyText

/-- The backtick. -/
def tick : Char := Char.ofNat 96

structure Fence where
  char : Char
  length : ℕ
  info : Text

namespace Fence

/-- The run of fence characters. -/
def marker (f : Fence) : Text := List.replicate f.length f.char

def opens (f : Fence) : Bool := f.char != tick || !f.info.contains tick

def closes (f opened : Fence) : Bool :=
  f.char == opened.char && opened.length ≤ f.length && f.info.all fun c => c == ' ' || c == '\t'

end Fence

/-- The line as a fence, if it looks like one. -/
def fenceLine (line : Text) : Option Fence :=
  let indent := (line.takeWhile (· == ' ')).length
  let rest := line.drop indent
  match rest.head? with
  | some c =>
    let length := (rest.takeWhile (· == c)).length
    if indent ≤ 3 ∧ (c = tick ∨ c = '~') ∧ 3 ≤ length then some ⟨c, length, rest.drop length⟩
    else none
  | none => none

/-- The fence that is open after a line. -/
def nextFence : Option Fence → Text → Option Fence
  | none, line => (fenceLine line).filter Fence.opens
  | some opened, line => if (fenceLine line).any (·.closes opened) then none else some opened

/-! ## Lines -/

variable {line : Text} {f : Fence}

theorem takeWhile_eq_replicate (c : Char) (t : Text) :
    t.takeWhile (· == c) = List.replicate (t.takeWhile (· == c)).length c := by
  refine List.eq_replicate_length.mpr fun d hd => ?_
  simpa using List.mem_takeWhile_imp hd

/-- The run of a character at the front, and the rest. -/
theorem replicate_append_drop (c : Char) (t : Text) :
    List.replicate (t.takeWhile (· == c)).length c ++ t.drop (t.takeWhile (· == c)).length = t := by
  have hfront : t.takeWhile (· == c) <+: t := List.takeWhile_prefix _
  rw [← takeWhile_eq_replicate]
  nth_rewrite 1 [List.prefix_iff_eq_take.mp hfront]
  exact List.take_append_drop _ t

/-- What a fence looks like. -/
theorem eq_of_fenceLine (h : fenceLine line = some f) : ∃ indent ≤ 3,
    line = List.replicate indent ' ' ++ (f.marker ++ f.info) ∧ 3 ≤ f.length ∧
    (f.char = tick ∨ f.char = '~') := by
  unfold fenceLine at h
  have hindent := replicate_append_drop ' ' line
  dsimp only at h
  generalize (line.takeWhile (· == ' ')).length = indent at h hindent
  split at h
  · next c _ =>
    split at h
    · next hfence =>
      obtain rfl := Option.some_inj.mp h
      refine ⟨indent, hfence.1, ?_, hfence.2.2, hfence.2.1⟩
      rw [Fence.marker, replicate_append_drop, hindent]
    · cases h
  · cases h

/-- A fence has characters that are no whitespace. -/
theorem nw_ne_nil_of_fenceLine (h : fenceLine line = some f) : nw line ≠ [] := by
  obtain ⟨indent, -, hline, hlength, hchar⟩ := eq_of_fenceLine h
  have hmem : f.char ∈ line := by
    rw [hline]
    refine List.mem_append_right _ (List.mem_append_left _ (List.mem_replicate.mpr ⟨?_, rfl⟩))
    omega
  have hspace : isspace f.char = false := by rcases hchar with hc | hc <;> rw [hc] <;> decide
  intro hnil
  rw [nw_eq_nil_iff.mp hnil _ hmem] at hspace
  cases hspace

end CommonMark
