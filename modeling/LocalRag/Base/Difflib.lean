-- SUMMARY: difflib's similarity of two sequences (`SequenceMatcher.ratio`) and `get_close_matches`.
import Mathlib.Data.List.Sort
import Mathlib.Data.Rat.Defs
import Mathlib.Algebra.Order.Ring.Rat

/-!
# Similar sequences

`ratio a b` is `SequenceMatcher(None, a, b).ratio()`: the longest common block is found,
then the longest ones to its left and to its right, and so on. An item is popular if it
makes up more than one percent of a second sequence of at least 200 items; a block is
found without popular items, and then extended by them.
-/

namespace Difflib

variable {α : Type} [DecidableEq α]

/-- How far two sequences agree, up to the first popular item. -/
def commonStart (popular : α → Bool) : List α → List α → ℕ
  | x :: a, y :: b => if x = y && !popular x then commonStart popular a b + 1 else 0
  | _, _ => 0

/-- `Match(a=i, b=j, size)` -/
structure Match where
  i : ℕ
  j : ℕ
  size : ℕ

/-- The longest block without popular items. Of several it is the one that starts earliest in `a`,
and of these the one that starts earliest in `b`. -/
def longestBlock (popular : α → Bool) (a b : List α) : Match :=
  (List.range a.length).foldl
    (fun best i =>
      (List.range b.length).foldl
        (fun best j =>
          let size := commonStart popular (a.drop i) (b.drop j)
          if best.size < size then ⟨i, j, size⟩ else best)
        best)
    ⟨0, 0, 0⟩

/-- `find_longest_match`: the block, extended at both ends. -/
def findLongestMatch (popular : α → Bool) (a b : List α) : Match :=
  let m := longestBlock popular a b
  let before := commonStart (fun _ => false) (a.take m.i).reverse (b.take m.j).reverse
  let after := commonStart (fun _ => false) (a.drop (m.i + m.size)) (b.drop (m.j + m.size))
  ⟨m.i - before, m.j - before, before + m.size + after⟩

/-- The number of items in matching blocks. -/
def matched (popular : α → Bool) : ℕ → List α → List α → ℕ
  | 0, _, _ => 0
  | fuel + 1, a, b =>
    let m := findLongestMatch popular a b
    if m.size = 0 then 0
    else
      matched popular fuel (a.take m.i) (b.take m.j) + m.size +
        matched popular fuel (a.drop (m.i + m.size)) (b.drop (m.j + m.size))

def popular (b : List α) (x : α) : Bool := 200 ≤ b.length && b.length / 100 + 1 < b.count x

def ratio (a b : List α) : ℚ :=
  if a.length + b.length = 0 then 1
  else 2 * matched (popular b) a.length a b / (a.length + b.length : ℕ)

/-- `get_close_matches(word, possibilities, n, cutoff)`: those with the highest ratios, and of equal
ratios the greater sequences. -/
def getCloseMatches [LT α] [DecidableLT α] (word : List α) (possibilities : List (List α)) (n : ℕ)
    (cutoff : ℚ) : List (List α) :=
  ((possibilities.filter fun x => cutoff ≤ ratio x word).insertionSort fun x y =>
    ratio y word < ratio x word ∨ ratio x word = ratio y word ∧ ¬x < y).take n

example : ratio "stop-plan".toList "stop_plan".toList = 16 / 18 := by decide +kernel
example : getCloseMatches "aple".toList ["ape".toList, "apple".toList, "pear".toList] 1 (3 / 4) =
    ["apple".toList] := by decide +kernel

/-! ## Enough fuel -/

variable {pop : α → Bool} {a b : List α}

theorem commonStart_le (pop : α → Bool) (a b : List α) : commonStart pop a b ≤ a.length := by
  fun_induction commonStart pop a b with
  | case1 x a y b h ih => exact Nat.succ_le_succ ih
  | case2 => exact Nat.zero_le _
  | case3 => exact Nat.zero_le _

/-- A block lies in `a`. -/
theorem longestBlock_le (pop : α → Bool) (a b : List α) :
    (longestBlock pop a b).i + (longestBlock pop a b).size ≤ a.length := by
  have hbest (i : ℕ) (hi : i < a.length) (js : List ℕ) (best : Match) (h : best.i + best.size ≤ a.length) :
      let m := js.foldl
        (fun best j =>
          let size := commonStart pop (a.drop i) (b.drop j)
          if best.size < size then ⟨i, j, size⟩ else best)
        best
      m.i + m.size ≤ a.length := by
    induction js generalizing best with
    | nil => exact h
    | cons j js ih =>
      refine ih _ ?_
      dsimp only
      split
      · have hlen := commonStart_le pop (a.drop i) (b.drop j)
        rw [List.length_drop] at hlen
        dsimp only
        omega
      · exact h
  unfold longestBlock
  have hrange : ∀ i ∈ List.range a.length, i < a.length := fun i => List.mem_range.mp
  generalize List.range a.length = is at hrange
  have hstart : (⟨0, 0, 0⟩ : Match).i + (⟨0, 0, 0⟩ : Match).size ≤ a.length := Nat.zero_le _
  generalize (⟨0, 0, 0⟩ : Match) = best at hstart
  induction is generalizing best with
  | nil => exact hstart
  | cons i is ih =>
    exact ih (fun i' hi' => hrange i' (List.mem_cons_of_mem i hi')) _ (hbest i (hrange i List.mem_cons_self) _ best hstart)

theorem findLongestMatch_le (pop : α → Bool) (a b : List α) :
    (findLongestMatch pop a b).i + (findLongestMatch pop a b).size ≤ a.length := by
  have hblock := longestBlock_le pop a b
  unfold findLongestMatch
  dsimp only
  generalize longestBlock pop a b = m at hblock
  have hbefore := commonStart_le (fun _ => false) (a.take m.i).reverse (b.take m.j).reverse
  have hafter := commonStart_le (fun _ => false) (a.drop (m.i + m.size)) (b.drop (m.j + m.size))
  rw [List.length_reverse, List.length_take] at hbefore
  rw [List.length_drop] at hafter
  omega

theorem matched_nil (pop : α → Bool) (n : ℕ) (b : List α) : matched pop n [] b = 0 := by
  cases n with
  | zero => rfl
  | succ n =>
    have hsize : (findLongestMatch pop [] b).size = 0 := by
      have hle := findLongestMatch_le pop [] b
      rw [List.length_nil] at hle
      omega
    rw [matched, if_pos hsize]

/-- Every block takes an item of `a`, so the length of `a` is enough fuel. -/
theorem matched_fuel {n m : ℕ} (hn : a.length ≤ n) (hm : a.length ≤ m) (b : List α) :
    matched pop n a b = matched pop m a b := by
  induction n generalizing m a b with
  | zero => rw [List.length_eq_zero_iff.mp (Nat.le_zero.mp hn), matched_nil, matched_nil]
  | succ n ih =>
    cases m with
    | zero => rw [List.length_eq_zero_iff.mp (Nat.le_zero.mp hm), matched_nil, matched_nil]
    | succ m =>
      have hle := findLongestMatch_le pop a b
      rw [matched, matched]
      by_cases hsize : (findLongestMatch pop a b).size = 0
      · rw [if_pos hsize, if_pos hsize]
      · generalize findLongestMatch pop a b = found at hle hsize ⊢
        have hleft : (a.take found.i).length < a.length := by
          rw [List.length_take]
          omega
        have hright : (a.drop (found.i + found.size)).length < a.length := by
          rw [List.length_drop]
          omega
        rw [if_neg hsize, if_neg hsize, ih (m := m) (by omega) (by omega), ih (m := m) (by omega) (by omega)]

/-! ## Close matches -/

theorem mem_of_mem_getCloseMatches [LT α] [DecidableLT α] {word x : List α} {possibilities : List (List α)}
    {n : ℕ} {cutoff : ℚ} (h : x ∈ getCloseMatches word possibilities n cutoff) :
    x ∈ possibilities ∧ cutoff ≤ ratio x word := by
  have hmem := (List.mem_insertionSort _).mp (List.mem_of_mem_take h)
  obtain ⟨hx, hratio⟩ := List.mem_filter.mp hmem
  exact ⟨hx, of_decide_eq_true hratio⟩

end Difflib
