-- SUMMARY: Rankings: first occurrences, ranks among distinct items, reciprocal rank fusion, and stable sorting by a score.
import Mathlib.Algebra.Order.Field.Rat
import Mathlib.Data.List.Sort
import Mathlib.Tactic.FieldSimp
import Mathlib.Tactic.GCongr
import Mathlib.Tactic.Linarith
import Mathlib.Tactic.Positivity

/-!
# Rankings

A ranking is a list, best first. An item counts where it occurs first, and its rank
is its place among the distinct items. Reciprocal rank fusion adds up `1 / (k + rank)`
over the rankings that have the item. With at most `k + 1` distinct items in each of
two rankings, an item that both have beats every item that only one of them has.
-/

namespace Ranking

variable {α β : Type} [DecidableEq β]

/-! ## First occurrences -/

/-- The items whose key has not come before. -/
def firsts (key : α → β) : List α → List α
  | [] => []
  | a :: l => a :: (firsts key l).filter fun b => key b ≠ key a

abbrev distinct (l : List β) : List β := firsts id l

variable {key : α → β} {l m : List α}

theorem mem_of_mem_firsts {a : α} (h : a ∈ firsts key l) : a ∈ l := by
  induction l with
  | nil => cases h
  | cons b l ih =>
    rcases List.mem_cons.mp h with rfl | h
    · exact List.mem_cons_self
    · exact List.mem_cons_of_mem b (ih (List.mem_of_mem_filter h))

theorem firsts_append : firsts key (l ++ m) =
    firsts key l ++ (firsts key m).filter fun b => key b ∉ l.map key := by
  induction l with
  | nil => simp [firsts]
  | cons a l ih =>
    rw [List.cons_append, firsts, ih, firsts, List.cons_append, List.filter_append, List.filter_filter]
    congr 2
    exact List.filter_congr fun b _ => by simp [not_or]

theorem firsts_append_old {a : α} (h : key a ∈ l.map key) : firsts key (l ++ [a]) = firsts key l := by
  rw [firsts_append]
  simpa [firsts] using h

theorem firsts_append_new {a : α} (h : key a ∉ l.map key) : firsts key (l ++ [a]) = firsts key l ++ [a] := by
  rw [firsts_append]
  congr 1
  simpa [firsts] using h

theorem mem_map_firsts {b : β} : b ∈ (firsts key l).map key ↔ b ∈ l.map key := by
  induction l with
  | nil => rfl
  | cons a l ih =>
    have hrest : b ∈ ((firsts key l).filter fun c => key c ≠ key a).map key ↔
        b ∈ l.map key ∧ b ≠ key a := by
      rw [← ih]
      constructor
      · intro hb
        obtain ⟨c, hc, rfl⟩ := List.mem_map.mp hb
        obtain ⟨hc, hne⟩ := List.mem_filter.mp hc
        exact ⟨List.mem_map_of_mem hc, of_decide_eq_true hne⟩
      · rintro ⟨hb, hne⟩
        obtain ⟨c, hc, rfl⟩ := List.mem_map.mp hb
        exact List.mem_map_of_mem (List.mem_filter.mpr ⟨hc, decide_eq_true hne⟩)
    rw [firsts, List.map_cons, List.mem_cons, hrest, List.map_cons, List.mem_cons]
    tauto

theorem mem_distinct {l : List β} {b : β} : b ∈ distinct l ↔ b ∈ l := by
  have h : b ∈ (distinct l).map id ↔ b ∈ l.map id := mem_map_firsts
  rwa [List.map_id, List.map_id] at h

theorem nodup_map_firsts : ((firsts key l).map key).Nodup := by
  induction l with
  | nil => exact List.nodup_nil
  | cons a l ih =>
    rw [firsts, List.map_cons, List.nodup_cons]
    constructor
    · intro ha
      obtain ⟨b, hb, hab⟩ := List.mem_map.mp ha
      exact of_decide_eq_true (List.mem_filter.mp hb).2 hab
    · exact ih.sublist (List.filter_sublist.map key)

/-- The distinct keys are the keys of the first occurrences. -/
theorem map_firsts : (firsts key l).map key = distinct (l.map key) := by
  induction l with
  | nil => rfl
  | cons a l ih =>
    rw [firsts, List.map_cons, List.map_cons, distinct, firsts]
    rw [distinct] at ih
    rw [← ih, List.filter_map]
    rfl

theorem nodup_firsts : (firsts key l).Nodup := nodup_map_firsts.of_map

/-- A dictionary of items by their keys. -/
theorem lookup_map_key {γ : Type} [BEq γ] [LawfulBEq γ] {key : α → γ} {a : α} (ha : a ∈ l)
    (hl : (l.map key).Nodup) : (l.map fun b => (key b, b)).lookup (key a) = some a := by
  induction l with
  | nil => cases ha
  | cons b l ih =>
    obtain ⟨hb, hl⟩ := List.nodup_cons.mp hl
    rw [List.map_cons, List.lookup_cons]
    rcases List.mem_cons.mp ha with rfl | ha
    · rw [beq_self_eq_true]
    · have hne : key a ≠ key b := fun h => hb (h ▸ List.mem_map_of_mem ha)
      rw [beq_eq_false_iff_ne.mpr hne]
      exact ih ha hl

/-! ## Ranks -/

variable {x y : β} {r s : List β}

/-- The number of distinct items up to and including the first occurrence. -/
def rank (r : List β) (x : β) : ℕ := (distinct (r.take (r.idxOf x + 1))).length

theorem rank_append_of_mem (h : x ∈ r) (s : List β) : rank (r ++ s) x = rank r x := by
  unfold rank
  rw [List.idxOf_append_of_mem h, List.take_append_of_le_length (List.idxOf_lt_length_of_mem h)]

theorem rank_append_singleton (h : x ∉ r) : rank (r ++ [x]) x = (distinct r).length + 1 := by
  have hwhole : (r ++ [x]).take ((r ++ [x]).idxOf x + 1) = r ++ [x] := by
    rw [List.idxOf_append_of_notMem h]
    simp
  rw [rank, hwhole, distinct, firsts_append_new (by simpa using h), List.length_append, List.length_singleton]

theorem length_distinct_append (r s : List β) : (distinct r).length ≤ (distinct (r ++ s)).length := by
  rw [distinct, distinct, firsts_append, List.length_append]
  exact Nat.le_add_right ..

theorem rank_le (r : List β) (x : β) : rank r x ≤ (distinct r).length := by
  have h := length_distinct_append (r.take (r.idxOf x + 1)) (r.drop (r.idxOf x + 1))
  rwa [List.take_append_drop] at h

theorem rank_pos (h : x ∈ r) : 0 < rank r x := by
  have hmem : r.take (r.idxOf x + 1) ≠ [] := by
    intro hnil
    rcases List.take_eq_nil_iff.mp hnil with h0 | rfl
    · cases h0
    · cases h
  obtain ⟨y, t, ht⟩ := List.exists_cons_of_ne_nil hmem
  rw [rank, ht]
  exact Nat.succ_pos _

/-! ## Reciprocal rank fusion -/

/-- What one ranking adds to the score of an item. -/
def share (k : ℕ) (r : List β) (x : β) : ℚ := if x ∈ r then 1 / (k + rank r x) else 0

def fusedScore (k : ℕ) (rankings : List (List β)) (x : β) : ℚ := (rankings.map fun r => share k r x).sum

variable {k n : ℕ}

/-- An item at the end of a ranking adds to its own score only, and only where it is new. -/
theorem share_append_old (h : y ≠ x ∨ x ∈ r) : share k (r ++ [x]) y = share k r y := by
  unfold share
  by_cases hy : y ∈ r
  · rw [if_pos (List.mem_append_left _ hy), if_pos hy, rank_append_of_mem hy]
  · have hxy : y ≠ x := h.elim id fun hx hyx => hy (hyx ▸ hx)
    rw [if_neg (by simp [hy, hxy]), if_neg hy]

theorem share_append_new (h : x ∉ r) : share k (r ++ [x]) x = 1 / (k + ((distinct r).length + 1)) := by
  rw [share, if_pos (by simp), rank_append_singleton h]
  push_cast
  rfl

theorem fusedScore_append (k : ℕ) (rankings : List (List β)) (r : List β) (x : β) :
    fusedScore k (rankings ++ [r]) x = fusedScore k rankings x + share k r x := by
  simp [fusedScore]

theorem fusedScore_eq_zero {rankings : List (List β)} (h : ∀ r ∈ rankings, x ∉ r) : fusedScore k rankings x = 0 := by
  have hzero : ∀ q ∈ rankings.map fun r => share k r x, q = 0 := by
    rw [List.forall_mem_map]
    exact fun r hr => if_neg (h r hr)
  exact List.sum_eq_zero hzero

theorem share_le (k : ℕ) (r : List β) (x : β) : share k r x ≤ 1 / (k + 1) := by
  unfold share
  split
  · next h =>
    have hrank : (1 : ℚ) ≤ rank r x := by exact_mod_cast rank_pos h
    gcongr
  · positivity

theorem le_share (hx : x ∈ r) (hr : (distinct r).length ≤ n) : 1 / (k + n) ≤ share k r x := by
  have hpos : (0 : ℚ) < rank r x := by exact_mod_cast rank_pos hx
  have hrank : (rank r x : ℚ) ≤ n := by exact_mod_cast (rank_le r x).trans hr
  rw [share, if_pos hx]
  gcongr

/-- Agreement wins: of two rankings with at most `k + 1` distinct items each, an item in both has a
higher score than one that is not. -/
theorem fusedScore_lt_of_mem_both (hr : (distinct r).length ≤ k + 1) (hs : (distinct s).length ≤ k + 1)
    (hxr : x ∈ r) (hxs : x ∈ s) (hy : y ∉ r ∨ y ∉ s) : fusedScore k [r, s] y < fusedScore k [r, s] x := by
  have hsum (z : β) : fusedScore k [r, s] z = share k r z + share k s z := by simp [fusedScore]
  have hlow : share k r y + share k s y ≤ 1 / (k + 1) := by
    rcases hy with hy | hy
    · have hzero : share k r y = 0 := if_neg hy
      linarith [share_le k s y]
    · have hzero : share k s y = 0 := if_neg hy
      linarith [share_le k r y]
  have hxr := le_share (k := k) hxr hr
  have hxs := le_share (k := k) hxs hs
  have hgap : (1 : ℚ) / (k + 1) < 1 / (k + (k + 1 : ℕ)) + 1 / (k + (k + 1 : ℕ)) := by
    push_cast
    rw [← add_div, div_lt_div_iff₀ (by positivity) (by positivity)]
    linarith
  rw [hsum, hsum]
  linarith

/-! ## Sorting by a score -/

/-- `sorted(l, key=score, reverse=True)`: ties keep their order. -/
def sortedDesc (score : α → ℚ) (l : List α) : List α := l.insertionSort fun a b => score b ≤ score a

variable {score : α → ℚ}

theorem sortedDesc_perm : (sortedDesc score l).Perm l := List.perm_insertionSort _ l

@[simp] theorem mem_sortedDesc {a : α} : a ∈ sortedDesc score l ↔ a ∈ l := sortedDesc_perm.mem_iff

@[simp] theorem length_sortedDesc : (sortedDesc score l).length = l.length := sortedDesc_perm.length_eq

theorem sortedDesc_pairwise : (sortedDesc score l).Pairwise fun a b => score b ≤ score a := by
  have htotal : Std.Total fun a b : α => score b ≤ score a := ⟨fun a b => le_total (score b) (score a)⟩
  have htrans : IsTrans α fun a b : α => score b ≤ score a := ⟨fun _ _ _ hab hbc => hbc.trans hab⟩
  exact List.pairwise_insertionSort _ l

/-- What a cut leaves out scores no higher than what it keeps. -/
theorem sortedDesc_take_best {a : α} (ha : a ∈ l) (n : ℕ) (hcut : a ∉ (sortedDesc score l).take n) :
    ∀ b ∈ (sortedDesc score l).take n, score a ≤ score b := by
  intro b hb
  have hparts : ((sortedDesc score l).take n ++ (sortedDesc score l).drop n).Pairwise fun a b => score b ≤ score a := by
    rw [List.take_append_drop]
    exact sortedDesc_pairwise
  have hmem : a ∈ (sortedDesc score l).take n ++ (sortedDesc score l).drop n := by
    rw [List.take_append_drop]
    exact mem_sortedDesc.mpr ha
  exact (List.pairwise_append.mp hparts).2.2 b hb a ((List.mem_append.mp hmem).resolve_left hcut)

/-- Two items of a list stand in it in one order or the other. -/
theorem pair_sublist_or {a b : α} (hne : a ≠ b) (ha : a ∈ l) (hb : b ∈ l) :
    [a, b].Sublist l ∨ [b, a].Sublist l := by
  obtain ⟨pre, post, rfl⟩ := List.append_of_mem ha
  rcases List.mem_append.mp hb with hb | hb
  · exact .inr ((List.singleton_sublist.mpr hb).append (List.singleton_sublist.mpr (by simp)))
  · have hb : b ∈ post := (List.mem_cons.mp hb).resolve_left hne.symm
    exact .inl (((List.singleton_sublist.mpr hb).cons_cons a).trans (List.sublist_append_right ..))

theorem pair_not_sublist {a b : α} (hl : l.Nodup) (h : [a, b].Sublist l) : ¬[b, a].Sublist l := by
  induction l with
  | nil => cases h
  | cons c l ih =>
    obtain ⟨hc, hl⟩ := List.nodup_cons.mp hl
    intro hba
    cases h with
    | cons _ h =>
      cases hba with
      | cons _ hba => exact ih hl h hba
      | cons_cons _ hba => exact hc (h.subset (by simp))
    | cons_cons _ h =>
      cases hba with
      | cons _ hba => exact hc (hba.subset (by simp))
      | cons_cons _ hba => exact hc (h.subset (by simp))

/-- The order is that of the scores, and among equal scores that of the list. -/
theorem sortedDesc_order (hl : l.Nodup) : (sortedDesc score l).Pairwise fun a b =>
    score b < score a ∨ score a = score b ∧ [a, b].Sublist l := by
  have hnodup : (sortedDesc score l).Nodup := sortedDesc_perm.nodup_iff.mpr hl
  rw [List.pairwise_iff_forall_sublist]
  intro a b hab
  have hle : score b ≤ score a := List.pairwise_iff_forall_sublist.mp sortedDesc_pairwise hab
  rcases lt_or_eq_of_le hle with hlt | heq
  · exact .inl hlt
  · refine .inr ⟨heq.symm, ?_⟩
    have hmem {c : α} (hc : c ∈ [a, b]) : c ∈ l := mem_sortedDesc.mp (hab.subset hc)
    have hne : a ≠ b := by
      rintro rfl
      exact absurd (hnodup.sublist hab) (by simp)
    -- The pair is in the list in one order or the other, and sorting keeps a pair of equals.
    rcases pair_sublist_or hne (hmem (by simp)) (hmem (by simp)) with h | h
    · exact h
    · have hba : [b, a].Sublist (sortedDesc score l) := List.pair_sublist_insertionSort heq.symm.le h
      exact absurd hba (pair_not_sublist hnodup hab)

end Ranking
