-- SUMMARY: Sliding windows over a log of times: which entries still count, and how dense an admitted log can be.
import Mathlib.Algebra.Order.Group.Defs
import Mathlib.Algebra.Order.Sub.Basic

/-!
# Sliding windows

A log is a list of times. An entry counts at a time `t` while it is younger than
the window. What has stopped counting never counts again, so a log may be pruned
at any time, as `recent_recent` says; and a log whose entries were admitted only
while fewer than `m` others counted is nowhere denser than `m` per window.
-/

namespace SlidingWindow

variable {T : Type} [AddCommGroup T] [LinearOrder T]

/-- The entries of a log that still count at time `t`. -/
def recent (w t : T) (log : List T) : List T := log.filter fun s => t - s < w

/-- Logs made by a limiter that admits an entry while fewer than `m` count. -/
inductive Limited (w : T) (m : ℤ) : List T → Prop where
  | nil : Limited w m []
  | snoc {log : List T} {t : T} : Limited w m log → (∀ s ∈ log, s ≤ t) →
      ((recent w t log).length : ℤ) < m → Limited w m (log ++ [t])

variable {w t u : T} {log log' : List T}

@[simp] theorem recent_nil : recent w t [] = [] := rfl

theorem recent_append : recent w t (log ++ log') = recent w t log ++ recent w t log' :=
  List.filter_append ..

theorem length_recent_replicate_le (n : ℕ) : (recent w t (List.replicate n u)).length ≤ n := by
  have hle : (recent w t (List.replicate n u)).length ≤ (List.replicate n u).length :=
    List.length_filter_le ..
  rwa [List.length_replicate] at hle

/-- As many entries as the limit, all at one time. -/
theorem limited_replicate {m : ℤ} {n : ℕ} (hn : (n : ℤ) ≤ m) : Limited w m (List.replicate n t) := by
  induction n with
  | zero => exact .nil
  | succ n ih =>
    have hlt : (n : ℤ) < m := by omega
    rw [List.replicate_succ']
    have hlen : (recent w t (List.replicate n t)).length ≤ n := length_recent_replicate_le n
    refine .snoc (ih hlt.le) (fun s hs => (List.eq_of_mem_replicate hs).le) (lt_of_le_of_lt ?_ hlt)
    exact_mod_cast hlen

variable [IsOrderedAddMonoid T]

/-- Pruning at an earlier time changes nothing. -/
theorem recent_recent (h : t ≤ u) : recent w u (recent w t log) = recent w u log := by
  unfold recent
  rw [List.filter_filter]
  congr 1
  funext s
  have hst : u - s < w → t - s < w := lt_of_le_of_lt (sub_le_sub_right h s)
  by_cases hu : u - s < w
  · simp [hu, hst hu]
  · simp [hu]

/-- Logs that agree on what counts now agree on what counts later. -/
theorem recent_eq_of_le (h : t ≤ u) (heq : recent w t log = recent w t log') :
    recent w u log = recent w u log' := by
  rw [← recent_recent h, heq, recent_recent h]

/-- An interval shorter than the window holds at most `m` entries. -/
theorem Limited.length_interval_le {m : ℤ} (h : Limited w m log) (hm : 0 < m) {a b : T}
    (hab : b - a < w) : ((log.filter fun s => a ≤ s ∧ s ≤ b).length : ℤ) ≤ m := by
  induction h with
  | nil => simpa using hm.le
  | @snoc log t hlog _ hroom ih =>
    rw [List.filter_append]
    by_cases ht : a ≤ t ∧ t ≤ b
    · have hsub : (log.filter fun s => a ≤ s ∧ s ≤ b).length ≤ (recent w t log).length := by
        rw [← List.countP_eq_length_filter, recent, ← List.countP_eq_length_filter]
        refine List.countP_mono_left fun s _ hs => ?_
        have hs : a ≤ s ∧ s ≤ b := of_decide_eq_true hs
        exact decide_eq_true ((sub_le_sub ht.2 hs.1).trans_lt hab)
      have hsnoc : ([t].filter fun s => a ≤ s ∧ s ≤ b) = [t] := by simp [ht]
      rw [hsnoc, List.length_append, List.length_singleton]
      omega
    · simpa [ht] using ih

end SlidingWindow
