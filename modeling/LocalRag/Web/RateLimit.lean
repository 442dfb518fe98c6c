-- SUMMARY: The in-memory rate limiter (`web/rate_limit.py`) and that it is an exact sliding window.
import LocalRag.Base.PyText
import LocalRag.Base.SlidingWindow
import LocalRag.Settings
import Mathlib.Data.List.AList

/-! # Rate limiter -/

namespace LocalRag.RateLimit

open PyText SlidingWindow

/-- The bucket dictionary: for each IP the times of its requests. -/
abbrev Buckets := AList (fun _ : Text => List ℚ)

/-- `buckets.get(ip, [])`. -/
def bucket (buckets : Buckets) (ip : Text) : List ℚ := (buckets.lookup ip).getD []

/-- What `check_rate_limit` does under its lock, at the clock reading `now`. -/
def checkRateLimit (s : Settings) (maxRequests : ℤ) (buckets : Buckets) (ip : Text) (now : ℚ) :
    Bool × Buckets :=
  let active := (bucket buckets ip).filter fun t => now - t < s.rateWindowSeconds
  if (active.length : ℤ) ≥ maxRequests then (false, buckets.insert ip active)
  else (true, buckets.insert ip (active ++ [now]))

def checkLoginRateLimit (s : Settings) : Buckets → Text → ℚ → Bool × Buckets :=
  checkRateLimit s s.rateMaxLoginRequests

/-- One iteration of `_sweep_expired`, at the clock reading `now`. -/
def sweepExpired (s : Settings) (buckets : Buckets) (now : ℚ) : Buckets :=
  let dead := (buckets.entries.filter fun e =>
    !e.2.any fun t => now - t < s.rateWindowSeconds).map Sigma.fst
  dead.foldl (fun buckets ip => buckets.erase ip) buckets

/-! ## What one step does to a bucket -/

variable {s : Settings} {m : ℤ} {buckets : Buckets} {ip ip' : Text} {now : ℚ}

theorem bucket_insert_self {l : List ℚ} : bucket (buckets.insert ip l) ip = l := by
  simp [bucket]

theorem bucket_insert_of_ne {l : List ℚ} (h : ip' ≠ ip) :
    bucket (buckets.insert ip l) ip' = bucket buckets ip' := by
  simp [bucket, AList.lookup_insert_ne h]

/-- A call is admitted while fewer than the limit count. -/
theorem checkRateLimit_allowed :
    (checkRateLimit s m buckets ip now).1 = true ↔
      ((recent s.rateWindowSeconds now (bucket buckets ip)).length : ℤ) < m := by
  unfold checkRateLimit recent
  dsimp only
  split
  · next h => simpa using h
  · next h => simpa using h

/-- A call leaves what counts of the caller's bucket, and itself if it was admitted. -/
theorem checkRateLimit_bucket_self :
    bucket (checkRateLimit s m buckets ip now).2 ip =
      recent s.rateWindowSeconds now (bucket buckets ip) ++
        if (checkRateLimit s m buckets ip now).1 then [now] else [] := by
  unfold checkRateLimit recent
  dsimp only
  split <;> simp [bucket_insert_self]

theorem checkRateLimit_bucket_of_ne (h : ip' ≠ ip) :
    bucket (checkRateLimit s m buckets ip now).2 ip' = bucket buckets ip' := by
  unfold checkRateLimit
  dsimp only
  split <;> exact bucket_insert_of_ne h

theorem lookup_foldl_erase (l : List Text) :
    (l.foldl (fun buckets ip => buckets.erase ip) buckets).lookup ip =
      if ip ∈ l then none else buckets.lookup ip := by
  induction l generalizing buckets with
  | nil => simp
  | cons k l ih =>
    rw [List.foldl_cons, ih]
    by_cases hk : ip = k
    · subst hk; simp
    · simp [hk, AList.lookup_erase_ne hk]

/-- A sweep removes no entry that still counts. -/
theorem recent_sweepExpired :
    recent s.rateWindowSeconds now (bucket (sweepExpired s buckets now) ip) =
      recent s.rateWindowSeconds now (bucket buckets ip) := by
  unfold sweepExpired bucket
  dsimp only
  rw [lookup_foldl_erase]
  split
  · next hdead =>
    obtain ⟨⟨_, ts⟩, he, rfl⟩ := List.mem_map.mp hdead
    obtain ⟨hmem, hold⟩ := List.mem_filter.mp he
    have hlookup : buckets.lookup _ = some ts := AList.mem_lookup_iff.mpr hmem
    rw [hlookup]
    symm
    simpa [recent, List.filter_eq_nil_iff] using hold
  · rfl

/-! ## Runs -/

inductive Op where
  | check (ip : Text)
  | sweep

/-- An operation with the clock reading it takes. -/
structure Timed where
  time : ℚ
  op : Op

/-- A call of `check_rate_limit`, as it was answered. -/
structure Call where
  time : ℚ
  ip : Text
  allowed : Bool

/-- The dictionary, and the calls answered so far. -/
structure State where
  buckets : Buckets
  calls : List Call

def step (s : Settings) (m : ℤ) (st : State) (o : Timed) : State :=
  match o.op with
  | .check ip =>
    let (allowed, buckets) := checkRateLimit s m st.buckets ip o.time
    ⟨buckets, st.calls ++ [⟨o.time, ip, allowed⟩]⟩
  | .sweep => { st with buckets := sweepExpired s st.buckets o.time }

def run (s : Settings) (m : ℤ) (ops : List Timed) : State := ops.foldl (step s m) ⟨∅, []⟩

/-- The times of the admitted calls of an IP. -/
def admitted (ip : Text) (calls : List Call) : List ℚ :=
  (calls.filter fun c => c.ip = ip ∧ c.allowed).map Call.time

theorem run_append_singleton (ops : List Timed) (o : Timed) :
    run s m (ops ++ [o]) = step s m (run s m ops) o := by
  simp [run]

/-- What an operation adds to the admitted times of an IP. -/
theorem admitted_step (st : State) (o : Timed) :
    admitted ip (step s m st o).calls = admitted ip st.calls ++
      match o.op with
      | .check ip' =>
        if ip' = ip ∧ (checkRateLimit s m st.buckets ip' o.time).1 then [o.time] else []
      | .sweep => [] := by
  obtain ⟨time, op⟩ := o
  cases op with
  | check ip' =>
    simp only [step, admitted, List.filter_append, List.map_append, List.filter_cons,
      List.filter_nil, decide_eq_true_eq]
    split <;> rfl
  | sweep => simp [step]

/-- Admitted times are times of operations. -/
theorem admitted_run_le (ops : List Timed) {t : ℚ} (ht : ∀ o ∈ ops, o.time ≤ t) :
    ∀ a ∈ admitted ip (run s m ops).calls, a ≤ t := by
  induction ops using List.reverseRecOn with
  | nil => simp [run, admitted]
  | append_singleton ops o ih =>
    rw [run_append_singleton, admitted_step]
    intro a ha
    rcases List.mem_append.mp ha with ha | ha
    · exact ih (fun o ho => ht o (by simp [ho])) a ha
    · have hao : a = o.time := by
        split at ha
        · split at ha <;> simp_all
        · simp at ha
      exact hao ▸ ht o (by simp)

/-- One operation keeps the bucket and the admitted calls in agreement on what
counts from now on. -/
theorem recent_step (st : State) (o : Timed)
    (h : recent s.rateWindowSeconds o.time (bucket st.buckets ip) =
      recent s.rateWindowSeconds o.time (admitted ip st.calls)) :
    recent s.rateWindowSeconds o.time (bucket (step s m st o).buckets ip) =
      recent s.rateWindowSeconds o.time (admitted ip (step s m st o).calls) := by
  rw [admitted_step, recent_append, ← h]
  obtain ⟨time, op⟩ := o
  cases op with
  | sweep => simp [step, recent_sweepExpired]
  | check ip' =>
    by_cases hip : ip' = ip
    · subst hip
      simp only [step, checkRateLimit_bucket_self, recent_append, recent_recent le_rfl, true_and]
    · simp only [step, checkRateLimit_bucket_of_ne (Ne.symm hip), hip, false_and, if_false,
        recent_nil, List.append_nil]

/-- In every run the bucket of an IP and its admitted calls agree on what counts
from the last clock reading on. -/
theorem recent_run {ops : List Timed} (hsorted : ops.Pairwise fun o o' => o.time ≤ o'.time)
    {t : ℚ} (ht : ∀ o ∈ ops, o.time ≤ t) (s : Settings) (m : ℤ) (ip : Text) :
    recent s.rateWindowSeconds t (bucket (run s m ops).buckets ip) =
      recent s.rateWindowSeconds t (admitted ip (run s m ops).calls) := by
  induction ops using List.reverseRecOn generalizing t with
  | nil => simp [run, admitted, bucket]
  | append_singleton ops o ih =>
    rw [run_append_singleton]
    obtain ⟨hops, _, hlast⟩ := List.pairwise_append.mp hsorted
    have hbefore : ∀ o' ∈ ops, o'.time ≤ o.time := fun o' ho' => hlast o' ho' o (by simp)
    exact recent_eq_of_le (ht o (by simp)) (recent_step _ o (ih hops hbefore))

/-- The admitted times of an IP form a log that a sliding-window limiter makes. -/
theorem limited_run {ops : List Timed} (hsorted : ops.Pairwise fun o o' => o.time ≤ o'.time)
    (s : Settings) (m : ℤ) (ip : Text) :
    Limited s.rateWindowSeconds m (admitted ip (run s m ops).calls) := by
  induction ops using List.reverseRecOn with
  | nil => exact .nil
  | append_singleton ops o ih =>
    obtain ⟨hops, _, hlast⟩ := List.pairwise_append.mp hsorted
    have hbefore : ∀ o' ∈ ops, o'.time ≤ o.time := fun o' ho' => hlast o' ho' o (by simp)
    rw [run_append_singleton, admitted_step]
    split
    · split
      · next hallowed =>
        obtain ⟨rfl, hallowed⟩ := hallowed
        refine .snoc (ih hops) (admitted_run_le ops hbefore) ?_
        rw [checkRateLimit_allowed, recent_run hops hbefore] at hallowed
        exact hallowed
      · simpa using ih hops
    · simpa using ih hops

theorem pairwise_checks {log : List ℚ} (h : Limited s.rateWindowSeconds m log) (ip : Text) :
    (log.map fun t => (⟨t, .check ip⟩ : Timed)).Pairwise fun o o' => o.time ≤ o'.time := by
  induction h with
  | nil => simp
  | snoc _ hle _ ih =>
    rw [List.map_append, List.pairwise_append]
    exact ⟨ih, by simp, by simpa using hle⟩

theorem forall_checks_le {log : List ℚ} {t : ℚ} (h : ∀ a ∈ log, a ≤ t) (ip : Text) :
    ∀ o ∈ log.map fun a => (⟨a, .check ip⟩ : Timed), o.time ≤ t := by
  simpa using h

/-- Making only calls that were admitted, at the same times, admits all of them. -/
theorem admitted_replay {log : List ℚ} (h : Limited s.rateWindowSeconds m log) :
    admitted ip (run s m (log.map fun t => ⟨t, .check ip⟩)).calls = log := by
  induction h with
  | nil => rfl
  | @snoc log t hlog hle hroom ih =>
    have hrecent := recent_run (pairwise_checks hlog ip) (forall_checks_le hle ip) s m ip
    rw [ih] at hrecent
    rw [List.map_append, List.map_singleton, run_append_singleton, admitted_step, ih]
    simp [checkRateLimit_allowed, hrecent, hroom]

/-- The calls of one IP are not those of another. -/
theorem admitted_replay_of_ne (h : ip' ≠ ip) (log : List ℚ) :
    admitted ip' (run s m (log.map fun t => ⟨t, .check ip⟩)).calls = [] := by
  induction log using List.reverseRecOn with
  | nil => rfl
  | append_singleton log t ih =>
    rw [List.map_append, List.map_singleton, run_append_singleton, admitted_step, ih]
    simp [h.symm]

/-! ## The limiter is an exact sliding window -/

/-- At non-decreasing clock readings a call is admitted exactly when fewer than
the limit of the caller's admitted calls are younger than the window. Leaving out
the sweeps, the rejected calls and the other callers changes no decision, and an
interval shorter than the window holds no more admitted calls than the limit. -/
theorem checkRateLimit_exact_window (s : Settings) (m : ℤ) (hm : 0 < m) (ops : List Timed)
    (hsorted : ops.Pairwise fun o o' => o.time ≤ o'.time) (ip : Text) :
    (∀ pre t post, ops = pre ++ ⟨t, .check ip⟩ :: post →
      let earlier := admitted ip (run s m pre).calls
      let answer := (checkRateLimit s m (run s m pre).buckets ip t).1
      (answer = true ↔
        ((earlier.filter fun a => t - a < s.rateWindowSeconds).length : ℤ) < m) ∧
      answer = (checkRateLimit s m
        (run s m (earlier.map fun a => ⟨a, .check ip⟩)).buckets ip t).1) ∧
    ∀ a b, b - a < s.rateWindowSeconds →
      (((admitted ip (run s m ops).calls).filter fun t => a ≤ t ∧ t ≤ b).length : ℤ) ≤ m := by
  refine ⟨?_, fun a b hab => (limited_run hsorted s m ip).length_interval_le hm hab⟩
  rintro pre t post rfl
  obtain ⟨hpre, _, hcross⟩ := List.pairwise_append.mp hsorted
  have hbefore : ∀ o ∈ pre, o.time ≤ t := fun o ho => hcross o ho ⟨t, .check ip⟩ (by simp)
  have hlog := limited_run hpre s m ip
  have hexact := recent_run hpre hbefore s m ip
  have hreplay := recent_run (pairwise_checks hlog ip)
    (forall_checks_le (admitted_run_le pre hbefore) ip) s m ip
  rw [admitted_replay hlog] at hreplay
  refine ⟨?_, ?_⟩
  · rw [checkRateLimit_allowed, hexact]; rfl
  · rw [Bool.eq_iff_iff, checkRateLimit_allowed, checkRateLimit_allowed, hexact, hreplay]

/-- Two calls of one IP with a limit of two, a sweep, and a third call that comes
when the first call has just left the window of 60 seconds. -/
theorem checkRateLimit_exact_window_at_boundary :
    let pre : List Timed := [⟨0, .check ['a']⟩, ⟨1, .check ['a']⟩, ⟨2, .sweep⟩]
    admitted ['a'] (run {} 2 pre).calls = [0, 1] ∧
      (checkRateLimit {} 2 (run {} 2 pre).buckets ['a'] 60).1 = true :=
  ⟨by decide +kernel, ((checkRateLimit_exact_window {} 2 (by decide)
    [⟨0, .check ['a']⟩, ⟨1, .check ['a']⟩, ⟨2, .sweep⟩, ⟨60, .check ['a']⟩] (by decide) ['a']).1
      _ 60 [] rfl).1.mpr (by decide +kernel)⟩

end LocalRag.RateLimit
