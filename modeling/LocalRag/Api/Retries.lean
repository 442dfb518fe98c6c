-- SUMMARY: What `post_with_retry` makes of the answers to its requests, and how the wait for a generation slot ends.
import LocalRag.Api.OllamaClient
import Mathlib.Tactic.Linarith

/-!
# Retries

A request is made again after a 5xx response or a `RequestException`, as long as
retries are left. The wait for a generation slot polls: each poll that fails brings
the deadline nearer.
-/

namespace LocalRag.Rag

open PyText Effects

/-! ## Requests -/

/-- What a request has come across. -/
structure Posting where
  /-- The answers so far. -/
  answers : List (Except Exn Response)
  /-- The cancel event was read set. -/
  readSet : Bool

/-- The surroundings. Sleeping and reading the cancel event cannot raise; a request may be answered in
any way. -/
def answering : Answers RagIface Exn Posting := fun c s o s' =>
  match c, o with
  | .post _ _ _, answer =>
    let answer : Except Exn Response := answer
    s' = { s with answers := s.answers ++ [answer] }
  | .isCancelled, .ok (set : Bool) => s' = { s with readSet := s.readSet || set }
  | .isCancelled, .error _ | .sleep _, .error _ => False
  | _, _ => s' = s

/-- An answer after which the request is made again, if there are retries left. -/
def retryable : Except Exn Response → Bool
  | .ok r => 500 ≤ r.status
  | .error (.request _) => true
  | .error _ => false

/-- What the last answer makes of the request. -/
def verdict (path : Text) : Except Exn Response → Except Exn Response
  | .ok r => if isOk r.status then .ok r else .error (.failed path r.status)
  | .error (.request text) => .error (.failedAfterRetries path (some text))
  | .error e => .error e

theorem verdict_ok (path : Text) (r : Response) :
    verdict path (.ok r) = if isOk r.status then .ok r else .error (.failed path r.status) := rfl

/-- The request has ended: with the first answer that is not retryable, with the answer to the last
retry, or because the event was read set before a retry. -/
inductive Ended (cancel : Bool) (path : Text) (retries : ℕ) :
    Posting → Except Exn Response → Prop where
  | answered {before : List (Except Exn Response)} {last : Except Exn Response}
    (hbefore : ∀ answer ∈ before, retryable answer = true) (hlength : before.length ≤ retries)
    (hlast : retryable last = true → before.length = retries) :
    Ended cancel path retries ⟨before ++ [last], false⟩ (verdict path last)
  | cancelled {answers : List (Except Exn Response)} (hcancel : cancel = true)
    (hanswers : ∀ answer ∈ answers, retryable answer = true) (hlength : answers.length ≤ retries) :
    Ended cancel path retries ⟨answers, true⟩ (.error (.cancelled path))

/-- The answers of the rounds that were made, and the exception they carry. The event was not read
set. -/
structure Retrying (rounds left : ℕ) (lastExc : Option Text) (s : Posting) : Prop where
  earlier : ∀ answer ∈ s.answers, retryable answer = true
  length : s.answers.length + left = rounds
  /-- When no round is left, the last answer is the exception that is carried. -/
  last : left = 0 → ∃ before text, s.answers = before ++ [.error (.request text)] ∧ lastExc = some text
  clear : s.readSet = false

variable {settings : Settings} {cancel : Bool} {path : Text} {payload : Json} {timeout : ℚ}
  {retries left : ℕ} {lastExc : Option Text} {answers : List (Except Exn Response)} {s : Posting}
  {α : Type}

abbrev Answered (prog : RagProg α) (Q : Except Exn α → Posting → Prop) (s : Posting) : Prop :=
  wp answering (fun _ _ => True) prog Q s

theorem answered_isCancelled {Q : Except Exn Bool → Posting → Prop}
    (hset : cancel = true → Q (.ok true) { s with readSet := true }) (hclear : Q (.ok false) s) :
    Answered (isCancelled cancel) Q s := by
  cases cancel with
  | false => exact hclear
  | true =>
    refine wp_lift.mpr ⟨trivial, ?_⟩
    intro o s' ho
    cases o with
    | error e => exact ho.elim
    | ok set =>
      obtain rfl : s' = { s with readSet := s.readSet || set } := ho
      cases set with
      | true =>
        rw [Bool.or_true]
        exact hset rfl
      | false =>
        rw [Bool.or_false]
        exact hclear

/-- A pause before the next round. -/
theorem answered_sleep {seconds : ℚ} {carried : Option Text}
    {Q : Except Exn (Option Text ⊕ Response) → Posting → Prop} (hQ : Q (.ok (.inl carried)) s) :
    Answered (do
      let _ ← call (.sleep seconds)
      pure (.inl carried)) Q s := by
  refine wp_bind.mpr (wp_lift.mpr ⟨trivial, ?_⟩)
  intro o s' ho
  cases o with
  | error e => exact ho.elim
  | ok _ =>
    obtain rfl : s' = s := ho
    exact hQ

theorem ended_last {last : Except Exn Response}
    (hinv : Retrying (retries + 1) (left + 1) lastExc ⟨answers, false⟩)
    (hlast : retryable last = true → left = 0) :
    Ended cancel path retries ⟨answers ++ [last], false⟩ (verdict path last) := by
  have hall : answers.length + (left + 1) = retries + 1 := hinv.length
  have hlength : answers.length ≤ retries := by omega
  exact .answered hinv.earlier hlength fun h => by have := hlast h; omega

/-- The next round starts with one retry less. -/
theorem Retrying.next {last : Except Exn Response}
    (hinv : Retrying (retries + 1) (left + 1) lastExc ⟨answers, false⟩)
    (hlast : retryable last = true) {carried : Option Text}
    (hend : left = 0 → ∃ text, last = .error (.request text) ∧ carried = some text) :
    Retrying (retries + 1) left carried ⟨answers ++ [last], false⟩ := by
  refine ⟨fun answer hanswer => ?_, ?_, fun hleft => ?_, rfl⟩
  · rcases List.mem_append.mp hanswer with h | h
    · exact hinv.earlier answer h
    · rw [List.mem_singleton.mp h]
      exact hlast
  · have hlength : answers.length + (left + 1) = retries + 1 := hinv.length
    dsimp only
    rw [List.length_append, List.length_singleton]
    omega
  · obtain ⟨text, rfl, hcarried⟩ := hend hleft
    exact ⟨answers, text, rfl, hcarried⟩

theorem answered_postRound (hinv : Retrying (retries + 1) (left + 1) lastExc s) :
    Answered (postRound settings cancel path payload timeout left lastExc)
      (roundPost (Retrying (retries + 1) left) fun r s => Ended cancel path retries s r) s := by
  obtain ⟨answers, readSet⟩ := s
  obtain rfl : readSet = false := hinv.clear
  refine wp_bind.mpr (answered_isCancelled (fun hcancel => ?_) ?_)
  · have hall : answers.length + (left + 1) = retries + 1 := hinv.length
    have hlength : answers.length ≤ retries := by omega
    exact .cancelled hcancel hinv.earlier hlength
  refine wp_tryCatch.mpr (wp_bind.mpr (wp_lift.mpr ⟨trivial, ?_⟩))
  intro (o : Except Exn Response) s' ho
  obtain rfl : s' = ⟨answers ++ [o], false⟩ := ho
  cases o with
  | error e =>
    cases e with
    | request text =>
      have hnext : Retrying (retries + 1) left (some text) ⟨answers ++ [.error (.request text)], false⟩ :=
        hinv.next rfl fun _ => ⟨text, rfl, rfl⟩
      dsimp only [onOk]
      split
      · exact answered_sleep hnext
      · exact hnext
    | _ => exact ended_last hinv nofun
  | ok r =>
    dsimp only [onOk]
    split
    · next hretry =>
      have hlast : retryable (.ok r) = true := decide_eq_true hretry.1
      refine answered_sleep (hinv.next hlast fun hleft => ?_)
      have := hretry.2
      omega
    · next hretry =>
      have hlast : retryable (.ok r) = true → left = 0 := by
        intro hlast
        have hstatus : 500 ≤ r.status := of_decide_eq_true hlast
        by_contra hleft
        exact hretry ⟨hstatus, Nat.pos_of_ne_zero hleft⟩
      have hended : Ended cancel path retries ⟨answers ++ [.ok r], false⟩ (verdict path (.ok r)) :=
        ended_last hinv hlast
      rw [verdict_ok] at hended
      by_cases hok : isOk r.status = true
      · rw [if_pos hok] at hended ⊢
        exact hended
      · rw [if_neg hok] at hended ⊢
        exact hended

theorem answered_postWithRetry (hretries : (settings.ollamaMaxRetries + 1).toNat = retries + 1) :
    Answered (postWithRetry settings cancel path payload timeout)
      (fun r s => Ended cancel path retries s r) ⟨[], false⟩ := by
  unfold postWithRetry
  rw [hretries]
  refine wp_loop (Retrying (retries + 1)) (fun left lastExc s hinv => answered_postRound hinv)
    (fun lastExc s hinv => ?_) ⟨nofun, Nat.zero_add _, nofun, rfl⟩
  obtain ⟨answers, readSet⟩ := s
  obtain ⟨before, text, rfl, rfl⟩ := hinv.last rfl
  obtain rfl : readSet = false := hinv.clear
  have hlength : (before ++ [_]).length + 0 = retries + 1 := hinv.length
  rw [List.length_append, List.length_singleton] at hlength
  exact .answered (fun answer hanswer => hinv.earlier answer (List.mem_append_left _ hanswer)) (by omega)
    fun _ => by omega

/-- In every run, `post_with_retry` ends with its first answer that calls for no retry or with the
answer to the last of its retries, or it is cancelled before a retry: the event was read set then, and
in no other case. -/
theorem postWithRetry_ended (settings : Settings) (haccepted : settings.Accepted) (cancel : Bool)
    (path : Text)
    (payload : Json) (timeout : ℚ) (r : Except Exn Response) (s : Posting)
    (hrun : (postWithRetry settings cancel path payload timeout).Steps answering ⟨[], false⟩ (.ret r) s) :
    Ended cancel path settings.ollamaMaxRetries.toNat s r := by
  have hretries : (settings.ollamaMaxRetries + 1).toNat = settings.ollamaMaxRetries.toNat + 1 := by
    have := haccepted.ollamaMaxRetries_nonneg
    omega
  exact wp_steps_post (answered_postWithRetry hretries) hrun

/-- A response with status 503, then one with status 200. The event is read twice. -/
theorem postWithRetry_ended_sample :
    Ended true generatePath 2 ⟨[.ok ⟨503, none⟩, .ok ⟨200, none⟩], false⟩ (.ok ⟨200, none⟩) := by
  refine postWithRetry_ended {} defaults_accepted true generatePath .null 1 _ _ ?_
  refine .call (I := RagIface) (c := .isCancelled) (o := .ok false) rfl ?_
  refine .call (I := RagIface) (c := .post _ _ _) (o := .ok ⟨503, none⟩) rfl ?_
  refine .call (I := RagIface) (c := .sleep _) (o := .ok ()) rfl ?_
  refine .call (I := RagIface) (c := .isCancelled) (o := .ok false) rfl ?_
  exact .call (I := RagIface) (c := .post _ _ _) (o := .ok ⟨200, none⟩) rfl .refl

/-! ## Waiting for a slot -/

/-- What a wait has come across. -/
structure Polling where
  /-- The cancel event was read set. -/
  readSet : Bool
  /-- The last poll has got a slot. -/
  acquired : Bool
  /-- The polls that have ended since the event is set. -/
  late : ℕ

structure Surroundings where
  now : ℚ
  eventSet : Bool
  polling : Polling

/-- Time passes, and the cancel event may be set, but is never cleared. -/
structure Surroundings.Later (s s' : Surroundings) : Prop where
  now : s.now ≤ s'.now
  event : s.eventSet = true → s'.eventSet = true

theorem Surroundings.Later.trans {s s' s'' : Surroundings} (h : s.Later s') (h' : s'.Later s'') :
    s.Later s'' := ⟨h.now.trans h'.now, h'.event ∘ h.event⟩

/-- The surroundings. A poll that fails has taken its whole timeout; polling and reading the clock and
the event cannot raise. -/
def passing : Answers RagIface Exn Surroundings := fun c s o s' =>
  s.Later s' ∧ match c, o with
  | .monotonic, .ok (time : ℚ) => time = s'.now ∧ s'.polling = s.polling
  | .isCancelled, .ok (set : Bool) =>
    set = s'.eventSet ∧ s'.polling = { s.polling with readSet := s.polling.readSet || set }
  | .acquireSlot timeout, .ok (acquired : Bool) => (acquired = false → s.now + timeout ≤ s'.now) ∧
    s'.polling = { s.polling with acquired, late := s.polling.late + if s'.eventSet then 1 else 0 }
  | .monotonic, .error _ | .isCancelled, .error _ | .acquireSlot _, .error _ => False
  | _, _ => s'.polling = s.polling

/-- How a wait may end: its last poll has got a slot, or it has read the event set, or the timeout is
over and no poll has ended with the event set. -/
def WaitEnded (cancel : Bool) (start timeout : ℚ) (r : Except Exn Unit) (s : Surroundings) : Prop :=
  (r = .ok () ∧ s.polling.acquired = true ∧ s.polling.readSet = false) ∨
  (r = .error .cancelledWaiting ∧ cancel = true ∧ s.polling.acquired = false ∧
    s.polling.readSet = true) ∨
  (r = .error .timedOutWaiting ∧ s.polling.acquired = false ∧ s.polling.readSet = false ∧
    (cancel = true → s.polling.late = 0) ∧ start + timeout ≤ s.now)

/-- Nothing polls once a poll has ended with the event set, so that a cancellation is noticed within
one poll, and polls are short. -/
def PollsInTime (cancel : Bool) : Call → Surroundings → Prop
  | .acquireSlot timeout, s => (0 < timeout ∧ timeout ≤ generationSlotPollSeconds) ∧
      s.polling.acquired = false ∧ s.polling.readSet = false ∧ (cancel = true → s.polling.late = 0)
  | _, _ => True

/-- The polls so far have failed. Each took its share of the time, or the time is over. -/
structure Waiting (cancel : Bool) (polls : ℕ) (start timeout : ℚ) (left : ℕ) (_ : Unit)
    (s : Surroundings) : Prop where
  left_pos : 0 < left
  share : min (generationSlotPollSeconds * (polls - left)) timeout ≤ s.now - start
  acquired : s.polling.acquired = false
  readSet : s.polling.readSet = false
  /-- Only the last poll may have ended with the event set. -/
  late : s.eventSet = false → s.polling.late = 0

variable {polls : ℕ} {start now : ℚ} {s : Surroundings}

/-- A poll that fails was not the last. -/
theorem Waiting.next {read asked : ℚ}
    (hwaiting : Waiting cancel polls start timeout (left + 1) () s)
    (hpolls : timeout ≤ generationSlotPollSeconds * (polls - 1)) (hread : s.now ≤ read)
    (hremaining : ¬ timeout - (read - start) ≤ 0)
    (hasked : asked = min generationSlotPollSeconds (timeout - (read - start)))
    (hfailed : read + asked ≤ now) :
    0 < left ∧ min (generationSlotPollSeconds * (polls - left)) timeout ≤ now - start := by
  have hshare := hwaiting.share
  have hearlier : generationSlotPollSeconds * (polls - (left + 1)) < timeout := by
    rcases min_le_iff.mp hshare with h | h
    · push_cast at h
      linarith
    · linarith
  refine ⟨?_, ?_⟩
  · rcases Nat.eq_zero_or_pos left with rfl | hleft
    · push_cast at hearlier
      linarith
    · exact hleft
  · rcases min_choice generationSlotPollSeconds (timeout - (read - start)) with h | h
    · rw [h] at hasked
      refine min_le_iff.mpr ?_
      rcases min_le_iff.mp hshare with hs | hs
      · left
        push_cast at hs
        linarith
      · exact .inr (by linarith)
    · rw [h] at hasked
      exact min_le_iff.mpr (.inr (by linarith))

abbrev Waits (cancel : Bool) (prog : RagProg α) (Q : Except Exn α → Surroundings → Prop)
    (s : Surroundings) : Prop :=
  wp passing (PollsInTime cancel) prog Q s

/-- A wait with an event learns whether it is set. -/
theorem waits_isCancelled {Q : Except Exn Bool → Surroundings → Prop}
    (hset : cancel = true → ∀ s', s'.polling = { s.polling with readSet := true } → Q (.ok true) s')
    (hclear : ∀ s', s.Later s' → s'.polling = s.polling → (cancel = true → s.eventSet = false) →
      Q (.ok false) s') :
    Waits cancel (isCancelled cancel) Q s := by
  cases cancel with
  | false => exact hclear s ⟨le_rfl, id⟩ rfl nofun
  | true =>
    refine wp_lift.mpr ⟨trivial, fun o s' ho => ?_⟩
    obtain ⟨hlater, hanswer⟩ := ho
    cases o with
    | error e => exact hanswer.elim
    | ok set =>
      obtain ⟨hevent, hpolling⟩ := hanswer
      cases set with
      | true =>
        rw [Bool.or_true] at hpolling
        exact hset rfl s' hpolling
      | false =>
        rw [Bool.or_false] at hpolling
        refine hclear s' hlater hpolling fun _ => Bool.eq_false_iff.mpr fun hbefore => ?_
        rw [hlater.event hbefore] at hevent
        cases hevent

theorem waits_monotonic {Q : Except Exn ℚ → Surroundings → Prop}
    (hQ : ∀ s', s.Later s' → s'.polling = s.polling → Q (.ok s'.now) s') :
    Waits cancel (call .monotonic) Q s := by
  refine wp_lift.mpr ⟨trivial, fun o s' ho => ?_⟩
  obtain ⟨hlater, hanswer⟩ := ho
  cases o with
  | error e => exact hanswer.elim
  | ok time =>
    obtain ⟨rfl, hpolling⟩ := hanswer
    exact hQ s' hlater hpolling

theorem waits_slotRound {begun : ℚ} (hbegun : begun ≤ start)
    (hpolls : timeout ≤ generationSlotPollSeconds * (polls - 1))
    (hwaiting : Waiting cancel polls start timeout (left + 1) () s) :
    Waits cancel (slotRound cancel timeout start)
      (roundPost (Waiting cancel polls start timeout left) (WaitEnded cancel begun timeout)) s := by
  refine wp_bind.mpr (waits_isCancelled (fun hcancel s₁ hset => ?_) fun s₁ hlater hsame hclear => ?_)
  · -- The event is read set.
    refine .inr (.inl ⟨rfl, hcancel, ?_, ?_⟩)
    · rw [hset]
      exact hwaiting.acquired
    · rw [hset]
  refine wp_bind.mpr (waits_monotonic fun s₂ hlater₂ hsame₂ => ?_)
  have hread : s.Later s₂ := hlater.trans hlater₂
  have hopen : s₂.polling = s.polling := hsame₂.trans hsame
  have hearly : cancel = true → s₂.polling.late = 0 := fun hcancel => by
    rw [hopen]
    exact hwaiting.late (hclear hcancel)
  dsimp only [onOk]
  split
  · next hremaining =>
    exact .inr (.inr ⟨rfl, hopen ▸ hwaiting.acquired, hopen ▸ hwaiting.readSet, hearly, by linarith⟩)
  · next hremaining =>
    have hpoll : 0 < generationSlotPollSeconds := by norm_num [generationSlotPollSeconds]
    refine wp_bind.mpr (wp_lift.mpr ⟨⟨⟨lt_min hpoll (not_le.mp hremaining), min_le_left _ _⟩,
      hopen ▸ hwaiting.acquired, hopen ▸ hwaiting.readSet, hearly⟩, ?_⟩)
    rintro o s₃ ⟨hlater₃, hanswer⟩
    cases o with
    | error e => exact hanswer.elim
    | ok acquired =>
      obtain ⟨hfailed, hpolling⟩ := hanswer
      have hunread : s₃.polling.readSet = false := by
        rw [hpolling, hopen]
        exact hwaiting.readSet
      cases acquired with
      | true => exact .inl ⟨rfl, by rw [hpolling], hunread⟩
      | false =>
        obtain ⟨hleft, hshare⟩ := hwaiting.next hpolls hread.now hremaining rfl (hfailed rfl)
        refine ⟨hleft, hshare, by rw [hpolling], hunread, fun hevent => ?_⟩
        have hbefore : s.eventSet = false := Bool.eq_false_iff.mpr fun hset => by
          rw [(hread.trans hlater₃).event hset] at hevent
          cases hevent
        rw [hpolling, hopen, hevent]
        exact hwaiting.late hbefore

theorem waits_waitForSlot {begun : ℚ} (hpolls : timeout ≤ generationSlotPollSeconds * (polls - 1))
    (htimeout : 0 < timeout) (event : Bool) :
    Waits cancel (waitForSlot cancel timeout polls) (WaitEnded cancel begun timeout)
      ⟨begun, event, ⟨false, false, 0⟩⟩ := by
  have hpos : 0 < polls := by
    rcases Nat.eq_zero_or_pos polls with rfl | hpos
    · norm_num [generationSlotPollSeconds] at hpolls
      linarith
    · exact hpos
  refine wp_bind.mpr (waits_monotonic fun s hstart hsame => ?_)
  refine wp_loop (Waiting cancel polls s.now timeout)
    (fun left _ now hwaiting => waits_slotRound hstart.now hpolls hwaiting)
    (fun _ _ hwaiting => absurd hwaiting.left_pos (lt_irrefl 0)) ⟨hpos, ?_, ?_, ?_, ?_⟩
  · rw [sub_self, sub_self, mul_zero]
    exact min_le_left _ _
  · rw [hsame]
  · rw [hsame]
  · exact fun _ => by rw [hsame]

/-- With polls enough for the timeout, every wait that has ended has got its slot with its last poll, or
has read the event set, or has lasted for the whole timeout without a poll that ended with the event
set. All the while polls are short, and none
begins once a poll has ended with the event set. -/
theorem waitForSlot_ended (cancel : Bool) (timeout : ℚ) (htimeout : 0 < timeout) (polls : ℕ)
    (hpolls : timeout ≤ generationSlotPollSeconds * (polls - 1)) (begun : ℚ) (event : Bool) :
    (∀ r s, (waitForSlot cancel timeout polls).Steps passing ⟨begun, event, ⟨false, false, 0⟩⟩ (.ret r) s →
      WaitEnded cancel begun timeout r s) ∧
    ∀ asked k s, (waitForSlot cancel timeout polls).Steps passing ⟨begun, event, ⟨false, false, 0⟩⟩
        (.call (.acquireSlot asked) k) s →
      (0 < asked ∧ asked ≤ generationSlotPollSeconds) ∧ s.polling.acquired = false ∧
        s.polling.readSet = false ∧ (cancel = true → s.polling.late = 0) := by
  have hwaits : Waits cancel (waitForSlot cancel timeout polls) (WaitEnded cancel begun timeout)
      ⟨begun, event, ⟨false, false, 0⟩⟩ := waits_waitForSlot hpolls htimeout event
  exact ⟨fun r s hrun => wp_steps_post hwaits hrun, fun asked k s hrun => (wp_steps hwaits hrun).1⟩

/-- One poll fails, and the event is set meanwhile. -/
theorem waitForSlot_ended_sample :
    WaitEnded true 0 1 (.error .cancelledWaiting) ⟨1 / 10, true, ⟨true, false, 1⟩⟩ := by
  have hpolls : (1 : ℚ) ≤ generationSlotPollSeconds * ((11 : ℕ) - 1) := by norm_num [generationSlotPollSeconds]
  refine (waitForSlot_ended true 1 one_pos 11 hpolls 0 false).1 _ _ ?_
  refine .call (I := RagIface) (c := .monotonic) (o := .ok (0 : ℚ)) ⟨⟨le_rfl, nofun⟩, rfl, rfl⟩ ?_
  refine .call (I := RagIface) (c := .isCancelled) (o := .ok false) ⟨⟨le_rfl, nofun⟩, rfl, rfl⟩ ?_
  refine .call (I := RagIface) (c := .monotonic) (o := .ok (0 : ℚ)) ⟨⟨le_rfl, nofun⟩, rfl, rfl⟩ ?_
  have hremaining : ¬ (1 - (0 - 0) : ℚ) ≤ 0 := by norm_num
  change Prog.Steps passing (Prog.bind (if (1 - (0 - 0) : ℚ) ≤ 0 then _ else _) _) _ _ _
  rw [if_neg hremaining]
  have hfailed (asked : ℚ) (hasked : asked ≤ 1 / 10) : passing (.acquireSlot asked)
      ⟨0, false, ⟨false, false, 0⟩⟩ (.ok false) ⟨1 / 10, true, ⟨false, false, 1⟩⟩ :=
    ⟨⟨by norm_num, fun _ => rfl⟩, fun _ => (zero_add asked).trans_le hasked, rfl⟩
  refine .call (I := RagIface) (c := .acquireSlot _) (o := .ok false) (hfailed _ (min_le_left _ _)) ?_
  have hcancelled : passing .isCancelled ⟨1 / 10, true, ⟨false, false, 1⟩⟩ (.ok true)
      ⟨1 / 10, true, ⟨true, false, 1⟩⟩ := ⟨⟨le_rfl, fun _ => rfl⟩, rfl, rfl⟩
  exact .call (I := RagIface) (c := .isCancelled) (o := .ok true) hcancelled .refl

end LocalRag.Rag
