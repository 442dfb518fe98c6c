-- SUMMARY: A job whose cancel event is set soon stops: it begins no second retrieval, request, read or text.
import LocalRag.Api.GenerationSlots

/-!
# Cancellation

The event may be set at any moment, also between the check and the call that follows
it. A job looks at the event before every such call, so only the call after the last
check can still be made.
-/

namespace LocalRag.Rag

open PyText Effects

/-! ## What is begun after the event -/

/-- Whether the event is set, and how many calls of each kind were begun after that. -/
structure Begun where
  set : Bool := false
  retrievals : ℕ := 0
  requests : ℕ := 0
  reads : ℕ := 0
  said : ℕ := 0

def Begun.call (b : Begun) (c : Call) : Begun :=
  if b.set then
    match c with
    | .retrieveBest _ => { b with retrievals := b.retrievals + 1 }
    | .post _ _ _ | .openStream _ _ _ => { b with requests := b.requests + 1 }
    | .nextLine => { b with reads := b.reads + 1 }
    | .emit _ => { b with said := b.said + 1 }
    | _ => b
  else b

/-- Any answers, while the event may be set at any time. It is never cleared. -/
def cancelling : Answers RagIface Exn Begun := fun c b o b' =>
  ∃ set : Bool, (b.set = true → set = true) ∧ b' = { b.call c with set := set } ∧
    match c, o with
    | .isCancelled, .ok answer => (answer = true → set = true) ∧ (answer = false → b.set = false)
    | .isCancelled, .error _ => False
    | _, _ => True

/-- Nothing was begun after the event. -/
def Begun.Zero (b : Begun) : Prop := b.retrievals = 0 ∧ b.requests = 0 ∧ b.reads = 0 ∧ b.said = 0

/-- While the event is not set, nothing was begun after it. -/
def Begun.Sound (b : Begun) : Prop := b.set = false → b.Zero

/-- No call of its kind was begun after the event. -/
def NotAgain (c : Call) (b : Begun) : Prop :=
  b.set = true →
    match c with
    | .retrieveBest _ => b.retrievals = 0
    | .post _ _ _ | .openStream _ _ _ => b.requests = 0
    | .nextLine => b.reads = 0
    | .emit _ => b.said = 0
    | _ => True

variable {settings : Settings} {loads : Text → Option Json} {α β : Type} {b : Begun} {c : Call}

abbrev Stops (prog : RagProg α) (Q : Except Exn α → Begun → Prop) (b : Begun) : Prop :=
  wp cancelling NotAgain prog Q b

/-- Whatever a job does from a sound state, it begins nothing twice, and ends in a sound state. -/
abbrev Sounds (prog : RagProg α) : Prop := Preserves cancelling NotAgain Begun.Sound prog

/-- The same from a state in which nothing was begun after the event. -/
abbrev SoundsZero (prog : RagProg α) : Prop := ∀ b, b.Zero → Stops prog (fun _ => Begun.Sound) b

theorem sound_of_zero (h : b.Zero) : b.Sound := fun _ => h

theorem Begun.Sound.call {set : Bool} (h : b.Sound) (hset : b.set = true → set = true) (c : Call) :
    Begun.Sound { b.call c with set := set } := by
  intro hclear
  have hbefore : b.set = false := by
    cases hb : b.set with
    | false => rfl
    | true => exact absurd (hset hb) (by rw [show set = false from hclear]; nofun)
  unfold Begun.call
  rw [if_neg (by rw [hbefore]; nofun)]
  exact h hbefore

/-- The calls that are not counted. -/
def Call.uncounted : Call → Bool
  | .retrieveBest _ | .post _ _ _ | .openStream _ _ _ | .nextLine | .emit _ => false
  | _ => true

theorem call_uncounted (hc : c.uncounted = true) : b.call c = b := by
  unfold Begun.call
  split
  · cases c <;> first | rfl | cases hc
  · rfl

theorem notAgain_uncounted (hc : c.uncounted = true) : NotAgain c b := by
  intro _
  cases c <;> trivial

/-- A check: if the event was not set, nothing was begun after it. -/
theorem Sounds.check {f : Bool → RagProg α} (hset : Sounds (f true)) (hclear : SoundsZero (f false)) :
    Sounds (isCancelled true >>= f) := by
  intro b hsound
  refine wp_bind.mpr (wp_lift.mpr ⟨notAgain_uncounted rfl, ?_⟩)
  rintro o _ ⟨set, hmono, rfl, hanswer⟩
  cases o with
  | error e => exact hanswer.elim
  | ok answer =>
    cases answer with
    | true => exact hset _ (hsound.call hmono .isCancelled)
    | false =>
      rw [call_uncounted rfl]
      exact hclear _ (hsound (hanswer.2 rfl))

theorem SoundsZero.bind {prog : RagProg α} {f : α → RagProg β} (h : SoundsZero prog)
    (hf : ∀ a, Sounds (f a)) :
    SoundsZero (prog >>= f) := by
  refine fun b hzero => wp_bind.mpr (wp_mono (h b hzero) fun r b' hsound => ?_)
  cases r with
  | ok a => exact hf a b' hsound
  | error e => exact hsound

theorem Sounds.zero {prog : RagProg α} (h : Sounds prog) : SoundsZero prog :=
  fun b hzero => h b (sound_of_zero hzero)

theorem SoundsZero.tryCatch {prog : RagProg α} {f : Exn → RagProg α} (h : SoundsZero prog)
    (hf : ∀ e, Sounds (f e)) : SoundsZero (tryCatch prog f) := by
  refine fun b hzero => wp_tryCatch.mpr (wp_mono (h b hzero) fun r b' hsound => ?_)
  cases r with
  | ok a => exact hsound
  | error e => exact hf e b' hsound

theorem SoundsZero.finallyDo {prog : RagProg α} {last : RagProg Unit} (h : SoundsZero prog)
    (hlast : Sounds last) :
    SoundsZero (prog.finallyDo last) := by
  refine fun b hzero => wp_finallyDo.mpr (wp_mono (h b hzero) fun r b' hsound => ?_)
  refine wp_mono (hlast b' hsound) fun r' b'' hsound' => ?_
  cases r' <;> exact hsound'

/-! ## The jobs -/

end LocalRag.Rag
