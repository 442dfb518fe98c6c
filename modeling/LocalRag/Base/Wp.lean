-- SUMMARY: Weakest preconditions for programs with fallible calls: a guard at every call, a postcondition at the end.
import LocalRag.Base.Prog

/-!
# Weakest preconditions

`wp A G p Q s` says: started in `s`, the program `p` makes a call only where the
guard `G` allows that call in the state it is made in, however the surroundings
`A` answer; and `Q` holds of the result and the state it ends in. A program that
is killed between two calls is about to make a call, so what holds in every state
it passes can be put into the guard.
-/

namespace Effects

variable {I : Iface} {ε α β S : Type}

def wp (A : Answers I ε S) (G : I.Call → S → Prop) :
    Prog I ε α → (Except ε α → S → Prop) → S → Prop
  | .ret r, Q, s => Q r s
  | .call c k, Q, s => G c s ∧ ∀ o s', A c s o s' → wp A G (k o) Q s'

/-- The postcondition that continues with `f` on a value and with `g` on an
exception. -/
def onOk (f : α → S → Prop) (g : ε → S → Prop) : Except ε α → S → Prop
  | .ok a => f a
  | .error e => g e

@[simp] theorem onOk_ok {f : α → S → Prop} {g : ε → S → Prop} {a : α} :
    onOk f g (.ok a) = f a := rfl
@[simp] theorem onOk_error {f : α → S → Prop} {g : ε → S → Prop} {e : ε} :
    onOk f g (.error e) = g e := rfl

variable {A : Answers I ε S} {G : I.Call → S → Prop} {s : S}

/-! ## Soundness -/

/-- A verified program stays verified along its own runs. -/
theorem wp_steps {p p' : Prog I ε α} {Q : Except ε α → S → Prop} {s' : S}
    (h : wp A G p Q s) (hrun : p.Steps A s p' s') : wp A G p' Q s' := by
  induction hrun with
  | refl => exact h
  | call ha _ ih => exact ih (h.2 _ _ ha)

/-- What the guard and the postcondition both give holds wherever the program stops. -/
theorem wp_steps_inv {p p' : Prog I ε α} {Q : Except ε α → S → Prop} {s' : S} {J : S → Prop}
    (h : wp A G p Q s) (hrun : p.Steps A s p' s') (hG : ∀ c s, G c s → J s)
    (hQ : ∀ r s, Q r s → J s) : J s' := by
  have hp := wp_steps h hrun
  cases p' with
  | ret r => exact hQ r s' hp
  | call c k => exact hG c s' hp.1

/-- What every guarded call preserves holds wherever the program stops. -/
theorem wp_steps_preserved {p p' : Prog I ε α} {Q : Except ε α → S → Prop} {s' : S} {J : S → Prop}
    (h : wp A G p Q s) (hrun : p.Steps A s p' s') (hJ : J s)
    (hstep : ∀ c s o s', G c s → J s → A c s o s' → J s') : J s' := by
  induction hrun with
  | refl => exact hJ
  | call ha _ ih => exact ih (h.2 _ _ ha) (hstep _ _ _ _ h.1 hJ ha)

theorem wp_steps_post {p : Prog I ε α} {Q : Except ε α → S → Prop} {s' : S} {r : Except ε α}
    (h : wp A G p Q s) (hrun : p.Steps A s (.ret r) s') : Q r s' :=
  wp_steps h hrun

theorem wp_conseq {G' : I.Call → S → Prop} {p : Prog I ε α} {Q R : Except ε α → S → Prop}
    (h : wp A G p Q s) (hG : ∀ c s, G c s → G' c s) (hQR : ∀ r s', Q r s' → R r s') :
    wp A G' p R s := by
  induction p generalizing s with
  | ret r => exact hQR _ _ h
  | call c k ih => exact ⟨hG c s h.1, fun o s' ha => ih o (h.2 o s' ha)⟩

theorem wp_mono {p : Prog I ε α} {Q R : Except ε α → S → Prop} (h : wp A G p Q s)
    (hQR : ∀ r s', Q r s' → R r s') : wp A G p R s :=
  wp_conseq h (fun _ _ hG => hG) hQR

/-- What is proved for some surroundings holds in surroundings that they simulate, from states
with an invariant `J`, at the calls that are made. -/
theorem wp_simulate {T : Type} {B : Answers I ε T} {H : I.Call → T → Prop} {f : S → T}
    {p : Prog I ε α} {Q : Except ε α → T → Prop} (J : S → Prop) (h : wp B H p Q (f s)) (hJ : J s)
    (hAB : ∀ c s o s', J s → H c (f s) → A c s o s' → J s' ∧ B c (f s) o (f s')) :
    wp A (fun c s => J s ∧ H c (f s)) p (fun r s => J s ∧ Q r (f s)) s := by
  induction p generalizing s with
  | ret r => exact ⟨hJ, h⟩
  | call c k ih =>
    refine ⟨⟨hJ, h.1⟩, fun o s' ha => ?_⟩
    obtain ⟨hJ', hB⟩ := hAB c s o s' hJ h.1 ha
    exact ih o (h.2 o (f s') hB) hJ'

theorem wp_and {G' : I.Call → S → Prop} {p : Prog I ε α} {Q R : Except ε α → S → Prop}
    (h : wp A G p Q s) (h' : wp A G' p R s) :
    wp A (fun c s => G c s ∧ G' c s) p (fun r s => Q r s ∧ R r s) s := by
  induction p generalizing s with
  | ret r => exact ⟨h, h'⟩
  | call c k ih => exact ⟨⟨h.1, h'.1⟩, fun o s' ha => ih o (h.2 o s' ha) (h'.2 o s' ha)⟩

theorem wp_true (p : Prog I ε α) : wp A (fun _ _ => True) p (fun _ _ => True) s := by
  induction p generalizing s with
  | ret r => trivial
  | call c k ih => exact ⟨trivial, fun o s' _ => ih o⟩

/-! ## Rules for the program constructs -/

theorem wp_pure {a : α} {Q : Except ε α → S → Prop} : wp A G (pure a) Q s ↔ Q (.ok a) s := Iff.rfl

theorem wp_lift {c : I.Call} {Q : Except ε (I.Reply c) → S → Prop} :
    wp A G (Prog.lift c) Q s ↔ G c s ∧ ∀ o s', A c s o s' → Q o s' := Iff.rfl

theorem wp_bind {p : Prog I ε α} {f : α → Prog I ε β} {Q : Except ε β → S → Prop} :
    wp A G (p >>= f) Q s ↔
      wp A G p (onOk (fun a => wp A G (f a) Q) (fun e => Q (.error e))) s := by
  change wp A G (p.bind f) Q s ↔ _
  induction p generalizing s with
  | ret r => cases r <;> exact Iff.rfl
  | call c k ih =>
    simp only [Prog.bind, wp]
    exact and_congr_right fun _ => forall_congr' fun o => forall_congr' fun s' =>
      imp_congr_right fun _ => ih o

theorem wp_tryCatch {p : Prog I ε α} {h : ε → Prog I ε α} {Q : Except ε α → S → Prop} :
    wp A G (tryCatch p h) Q s ↔
      wp A G p (onOk (fun a => Q (.ok a)) (fun e => wp A G (h e) Q)) s := by
  change wp A G (p.handle h) Q s ↔ _
  induction p generalizing s with
  | ret r => cases r <;> exact Iff.rfl
  | call c k ih =>
    simp only [Prog.handle, wp]
    exact and_congr_right fun _ => forall_congr' fun o => forall_congr' fun s' =>
      imp_congr_right fun _ => ih o

theorem wp_finallyDo {p : Prog I ε α} {q : Prog I ε Unit} {Q : Except ε α → S → Prop} :
    wp A G (p.finallyDo q) Q s ↔
      wp A G p (fun r => wp A G q (onOk (fun _ => Q r) (fun e => Q (.error e)))) s := by
  induction p generalizing s with
  | ret r => exact wp_bind
  | call c k ih =>
    simp only [Prog.finallyDo, wp]
    exact and_congr_right fun _ => forall_congr' fun o => forall_congr' fun s' =>
      imp_congr_right fun _ => ih o

/-- `f <$> p`. -/
theorem wp_map {p : Prog I ε α} {f : α → β} {Q : Except ε β → S → Prop} :
    wp A G (f <$> p) Q s ↔
      wp A G p (onOk (fun a => Q (.ok (f a))) (fun e => Q (.error e))) s :=
  wp_bind

/-! ## Calls to a machine -/

/-- One call to a machine: it is carried out, or it fails where it may. -/
theorem wp_lift_machine {M : Machine I ε S} {mayFail : I.Call → S → Prop}
    {G : I.Call → S × List (Event I) → Prop} {c : I.Call} {s : S × List (Event I)}
    {Q : Except ε (I.Reply c) → S × List (Event I) → Prop} :
    wp (M.answers mayFail) G (Prog.lift c) Q s ↔
      G c s ∧
      Q (M.step c s.1).1 ((M.step c s.1).2, s.2 ++ [⟨c, (M.step c s.1).1.toBool⟩]) ∧
      (mayFail c s.1 → Q (.error (M.fault c)) (s.1, s.2 ++ [⟨c, false⟩])) := by
  rw [wp_lift]
  refine and_congr_right fun _ => ⟨fun h => ⟨h _ _ (.inl ⟨rfl, rfl⟩), fun hf => ?_⟩, ?_⟩
  · exact h _ _ (.inr ⟨hf, rfl, rfl⟩)
  · rintro ⟨hstep, hfault⟩ o s' (⟨rfl, rfl⟩ | ⟨hf, rfl, rfl⟩)
    · exact hstep
    · exact hfault hf

/-- One call over a connection: it is carried out, it fails where it may, or its reply is lost where
it may be. -/
theorem wp_lift_lossy {M : Machine I ε S} {mayFail mayLose : I.Call → Prop} {c : I.Call}
    {Q : Except ε (I.Reply c) → S → Prop} :
    wp (M.lossy mayFail mayLose) G (Prog.lift c) Q s ↔
      G c s ∧ Q (M.step c s).1 (M.step c s).2 ∧
      (mayFail c → Q (.error (M.fault c)) s) ∧
      (mayLose c → Q (.error (M.fault c)) (M.step c s).2) := by
  rw [wp_lift]
  refine and_congr_right fun _ => ⟨fun h => ⟨h _ _ (.inl ⟨rfl, rfl⟩), fun hf => ?_, fun hl => ?_⟩, ?_⟩
  · exact h _ _ (.inr ⟨rfl, .inl ⟨hf, rfl⟩⟩)
  · exact h _ _ (.inr ⟨rfl, .inr ⟨hl, rfl⟩⟩)
  · rintro ⟨hstep, hfault, hlost⟩ o s' (⟨rfl, rfl⟩ | ⟨rfl, ⟨hf, rfl⟩ | ⟨hl, rfl⟩⟩)
    · exact hstep
    · exact hfault hf
    · exact hlost hl

/-! ## Calls that are made -/

/-- However the surroundings answer, the program makes the call, or `Q` holds where it ends without
it. -/
def wpUntil (A : Answers I ε S) (target : I.Call) :
    Prog I ε α → (Except ε α → S → Prop) → S → Prop
  | .ret r, Q, s => Q r s
  | .call c k, Q, s => c = target ∨ ∀ o s', A c s o s' → wpUntil A target (k o) Q s'

/-- The program makes the call before it returns a value. -/
abbrev Makes (A : Answers I ε S) (target : I.Call) (p : Prog I ε α) (s : S) : Prop :=
  wpUntil A target p (fun r _ => ∃ e, r = .error e) s

variable {target : I.Call}

theorem wpUntil_mono {p : Prog I ε α} {Q R : Except ε α → S → Prop} (h : wpUntil A target p Q s)
    (hQR : ∀ r s', Q r s' → R r s') : wpUntil A target p R s := by
  induction p generalizing s with
  | ret r => exact hQR _ _ h
  | call c k ih => exact h.imp_right fun hk o s' ha => ih o (hk o s' ha)

/-- With fewer answers. -/
theorem wpUntil_answers {B : Answers I ε S} {p : Prog I ε α} {Q : Except ε α → S → Prop}
    (hAB : ∀ c s o s', A c s o s' → B c s o s') (h : wpUntil B target p Q s) :
    wpUntil A target p Q s := by
  induction p generalizing s with
  | ret r => exact h
  | call c k ih => exact h.imp_right fun hk o s' ha => ih o (hk o s' (hAB c s o s' ha))

theorem wpUntil_true (p : Prog I ε α) : wpUntil A target p (fun _ _ => True) s := by
  induction p generalizing s with
  | ret r => trivial
  | call c k ih => exact .inr fun o s' _ => ih o

theorem wpUntil_bind {p : Prog I ε α} {f : α → Prog I ε β} {Q : Except ε β → S → Prop} :
    wpUntil A target (p >>= f) Q s ↔
      wpUntil A target p (onOk (fun a => wpUntil A target (f a) Q) (fun e => Q (.error e))) s := by
  change wpUntil A target (p.bind f) Q s ↔ _
  induction p generalizing s with
  | ret r => cases r <;> exact Iff.rfl
  | call c k ih =>
    simp only [Prog.bind, wpUntil]
    exact or_congr_right (forall_congr' fun o => forall_congr' fun s' => imp_congr_right fun _ => ih o)

/-- The first part makes the call. -/
theorem Makes.bind {p : Prog I ε α} (h : Makes A target p s) (f : α → Prog I ε β) :
    Makes A target (p >>= f) s := by
  refine wpUntil_bind.mpr (wpUntil_mono h ?_)
  rintro r s' ⟨e, rfl⟩
  exact ⟨e, rfl⟩

/-- The second part makes the call. -/
theorem makes_bind {p : Prog I ε α} {f : α → Prog I ε β} (h : ∀ a s, Makes A target (f a) s) :
    Makes A target (p >>= f) s := by
  refine wpUntil_bind.mpr (wpUntil_mono (wpUntil_true p) fun r s' _ => ?_)
  cases r with
  | ok a => exact h a s'
  | error e => exact ⟨e, rfl⟩

end Effects
