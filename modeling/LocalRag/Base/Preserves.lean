-- SUMMARY: Programs that preserve a property of the state, whatever they do and however they end.
import LocalRag.Base.Loop

/-!
# Preserved properties

A program preserves `P` if it keeps to the guard from every state with `P` and leaves
a state with `P`, with whatever result. With `(· = s)` for `P` it leaves the state alone.
-/

namespace Effects

variable {I : Iface} {ε α β σ S : Type}

abbrev Preserves (A : Answers I ε S) (G : I.Call → S → Prop) (P : S → Prop) (prog : Prog I ε α) :
    Prop :=
  ∀ s, P s → wp A G prog (fun _ => P) s

variable {A : Answers I ε S} {G : I.Call → S → Prop} {P : S → Prop} {s : S}

/-- A program that preserves `P`, and what comes after it. -/
theorem Preserves.wp_bind {prog : Prog I ε α} {f : α → Prog I ε β} {Q : Except ε β → S → Prop}
    (h : Preserves A G P prog) (hs : P s) (hok : ∀ a s', P s' → wp A G (f a) Q s')
    (herror : ∀ e s', P s' → Q (.error e) s') : wp A G (prog >>= f) Q s := by
  refine Effects.wp_bind.mpr (wp_mono (h s hs) fun r s' hs' => ?_)
  cases r with
  | ok a => exact hok a s' hs'
  | error e => exact herror e s' hs'

namespace Preserves

theorem ret (r : Except ε α) : Preserves A G P (.ret r : Prog I ε α) := fun _ hs => hs

theorem bind {prog : Prog I ε α} {f : α → Prog I ε β} (h : Preserves A G P prog)
    (hf : ∀ a, Preserves A G P (f a)) : Preserves A G P (prog >>= f) := by
  intro s hs
  exact h.wp_bind hs (fun a s' hs' => hf a s' hs') fun _ _ hs' => hs'

theorem tryCatch {prog : Prog I ε α} {f : ε → Prog I ε α} (h : Preserves A G P prog)
    (hf : ∀ e, Preserves A G P (f e)) : Preserves A G P (tryCatch prog f) := by
  intro s hs
  refine wp_tryCatch.mpr (wp_mono (h s hs) fun r s' hs' => ?_)
  cases r with
  | ok a => exact hs'
  | error e => exact hf e s' hs'

theorem finallyDo {prog : Prog I ε α} {last : Prog I ε Unit} (h : Preserves A G P prog)
    (hlast : Preserves A G P last) : Preserves A G P (prog.finallyDo last) := by
  intro s hs
  refine wp_finallyDo.mpr (wp_mono (h s hs) fun r s' hs' => wp_mono (hlast s' hs') fun r' s'' hs'' => ?_)
  cases r' <;> exact hs''

theorem loop {round : ℕ → σ → Prog I ε (σ ⊕ α)} {exhausted : σ → Prog I ε α} {rounds : ℕ} {carried : σ}
    (hround : ∀ left carried, Preserves A G P (round left carried))
    (hexhausted : ∀ carried, Preserves A G P (exhausted carried)) :
    Preserves A G P (Prog.loop round exhausted rounds carried) := by
  intro s hs
  refine wp_loop (fun _ _ => P) (fun left carried s hs => ?_) (fun carried s hs => hexhausted carried s hs) hs
  refine wp_mono (hround left carried s hs) fun r s' hs' => ?_
  rcases r with e | (carried | a) <;> exact hs'

theorem lift {c : I.Call} (hguard : ∀ s, P s → G c s)
    (hanswers : ∀ s o s', P s → A c s o s' → P s') :
    Preserves A G P (Prog.lift c : Prog I ε (I.Reply c)) :=
  fun s hs => wp_lift.mpr ⟨hguard s hs, fun o s' ho => hanswers s o s' hs ho⟩

end Preserves

/-! ## Programs by their calls -/

/-- Whatever the program is answered, it makes calls with `p` only. -/
def Prog.Calls (p : I.Call → Prop) : Prog I ε α → Prop
  | .ret _ => True
  | .call c k => p c ∧ ∀ o, (k o).Calls p

namespace Prog.Calls

variable {p : I.Call → Prop}

theorem ret (r : Except ε α) : (Prog.ret r : Prog I ε α).Calls p := trivial

theorem lift {c : I.Call} (hc : p c) : (Prog.lift c : Prog I ε (I.Reply c)).Calls p :=
  ⟨hc, fun _ => trivial⟩

theorem bind {prog : Prog I ε α} {f : α → Prog I ε β} (h : prog.Calls p) (hf : ∀ a, (f a).Calls p) :
    (prog >>= f).Calls p := by
  change (prog.bind f).Calls p
  induction prog with
  | ret r => cases r with
    | ok a => exact hf a
    | error e => trivial
  | call c k ih => exact ⟨h.1, fun o => ih o (h.2 o)⟩

theorem tryCatch {prog : Prog I ε α} {f : ε → Prog I ε α} (h : prog.Calls p) (hf : ∀ e, (f e).Calls p) :
    (tryCatch prog f).Calls p := by
  change (prog.handle f).Calls p
  induction prog with
  | ret r => cases r with
    | ok a => trivial
    | error e => exact hf e
  | call c k ih => exact ⟨h.1, fun o => ih o (h.2 o)⟩

theorem finallyDo {prog : Prog I ε α} {last : Prog I ε Unit} (h : prog.Calls p) (hlast : last.Calls p) :
    (prog.finallyDo last).Calls p := by
  induction prog with
  | ret r => exact hlast.bind fun _ => trivial
  | call c k ih => exact ⟨h.1, fun o => ih o (h.2 o)⟩

theorem loop {round : ℕ → σ → Prog I ε (σ ⊕ α)} {exhausted : σ → Prog I ε α} {rounds : ℕ} {carried : σ}
    (hround : ∀ left carried, (round left carried).Calls p)
    (hexhausted : ∀ carried, (exhausted carried).Calls p) :
    (Prog.loop round exhausted rounds carried).Calls p := by
  induction rounds generalizing carried with
  | zero => exact hexhausted carried
  | succ rounds ih =>
    refine (hround rounds carried).bind fun next => ?_
    cases next with
    | inl carried => exact ih
    | inr a => trivial

/-- What is left of a run makes such calls only. -/
theorem steps {prog prog' : Prog I ε α} {s s' : S} (h : prog.Calls p)
    (hrun : Prog.Steps A prog s prog' s') :
    prog'.Calls p := by
  induction hrun with
  | refl => exact h
  | call _ _ ih => exact ih (h.2 _)

/-- What every call of the program preserves, the program preserves. -/
theorem preserves {prog : Prog I ε α} (h : prog.Calls p) (hguard : ∀ c s, p c → P s → G c s)
    (hanswers : ∀ c s o s', p c → P s → A c s o s' → P s') : Preserves A G P prog := by
  induction prog with
  | ret r => exact .ret r
  | call c k ih =>
    exact fun s hs => ⟨hguard c s h.1 hs, fun o s' ho => ih o (h.2 o) s' (hanswers c s o s' h.1 hs ho)⟩

end Prog.Calls

end Effects
