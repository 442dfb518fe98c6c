-- SUMMARY: Bounded loops of programs and their invariant rule.
import LocalRag.Base.Wp

/-!
# Loops

A `for` loop over a range, or a `while` loop with a bound on its rounds. A round
gets the number of rounds that are left after it, and what is carried from round to
round; it ends with what is carried on, or with the value that ends the loop.
-/

namespace Effects

variable {I : Iface} {ε α σ S : Type}

/-- Make rounds until one ends the loop, or none is left. -/
def Prog.loop (round : ℕ → σ → Prog I ε (σ ⊕ α)) (exhausted : σ → Prog I ε α) : ℕ → σ → Prog I ε α
  | 0, carried => exhausted carried
  | left + 1, carried => do
    match ← round left carried with
    | .inl carried => Prog.loop round exhausted left carried
    | .inr a => pure a

variable {A : Answers I ε S} {G : I.Call → S → Prop} {Q : Except ε α → S → Prop}
  {round : ℕ → σ → Prog I ε (σ ⊕ α)} {exhausted : σ → Prog I ε α}

/-- The postcondition of a round: the invariant if the loop goes on, and else the loop's own. -/
def roundPost (Inv : σ → S → Prop) (Q : Except ε α → S → Prop) : Except ε (σ ⊕ α) → S → Prop
  | .ok (.inl carried) => Inv carried
  | .ok (.inr a) => Q (.ok a)
  | .error e => Q (.error e)

/-- Each round keeps the invariant, whose first argument counts the rounds that are left. -/
theorem wp_loop (Inv : ℕ → σ → S → Prop) {left : ℕ} {carried : σ} {s : S}
    (hround : ∀ left carried s, Inv (left + 1) carried s →
      wp A G (round left carried) (roundPost (Inv left) Q) s)
    (hexhausted : ∀ carried s, Inv 0 carried s → wp A G (exhausted carried) Q s)
    (h : Inv left carried s) : wp A G (Prog.loop round exhausted left carried) Q s := by
  induction left generalizing carried s with
  | zero => exact hexhausted carried s h
  | succ left ih =>
    refine wp_bind.mpr (wp_mono (hround left carried s h) fun r s' hr => ?_)
    match r, hr with
    | .ok (.inl carried), hr => exact ih hr
    | .ok (.inr a), hr => exact hr
    | .error e, hr => exact hr

end Effects
