-- SUMMARY: Programs on a machine whose state others change between the calls, and the record of the calls of one kind.
import LocalRag.Base.Wp

/-!
# Machines with disturbances

While a program runs, others may change the state that its calls act on. Every call is
recorded with the state it found. `Records` describes the calls of one kind that a program
makes, in their order, by its result.
-/

namespace Effects

/-- A call, the state it found, and whether it was carried out or raised. -/
structure Access (I : Iface) (S : Type) where
  call : I.Call
  state : S
  done : Bool

variable {I : Iface} {ε α β S : Type}

/-- Before every call others may change the state. Then the call is carried out, or it fails where
it may. -/
def Machine.disturbed (M : Machine I ε S) (disturb : S → S → Prop) (mayFail : I.Call → S → Prop) :
    Answers I ε (S × List (Access I S)) :=
  fun c s o s' => ∃ t, disturb s.1 t ∧
    ((o = (M.step c t).1 ∧ s' = ((M.step c t).2, s.2 ++ [⟨c, t, o.toBool⟩])) ∨
    (mayFail c t ∧ o = .error (M.fault c) ∧ s' = (t, s.2 ++ [⟨c, t, false⟩])))

/-- The calls of a kind. -/
def accesses (kind : I.Call → Bool) (log : List (Access I S)) : List (Access I S) :=
  log.filter fun a => kind a.call

/-- However the program is disturbed, the calls of the kind that it adds to the record are as `f`
says of the value that it returns. -/
def Records (A : Answers I ε (S × List (Access I S))) (kind : I.Call → Bool) (p : Prog I ε α)
    (f : α → List (Access I S) → Prop) : Prop :=
  ∀ s, wp A (fun _ _ => True) p (fun r s' => ∃ new,
    accesses kind s'.2 = accesses kind s.2 ++ new ∧ ∀ a, r = .ok a → f a new) s

namespace Records

variable {A : Answers I ε (S × List (Access I S))} {kind : I.Call → Bool} {p : Prog I ε α}
  {f f' : α → List (Access I S) → Prop} {M : Machine I ε S} {disturb : S → S → Prop}
  {mayFail : I.Call → S → Prop} {c : I.Call}

theorem mono (h : Records A kind p f) (hf : ∀ a new, f a new → f' a new) : Records A kind p f' := by
  refine fun s => wp_mono (h s) ?_
  rintro r s' ⟨new, hnew, hr⟩
  exact ⟨new, hnew, fun a ha => hf a new (hr a ha)⟩

theorem ret {r : Except ε α} (h : ∀ a, r = .ok a → f a []) : Records A kind (.ret r) f :=
  fun _ => ⟨[], (List.append_nil _).symm, h⟩

theorem pure {a : α} (h : f a []) : Records A kind (Pure.pure a) f := by
  refine .ret ?_
  rintro _ ⟨⟩
  exact h

theorem throw (e : ε) : Records A kind (MonadExcept.throw e : Prog I ε α) f :=
  .ret fun _ ha => by cases ha

theorem bind {g : α → Prog I ε β} {f' : β → List (Access I S) → Prop} (h : Records A kind p f)
    (hg : ∀ a new, f a new → Records A kind (g a) fun b new' => f' b (new ++ new')) :
    Records A kind (p >>= g) f' := by
  refine fun s => wp_bind.mpr (wp_mono (h s) ?_)
  rintro (e | a) s₁ ⟨new, hnew, hr⟩
  · exact ⟨new, hnew, fun _ hb => by cases hb⟩
  refine wp_mono (hg a new (hr a rfl) s₁) ?_
  rintro r s₂ ⟨new', hnew', hr'⟩
  refine ⟨new ++ new', ?_, hr'⟩
  rw [hnew', hnew, List.append_assoc]

/-- Where the program raises, it returns `b` instead. -/
theorem tryCatch {b : α} (h : Records A kind p f) (hb : ∀ new, f b new) :
    Records A kind (MonadExcept.tryCatch p fun _ : ε => Pure.pure b) f := by
  refine fun s => wp_tryCatch.mpr (wp_mono (h s) ?_)
  rintro (e | a) s' ⟨new, hnew, hr⟩
  · refine ⟨new, hnew, ?_⟩
    rintro _ ⟨⟩
    exact hb new
  · exact ⟨new, hnew, hr⟩

theorem lift_other {f : I.Reply c → List (Access I S) → Prop} (hc : kind c = false)
    (h : ∀ t a, (M.step c t).1 = .ok a → f a []) :
    Records (M.disturbed disturb mayFail) kind (Prog.lift c) f := by
  refine fun s => wp_lift.mpr ⟨trivial, ?_⟩
  rintro o _ ⟨t, -, ⟨rfl, rfl⟩ | ⟨-, rfl, rfl⟩⟩
  · exact ⟨[], by simp [accesses, hc], fun a ha => h t a ha⟩
  · exact ⟨[], by simp [accesses, hc], fun a ha => by cases ha⟩

theorem lift_kind {f : I.Reply c → List (Access I S) → Prop} (hc : kind c = true)
    (h : ∀ t a, (M.step c t).1 = .ok a → f a [⟨c, t, true⟩]) :
    Records (M.disturbed disturb mayFail) kind (Prog.lift c) f := by
  refine fun s => wp_lift.mpr ⟨trivial, ?_⟩
  rintro o _ ⟨t, -, ⟨rfl, rfl⟩ | ⟨-, rfl, rfl⟩⟩
  · refine ⟨[⟨c, t, (M.step c t).1.toBool⟩], by simp [accesses, hc], fun a ha => ?_⟩
    rw [ha]
    exact h t a ha
  · exact ⟨[⟨c, t, false⟩], by simp [accesses, hc], fun a ha => by cases ha⟩

theorem any (p : Prog I ε α) : Records (M.disturbed disturb mayFail) kind p fun _ _ => True := by
  induction p with
  | ret r => exact .ret fun _ _ => trivial
  | call c k ih =>
    refine fun s => ⟨trivial, ?_⟩
    have hgrows : ∀ o t (b : Access I S), wp (M.disturbed disturb mayFail) (fun _ _ => True) (k o)
        (fun r s' => ∃ new, accesses kind s'.2 = accesses kind s.2 ++ new ∧ ∀ a, r = .ok a → True)
        (t, s.2 ++ [b]) := by
      intro o t b
      refine wp_mono (ih o (t, s.2 ++ [b])) ?_
      rintro r s' ⟨new, hnew, -⟩
      refine ⟨accesses kind [b] ++ new, ?_, fun _ _ => trivial⟩
      rw [hnew, accesses, accesses, accesses, List.filter_append, List.append_assoc]
    rintro o _ ⟨t, -, ⟨rfl, rfl⟩ | ⟨-, rfl, rfl⟩⟩
    · exact hgrows _ _ _
    · exact hgrows _ _ _

theorem steps (h : Records A kind p f) {s s' : S × List (Access I S)} {a : α}
    (hrun : p.Steps A s (.ret (.ok a)) s') :
    ∃ new, accesses kind s'.2 = accesses kind s.2 ++ new ∧ f a new := by
  obtain ⟨new, hnew, hr⟩ := wp_steps_post (h s) hrun
  exact ⟨new, hnew, hr a rfl⟩

end Records

/-- Run a program to its end, with a change of the state before each call, by the number of calls
so far. -/
def Prog.runDisturbed (M : Machine I ε S) (change : Nat → S → S) :
    Prog I ε α → S × List (Access I S) → Except ε α × S × List (Access I S)
  | .ret r, s => (r, s)
  | .call c k, s =>
    let t := change s.2.length s.1
    (k (M.step c t).1).runDisturbed M change ((M.step c t).2, s.2 ++ [⟨c, t, (M.step c t).1.toBool⟩])

theorem Prog.runDisturbed_steps {M : Machine I ε S} {disturb : S → S → Prop}
    {mayFail : I.Call → S → Prop} {change : Nat → S → S} (hchange : ∀ n s, disturb s (change n s))
    (p : Prog I ε α) (s : S × List (Access I S)) :
    Steps (M.disturbed disturb mayFail) p s (.ret (p.runDisturbed M change s).1)
      (p.runDisturbed M change s).2 := by
  induction p generalizing s with
  | ret r => exact .refl
  | call c k ih => exact .call ⟨_, hchange _ _, .inl ⟨rfl, rfl⟩⟩ (ih _ _)

end Effects
