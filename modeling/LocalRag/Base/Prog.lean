-- SUMMARY: Programs as trees of calls that may raise: monad structure, runs, and the recorded trace of calls.
import Mathlib.Logic.Function.Iterate
import Mathlib.Logic.Relation

/-!
# Programs as interaction trees

A program is a tree: it is finished with a value or an exception, or it makes a
call on its surroundings and continues with whatever the call answers. An
answer is a reply or an exception, so that a program can catch the failure of a
call. What the surroundings do is not part of the program: it is a relation
`Answers` chosen by whoever runs it.
-/

namespace Effects

/-- The calls a program may make, and what each of them replies. -/
structure Iface where
  Call : Type
  Reply : Call → Type

inductive Prog (I : Iface) (ε α : Type) where
  | ret (r : Except ε α) : Prog I ε α
  | call (c : I.Call) (k : Except ε (I.Reply c) → Prog I ε α) : Prog I ε α

/-- One call of a run, and whether it was carried out (`done`) or raised. -/
structure Event (I : Iface) where
  call : I.Call
  done : Bool

variable {I : Iface} {ε α β γ S : Type}

namespace Prog

/-! ## Sequencing and exception handling -/

def bind : Prog I ε α → (α → Prog I ε β) → Prog I ε β
  | .ret (.ok a), f => f a
  | .ret (.error e), _ => .ret (.error e)
  | .call c k, f => .call c (fun o => (k o).bind f)

/-- `try p except e: h e`. -/
def handle : Prog I ε α → (ε → Prog I ε α) → Prog I ε α
  | .ret (.ok a), _ => .ret (.ok a)
  | .ret (.error e), h => h e
  | .call c k, h => .call c (fun o => (k o).handle h)

/-- `try: p finally: q`. -/
def finallyDo : Prog I ε α → Prog I ε Unit → Prog I ε α
  | .ret r, q => q.bind fun _ => .ret r
  | .call c k, q => .call c (fun o => (k o).finallyDo q)

/-- Make one call and finish with its answer. -/
def lift (c : I.Call) : Prog I ε (I.Reply c) :=
  .call c .ret

instance : Monad (Prog I ε) where
  pure a := .ret (.ok a)
  bind := bind

instance : LawfulMonad (Prog I ε) := .mk' _
  (by
    intro α p
    induction p with
    | ret r => cases r <;> rfl
    | call c k ih => exact congrArg (Prog.call c) (funext ih))
  (fun _ _ => rfl)
  (by
    intro α β γ p f g
    induction p with
    | ret r => cases r <;> rfl
    | call c k ih => exact congrArg (Prog.call c) (funext ih))

instance : MonadExceptOf ε (Prog I ε) where
  throw e := .ret (.error e)
  tryCatch := handle

end Prog

/-! ## What the surroundings answer -/

/-- The answers the surroundings may give to a call in a state, each with the
state they leave behind. -/
abbrev Answers (I : Iface) (ε S : Type) :=
  (c : I.Call) → S → Except ε (I.Reply c) → S → Prop

/-- Surroundings that compute: each call has one regular outcome, and one
exception it raises when it fails without taking effect. -/
structure Machine (I : Iface) (ε S : Type) where
  step : (c : I.Call) → S → Except ε (I.Reply c) × S
  fault : I.Call → ε

/-- A machine whose calls may fail where `mayFail` allows it. A failing call
leaves the state alone. Every call is appended to the trace. -/
def Machine.answers (M : Machine I ε S) (mayFail : I.Call → S → Prop) :
    Answers I ε (S × List (Event I)) :=
  fun c s o s' =>
    (o = (M.step c s.1).1 ∧ s' = ((M.step c s.1).2, s.2 ++ [⟨c, o.toBool⟩])) ∨
    (mayFail c s.1 ∧ o = .error (M.fault c) ∧ s' = (s.1, s.2 ++ [⟨c, false⟩]))

/-- A machine behind a connection: a call may also be carried out and its reply be lost, so that it
raises all the same. -/
def Machine.lossy (M : Machine I ε S) (mayFail mayLose : I.Call → Prop) : Answers I ε S :=
  fun c s o s' =>
    (o = (M.step c s).1 ∧ s' = (M.step c s).2) ∨
    (o = .error (M.fault c) ∧ (mayFail c ∧ s' = s ∨ mayLose c ∧ s' = (M.step c s).2))

/-! ## Runs -/

/-- `Steps A p s p' s'`: started in `s`, the program `p` can make some calls and
then be `p'` in `s'`. A run may stop at any point, as a killed process does. -/
inductive Prog.Steps (A : Answers I ε S) : Prog I ε α → S → Prog I ε α → S → Prop where
  | refl {p s} : Steps A p s p s
  | call {c k s o s₁ p' s'} : A c s o s₁ → Steps A (k o) s₁ p' s' → Steps A (.call c k) s p' s'

theorem Prog.Steps.trans {A : Answers I ε S} {p p' p'' : Prog I ε α} {s s' s'' : S}
    (h : Steps A p s p' s') (h' : Steps A p' s' p'' s'') : Steps A p s p'' s'' := by
  induction h with
  | refl => exact h'
  | call ha _ ih => exact .call ha (ih h')

/-- A run of the first part, and a run of what comes after it. -/
theorem Prog.Steps.bind_ok {A : Answers I ε S} {p : Prog I ε α} {f : α → Prog I ε β} {a : α}
    {q : Prog I ε β}
    {s s' s'' : S} (h : Steps A p s (.ret (.ok a)) s') (h' : Steps A (f a) s' q s'') :
    Steps A (p >>= f) s q s'' := by
  have hbind : ∀ {p p' : Prog I ε α} {s s' : S}, Steps A p s p' s' → Steps A (p.bind f) s (p'.bind f) s' := by
    intro p p' s s' hrun
    induction hrun with
    | refl => exact .refl
    | call ha _ ih => exact .call ha ih
  exact (hbind h).trans h'

theorem Prog.Steps.mono {A B : Answers I ε S} (hAB : ∀ c s o s', A c s o s' → B c s o s')
    {p p' : Prog I ε α} {s s' : S} (h : Steps A p s p' s') : Steps B p s p' s' := by
  induction h with
  | refl => exact .refl
  | call ha _ ih => exact .call (hAB _ _ _ _ ha) ih

theorem Machine.answers_mono {M : Machine I ε S} {mayFail mayFail' : I.Call → S → Prop}
    (h : ∀ c s, mayFail c s → mayFail' c s) (c : I.Call) (s : S × List (Event I))
    (o : Except ε (I.Reply c)) (s' : S × List (Event I)) (ha : M.answers mayFail c s o s') :
    M.answers mayFail' c s o s' :=
  ha.imp id fun hfault => ⟨h c s.1 hfault.1, hfault.2⟩

/-- Run a program to its end. The `n`-th flag says whether the `n`-th call is to
fail; a call that may not fail is carried out whatever its flag, and so is every
call beyond the flags. -/
def Prog.run (M : Machine I ε S) (mayFail : I.Call → S → Prop)
    [∀ c s, Decidable (mayFail c s)] :
    Prog I ε α → List Bool → S × List (Event I) → Except ε α × S × List (Event I)
  | .ret r, _, s => (r, s)
  | .call c k, flags, s =>
    if flags.headD false = true ∧ mayFail c s.1 then
      (k (.error (M.fault c))).run M mayFail flags.tail (s.1, s.2 ++ [⟨c, false⟩])
    else
      let a := M.step c s.1
      (k a.1).run M mayFail flags.tail (a.2, s.2 ++ [⟨c, a.1.toBool⟩])

theorem Prog.run_steps (M : Machine I ε S) (mayFail : I.Call → S → Prop)
    [∀ c s, Decidable (mayFail c s)] (p : Prog I ε α) (flags : List Bool)
    (s : S × List (Event I)) :
    Steps (M.answers mayFail) p s (.ret (p.run M mayFail flags s).1)
      (p.run M mayFail flags s).2 := by
  induction p generalizing flags s with
  | ret r => exact .refl
  | call c k ih =>
    unfold run
    split
    · next h => exact .call (.inr ⟨h.2, rfl, rfl⟩) (ih _ _ _)
    · exact .call (.inl ⟨rfl, rfl⟩) (ih _ _ _)

/-! ## Runs without failures -/

/-- Run a program to its end, with every call carried out. -/
def Prog.exec (M : Machine I ε S) : Prog I ε α → S → Except ε α × S
  | .ret r, s => (r, s)
  | .call c k, s => (k (M.step c s).1).exec M (M.step c s).2

/-- A call, and what is left once it has been answered. -/
theorem Prog.exec_call {M : Machine I ε S} {c : I.Call} {f : I.Reply c → Prog I ε α} {s s' : S}
    {o : Except ε (I.Reply c)} (hstep : M.step c s = (o, s')) :
    (lift c >>= f).exec M s = ((Prog.ret o).bind f).exec M s' := by
  change ((Prog.ret (M.step c s).1).bind f).exec M (M.step c s).2 = _
  rw [hstep]

/-! ## Iterated steps -/

/-- What one step relates, any number of steps relates. -/
theorem rel_iterate {r : S → S → Prop} (hrefl : ∀ s, r s s)
    (htrans : ∀ {s s' s''}, r s s' → r s' s'' → r s s'') {step : S → S} (hstep : ∀ s, r s (step s))
    (n : Nat) (s : S) : r s (step^[n] s) := by
  induction n generalizing s with
  | zero => exact hrefl s
  | succ n ih => exact htrans (hstep s) (ih (step s))

end Effects
