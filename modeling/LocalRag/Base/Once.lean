-- SUMMARY: Objects that are made on first use: double-checked locking, by any number of threads.
import LocalRag.Base.Threads
import Mathlib.Logic.Function.Basic

/-!
# Objects that are made once

A variable is empty at first. Who finds it empty takes its lock and looks again, and
makes an object only if it is empty still. The variable may be read at any time, by
threads that hold the lock and by others. Threads may use several such variables.
-/

namespace Effects.Once

variable {O ε : Type}

inductive Call (O : Type) where
  | read
  | acquire
  | make
  | write (obj : O)
  | release
  /-- What a thread does with the object that it has got. -/
  | use (obj : Option O)

def Reply : Call O → Type
  | .read => Option O
  | .make => O
  | _ => Unit

abbrev OnceIface (O : Type) : Iface := ⟨Call O, Reply⟩

def call (c : Call O) : Prog (OnceIface O) ε (Reply c) := Prog.lift (I := OnceIface O) c

/-- `with lock: if value is None: value = make()` -/
def makeLocked : Prog (OnceIface O) ε Unit := do
  let _ ← call .acquire
  Prog.finallyDo
    (do
      let seen : Option O ← call .read
      if seen.isNone then do
        let obj : O ← call .make
        let _ ← call (.write obj)
      else pure ())
    (do
      let _ ← call .release)

/-- `if value is None`: the same; `return value`. -/
def getOrMake : Prog (OnceIface O) ε (Option O) := do
  let seen : Option O ← call .read
  if seen.isNone then makeLocked else pure ()
  call .read

/-- Get the object and use it. -/
def useWith (get : Prog (OnceIface O) ε (Option O)) : Prog (OnceIface O) ε Unit := do
  let obj ← get
  let _ ← call (.use obj)

/-! ## What the calls do, and what a thread knows -/

structure Var (O : Type) where
  value : Option O
  locked : Bool
  /-- All objects that were made. -/
  made : List O

def Var.start : Var O := ⟨none, false, []⟩

/-- The lock may be waited for in vain, an object may not get made, and its use may raise. -/
def answers : Answers (OnceIface O) ε (Var O) := fun c s o s' =>
  match c, o with
  | .read, .ok (value : Option O) => value = s.value ∧ s' = s
  | .acquire, .ok _ => s.locked = false ∧ s' = { s with locked := true }
  | .make, .ok (obj : O) => s' = { s with made := obj :: s.made }
  | .write obj, .ok _ => s' = { s with value := some obj }
  | .release, .ok _ => s' = { s with locked := false }
  | .use _, _ => s' = s
  | .acquire, .error _ | .make, .error _ => s' = s
  | _, .error _ => False

/-- What a thread knows. -/
inductive Note (O : Type) where
  | idle
  /-- It has the lock. -/
  | inside
  /-- It has the lock, and the variable is empty. -/
  | empty
  /-- It has the lock, and has made the object. -/
  | made (obj : O)
  /-- It has the lock, and the variable is full. -/
  | settled
  /-- The variable is full. -/
  | full
  | got (obj : O)
  /-- The variable was full, and is empty. -/
  | lost
  deriving DecidableEq

def Note.ofValue : Option O → Note O
  | none => .lost
  | some obj => .got obj

def Note.read (value : Option O) : Note O → Note O
  | .idle => if value.isSome then .full else .idle
  | .inside => if value.isSome then .settled else .empty
  | .full => .ofValue value
  | note => note

def Note.released : Note O → Note O
  | .settled => .full
  | _ => .idle

def Note.noted (note : Note O) : (c : Call O) → Except ε (Reply c) → Note O
  | .read, .ok (value : Option O) => note.read value
  | .acquire, .ok _ => .inside
  | .make, .ok (obj : O) => .made obj
  | .write _, .ok _ => .settled
  | .release, .ok _ => note.released
  | .use _, _ => .idle
  | _, _ => note

/-- The answers that a thread may get, as it notes them. -/
def noting : Answers (OnceIface O) ε (Note O) := fun c note o note' =>
  (∃ s s', answers c s o s') ∧ note' = note.noted c o

def Note.hasLock : Note O → Bool
  | .inside | .empty | .made _ | .settled => true
  | _ => false

/-- What a thread knows when it makes a call. -/
def Guard : Call O → Note O → Prop
  | .read, note => note = .idle ∨ note = .inside ∨ note = .full
  | .acquire, note => note = .idle
  | .make, note => note = .empty
  | .write obj, note => note = .made obj
  | .release, note => note = .inside ∨ note = .empty ∨ note = .settled
  | .use obj, note => note = .ofValue obj

/-! ## What a thread does -/

variable {c : Call O} {note : Note O}

abbrev Keeps {α : Type} (prog : Prog (OnceIface O) ε α) (Q : Except ε α → Note O → Prop)
    (note : Note O) : Prop :=
  wp noting Guard prog Q note

theorem keeps_call {Q : Except ε (Reply c) → Note O → Prop} (hguard : Guard c note)
    (hQ : ∀ s (o : Except ε (Reply c)) s', answers c s o s' → Q o (note.noted c o)) :
    Keeps (call c) Q note := by
  refine wp_lift.mpr ⟨hguard, ?_⟩
  rintro o note' ⟨⟨s, s', hanswers⟩, rfl⟩
  exact hQ s o s' hanswers

theorem keeps_release {Q : Except ε Unit → Note O → Prop}
    (hnote : note = .inside ∨ note = .empty ∨ note = .settled)
    (hQ : Q (.ok ()) note.released) :
    Keeps (do
      let _ ← call .release) Q note := by
  refine wp_bind.mpr (keeps_call hnote fun s o s' hrelease => ?_)
  cases o with
  | error e => exact hrelease.elim
  | ok _ => exact hQ

/-- The variable is full when the lock is returned, or making the object has raised. -/
theorem keeps_makeLocked : Keeps (makeLocked : Prog (OnceIface O) ε Unit)
    (onOk (fun _ note => note = .full) fun _ note => note = .idle) .idle := by
  refine wp_bind.mpr (keeps_call rfl fun s o s' hacquire => ?_)
  cases o with
  | error e => rfl
  | ok _ =>
    refine wp_finallyDo.mpr (wp_bind.mpr (keeps_call (.inr (.inl rfl)) fun s o s' hread => ?_))
    cases o with
    | error e => exact hread.elim
    | ok seen =>
      rcases (seen : Option O) with _ | obj
      · refine wp_bind.mpr (keeps_call rfl fun s o s' hmake => ?_)
        cases o with
        | error e => exact keeps_release (.inr (.inl rfl)) rfl
        | ok obj =>
          refine wp_bind.mpr (keeps_call rfl fun s o s' hwrite => ?_)
          cases o with
          | error e => exact hwrite.elim
          | ok _ => exact keeps_release (.inr (.inr rfl)) rfl
      · exact keeps_release (.inr (.inr rfl)) rfl

theorem keeps_getOrMake : Keeps (getOrMake : Prog (OnceIface O) ε (Option O))
    (onOk (fun obj note => note = .ofValue obj) fun _ note => note = .idle) .idle := by
  have hlast : Keeps (call .read : Prog (OnceIface O) ε (Option O))
      (onOk (fun obj note => note = .ofValue obj) fun _ note => note = .idle) .full := by
    refine keeps_call (.inr (.inr rfl)) fun s o s' hread => ?_
    cases o with
    | error e => exact hread.elim
    | ok obj => rfl
  refine wp_bind.mpr (keeps_call (.inl rfl) fun s o s' hread => ?_)
  cases o with
  | error e => exact hread.elim
  | ok seen =>
    rcases (seen : Option O) with _ | obj
    · refine wp_bind.mpr (wp_mono keeps_makeLocked fun r note hr => ?_)
      cases r with
      | error e => exact hr
      | ok _ =>
        obtain rfl : note = .full := hr
        exact hlast
    · exact hlast

theorem keeps_useWith :
    Keeps (useWith (getOrMake : Prog (OnceIface O) ε (Option O))) (fun _ note => note = .idle) .idle := by
  refine wp_bind.mpr (wp_mono keeps_getOrMake fun r note hr => ?_)
  cases r with
  | error e => exact hr
  | ok obj =>
    obtain rfl : note = .ofValue obj := hr
    refine wp_bind.mpr (keeps_call rfl fun s o s' huse => ?_)
    cases o <;> rfl

/-! ## The invariant -/

/-- What a thread knows is so. -/
def Note.Sound (s : Var O) : Note O → Prop
  | .empty => s.value = none ∧ s.made = []
  | .made obj => s.value = none ∧ s.made = [obj]
  | .settled | .full => s.value.isSome
  | .got obj => s.value = some obj
  | .lost => False
  | _ => True

/-- One thread has the lock, and the object in the variable is the only one that was made. -/
structure Var.Inv (s : Var O) (notes : List (Note O)) : Prop where
  locks : notes.countP Note.hasLock = if s.locked then 1 else 0
  full : ∀ obj, s.value = some obj → s.made = [obj]
  empty : s.value = none → s.made = [] ∨ ∃ obj, s.made = [obj] ∧ .made obj ∈ notes
  sound : ∀ note ∈ notes, note.Sound s

variable {s s' : Var O} {before after : List (Note O)} {note' : Note O}

theorem countP_split (before after : List (Note O)) (note : Note O) :
    (before ++ note :: after).countP Note.hasLock =
      (before ++ after).countP Note.hasLock + if note.hasLock then 1 else 0 := by
  rw [List.countP_append, List.countP_append, List.countP_cons]
  omega

theorem mem_split {n : Note O} : n ∈ before ++ note :: after ↔ n = note ∨ n ∈ before ++ after := by
  simp only [List.mem_append, List.mem_cons]
  exact or_left_comm

/-- Whoever has the lock, has it alone. -/
theorem Var.Inv.alone (hinv : s.Inv (before ++ note :: after)) (hlock : note.hasLock = true) :
    s.locked = true ∧ ∀ n ∈ before ++ after, n.hasLock = false := by
  have hcount := hinv.locks
  rw [countP_split, if_pos hlock] at hcount
  by_cases hlocked : s.locked = true
  · rw [if_pos hlocked] at hcount
    have hnone : (before ++ after).countP Note.hasLock = 0 := by omega
    exact ⟨hlocked, fun n hn => (Bool.not_eq_true _).mp (List.countP_eq_zero.mp hnone n hn)⟩
  · rw [if_neg hlocked] at hcount
    omega

/-- A thread starts. -/
theorem Var.Inv.join {notes : List (Note O)} (hinv : s.Inv notes) : s.Inv (notes ++ [.idle]) := by
  refine ⟨?_, hinv.full, fun hvalue => ?_, fun note hnote => ?_⟩
  · rw [List.countP_append]
    exact hinv.locks
  · refine (hinv.empty hvalue).imp_right ?_
    rintro ⟨obj, hobj, hmem⟩
    exact ⟨obj, hobj, List.mem_append_left _ hmem⟩
  · rcases List.mem_append.mp hnote with hnote | hnote
    · exact hinv.sound note hnote
    · rw [List.mem_singleton.mp hnote]
      trivial

theorem Var.Inv.start : (Var.start : Var O).Inv [] := by
  refine ⟨rfl, fun obj hvalue => ?_, fun _ => .inl rfl, nofun⟩
  cases hvalue

/-- A thread learns something about the variable as it is. -/
theorem Var.Inv.renote (hinv : s.Inv (before ++ note :: after)) (hlock : note'.hasLock = note.hasLock)
    (hmade : ∀ obj, note = .made obj → note' = .made obj) (hsound : note'.Sound s) :
    s.Inv (before ++ note' :: after) where
  locks := by
    rw [countP_split, hlock, ← countP_split]
    exact hinv.locks
  full := hinv.full
  empty hvalue := by
    refine (hinv.empty hvalue).imp_right ?_
    rintro ⟨obj, hobj, hmem⟩
    refine ⟨obj, hobj, mem_split.mpr ?_⟩
    exact (mem_split.mp hmem).imp_left fun h => (hmade obj h.symm).symm
  sound n hn := by
    rcases mem_split.mp hn with rfl | hn
    · exact hsound
    · exact hinv.sound n (mem_split.mpr (.inr hn))

theorem Var.Inv.acquired (hinv : s.Inv (before ++ .idle :: after)) (hfree : s.locked = false) :
    Var.Inv { s with locked := true } (before ++ .inside :: after) where
  locks := by
    have hcount := hinv.locks
    rw [countP_split, hfree] at hcount
    rw [countP_split]
    exact congrArg (· + 1) hcount
  full := hinv.full
  empty hvalue := by
    refine (hinv.empty hvalue).imp_right ?_
    rintro ⟨obj, hobj, hmem⟩
    exact ⟨obj, hobj, mem_split.mpr (.inr ((mem_split.mp hmem).resolve_left nofun))⟩
  sound n hn := by
    rcases mem_split.mp hn with rfl | hn
    · trivial
    · have hsound := hinv.sound n (mem_split.mpr (.inr hn))
      cases n <;> exact hsound

/-- Only the thread that has the lock makes an object, and it makes the first. -/
theorem Var.Inv.maked (hinv : s.Inv (before ++ .empty :: after)) (obj : O) :
    Var.Inv { s with made := obj :: s.made } (before ++ .made obj :: after) := by
  obtain ⟨hvalue, hmade⟩ : s.value = none ∧ s.made = [] := hinv.sound .empty (mem_split.mpr (.inl rfl))
  refine ⟨?_, fun obj' hobj' => ?_, fun _ => .inr ⟨obj, ?_, mem_split.mpr (.inl rfl)⟩, fun n hn => ?_⟩
  · have hcount := hinv.locks
    rw [countP_split] at hcount ⊢
    exact hcount
  · rw [hvalue] at hobj'
    cases hobj'
  · rw [hmade]
  · rcases mem_split.mp hn with rfl | hn
    · exact ⟨hvalue, by rw [hmade]⟩
    · have hlock := (hinv.alone rfl).2 n hn
      have hsound := hinv.sound n (mem_split.mpr (.inr hn))
      cases n <;> first | exact hsound | cases hlock

theorem Var.Inv.written {obj : O} (hinv : s.Inv (before ++ .made obj :: after)) :
    Var.Inv { s with value := some obj } (before ++ .settled :: after) := by
  obtain ⟨hvalue, hmade⟩ : s.value = none ∧ s.made = [obj] := hinv.sound (.made obj) (mem_split.mpr (.inl rfl))
  refine ⟨?_, fun obj' hobj' => ?_, nofun, fun n hn => ?_⟩
  · have hcount := hinv.locks
    rw [countP_split] at hcount ⊢
    exact hcount
  · rw [← Option.some.inj hobj']
    exact hmade
  · rcases mem_split.mp hn with rfl | hn
    · rfl
    · have hlock := (hinv.alone rfl).2 n hn
      have hsound := hinv.sound n (mem_split.mpr (.inr hn))
      -- Nobody else can have seen the variable full.
      cases n with
      | idle => trivial
      | full => rfl
      | got obj' =>
        have hgot : s.value = some obj' := hsound
        rw [hvalue] at hgot
        cases hgot
      | lost => exact hsound
      | _ => cases hlock

theorem Var.Inv.released (hinv : s.Inv (before ++ note :: after))
    (hnote : note = .inside ∨ note = .empty ∨ note = .settled) :
    Var.Inv { s with locked := false } (before ++ note.released :: after) := by
  have hlock : note.hasLock = true := by rcases hnote with rfl | rfl | rfl <;> rfl
  have hfree : note.released.hasLock = false := by rcases hnote with rfl | rfl | rfl <;> rfl
  obtain ⟨hlocked, hothers⟩ := hinv.alone hlock
  refine ⟨?_, hinv.full, fun hvalue => ?_, fun n hn => ?_⟩
  · have hcount := hinv.locks
    rw [countP_split, if_pos hlock, if_pos hlocked] at hcount
    rw [countP_split, hfree]
    exact Nat.succ.inj hcount
  · refine (hinv.empty hvalue).imp_right ?_
    rintro ⟨obj, hobj, hmem⟩
    rcases mem_split.mp hmem with rfl | hmem
    · rcases hnote with h | h | h <;> cases h
    · cases hothers _ hmem
  · rcases mem_split.mp hn with rfl | hn
    · rcases hnote with rfl | rfl | rfl
      · trivial
      · trivial
      · exact hinv.sound .settled (mem_split.mpr (.inl rfl))
    · have hsound := hinv.sound n (mem_split.mpr (.inr hn))
      cases n <;> exact hsound

theorem Var.Inv.read (hinv : s.Inv (before ++ note :: after))
    (hnote : note = .idle ∨ note = .inside ∨ note = .full) :
    s.Inv (before ++ note.read s.value :: after) := by
  have hsound := hinv.sound note (mem_split.mpr (.inl rfl))
  cases hvalue : s.value with
  | some obj =>
    rcases hnote with rfl | rfl | rfl
    · exact hinv.renote rfl nofun (Option.isSome_iff_exists.mpr ⟨obj, hvalue⟩)
    · exact hinv.renote rfl nofun (Option.isSome_iff_exists.mpr ⟨obj, hvalue⟩)
    · exact hinv.renote rfl nofun hvalue
  | none =>
    rcases hnote with rfl | rfl | rfl
    · exact hinv.renote rfl nofun trivial
    · -- Nobody else has the lock, so nobody has made an object that is not written yet.
      refine hinv.renote rfl nofun ⟨hvalue, (hinv.empty hvalue).resolve_right ?_⟩
      rintro ⟨obj, -, hmem⟩
      rcases mem_split.mp hmem with h | hmem
      · cases h
      · cases (hinv.alone rfl).2 _ hmem
    · have hfull : s.value.isSome = true := hsound
      rw [hvalue] at hfull
      cases hfull

theorem Var.Inv.used {obj : Option O} (hinv : s.Inv (before ++ .ofValue obj :: after)) :
    s.Inv (before ++ .idle :: after) := by
  cases obj with
  | none => exact (hinv.sound .lost (mem_split.mpr (.inl rfl))).elim
  | some obj => exact hinv.renote rfl nofun trivial

/-- Every call that is made as the guard says keeps the invariant. -/
theorem Var.Inv.call {o : Except ε (Reply c)} (hinv : s.Inv (before ++ note :: after))
    (hguard : Guard c note)
    (hanswers : answers c s o s') : s'.Inv (before ++ note.noted c o :: after) := by
  cases o with
  | error e =>
    cases c with
    | acquire | make =>
      obtain rfl : s' = s := hanswers
      exact hinv
    | use obj =>
      obtain rfl : s' = s := hanswers
      obtain rfl : note = .ofValue obj := hguard
      exact hinv.used
    | _ => exact hanswers.elim
  | ok a =>
    cases c with
    | read =>
      obtain ⟨rfl, rfl⟩ := hanswers
      exact hinv.read hguard
    | acquire =>
      obtain ⟨hfree, rfl⟩ := hanswers
      obtain rfl : note = .idle := hguard
      exact hinv.acquired hfree
    | make =>
      obtain rfl : s' = { s with made := a :: s.made } := hanswers
      obtain rfl : note = .empty := hguard
      exact hinv.maked a
    | write obj =>
      obtain rfl : s' = { s with value := some obj } := hanswers
      obtain rfl : note = .made obj := hguard
      exact hinv.written
    | release =>
      obtain rfl : s' = { s with locked := false } := hanswers
      exact hinv.released hguard
    | use obj =>
      obtain rfl : s' = s := hanswers
      obtain rfl : note = .ofValue obj := hguard
      exact hinv.used

/-! ## Threads with several variables -/

section
variable {K : Type} [DecidableEq K] {V : K → Type}

abbrev FamilyIface (V : K → Type) : Iface := ⟨(k : K) × Call (V k), fun c => Reply c.2⟩

/-- A program on one of the variables. -/
def within {α : Type} (k : K) : Prog (OnceIface (V k)) ε α → Prog (FamilyIface V) ε α
  | .ret r => .ret r
  | .call c f => .call ⟨k, c⟩ fun o => within k (f o)

/-- A thread uses objects, one after the other, and goes on where that raises. -/
def useAll (get : (k : K) → Prog (OnceIface (V k)) ε (Option (V k))) :
    List K → Prog (FamilyIface V) ε Unit
  | [] => pure ()
  | k :: rest => do
    tryCatch (within k (useWith (get k))) fun _ => pure ()
    useAll get rest

def familyAnswers : Answers (FamilyIface V) ε ((k : K) → Var (V k)) := fun c s o s' =>
  ∃ v, answers c.2 (s c.1) o v ∧ s' = Function.update s c.1 v

/-- The threads that use the objects. -/
def users (get : (k : K) → Prog (OnceIface (V k)) ε (Option (V k))) :
    Scheduler (FamilyIface V) ε ((k : K) → Var (V k)) ((k : K) → Note (V k)) where
  answers := familyAnswers
  starts prog := ∃ ks, prog = useAll get ks
  fresh _ := .idle
  noted note c o := Function.update note c.1 ((note c.1).noted c.2 o)

abbrev Users (V : K → Type) (ε : Type) :=
  Threads (FamilyIface V) ε ((k : K) → Var (V k)) ((k : K) → Note (V k))

abbrev FamilyKeeps {α : Type} (prog : Prog (FamilyIface V) ε α)
    (Q : Except ε α → ((k : K) → Note (V k)) → Prop)
    (note : (k : K) → Note (V k)) : Prop :=
  wp (users fun k => (getOrMake : Prog (OnceIface (V k)) ε (Option (V k)))).noting
    (fun c note => Guard c.2 (note c.1)) prog Q note

/-- What a program does with its variable, and that it leaves the others alone. -/
theorem familyKeeps_within {α : Type} {k : K} {prog : Prog (OnceIface (V k)) ε α}
    {Q : Except ε α → Note (V k) → Prop}
    {note : (k : K) → Note (V k)} (h : Keeps prog Q (note k)) :
    FamilyKeeps (within k prog) (fun r note' => ∃ n, note' = Function.update note k n ∧ Q r n) note := by
  induction prog generalizing note with
  | ret r => exact ⟨note k, (Function.update_eq_self k note).symm, h⟩
  | call c f ih =>
    refine ⟨h.1, ?_⟩
    rintro o note' ⟨⟨s, s', v, hanswers, -⟩, rfl⟩
    have hrest : Keeps (f o) Q (Function.update note k ((note k).noted c o) k) := by
      rw [Function.update_self]
      exact h.2 o _ ⟨⟨_, _, hanswers⟩, rfl⟩
    refine wp_mono (ih o hrest) ?_
    rintro r note' ⟨n, rfl, hr⟩
    exact ⟨n, Function.update_idem _ _ _, hr⟩

theorem familyKeeps_useAll (ks : List K) :
    FamilyKeeps (useAll (fun k => (getOrMake : Prog (OnceIface (V k)) ε (Option (V k)))) ks)
      (fun _ note => ∀ k, note k = .idle) fun _ => .idle := by
  induction ks with
  | nil => exact fun _ => rfl
  | cons k rest ih =>
    refine wp_bind.mpr (wp_tryCatch.mpr (wp_mono (familyKeeps_within keeps_useWith) ?_))
    rintro r note ⟨n, rfl, rfl⟩
    rw [Function.update_eq_self]
    cases r with
    | ok _ => exact ih
    | error e => exact ih

/-- The thread is about to use what it has got. -/
def Uses (k : K) (obj : Option (V k)) (t : Thread (FamilyIface V) ε ((k : K) → Note (V k))) : Prop :=
  ∃ f, t.rest = .call ⟨k, .use obj⟩ f

def Finished (threads : Users V ε) : Prop := ∀ t ∈ threads.threads, ∃ r, t.rest = .ret r

/-- No more than one object is made, it is the one that every thread uses, and the lock comes back. -/
structure MadeOnce (threads : Users V ε) (k : K) : Prop where
  made : (threads.shared k).made.length ≤ 1
  used : ∀ t ∈ threads.threads, ∀ used, Uses k used t → ∃ obj, used = some obj ∧ (threads.shared k).made = [obj]
  unlocked : Finished threads → (threads.shared k).locked = false

variable {threads : Users V ε}

/-- What the threads of a run satisfy. -/
theorem users_inv
    (hrun : (users fun k => (getOrMake : Prog (OnceIface (V k)) ε (Option (V k)))).Run
      (fun _ => .start) threads) :
    (∀ k, (threads.shared k).Inv ((threads.threads.map Thread.note).map (· k))) ∧
      ∀ t ∈ threads.threads, FamilyKeeps t.rest (fun _ note => ∀ k, note k = .idle) t.note := by
  refine Scheduler.run_inv (J := fun s notes => ∀ k, (s k).Inv (notes.map (· k))) ?_ (fun k => .start) ?_ ?_ hrun
  · rintro _ ⟨ks, rfl⟩
    exact familyKeeps_useAll ks
  · intro s notes hinv k
    rw [List.map_append]
    exact (hinv k).join
  · rintro ⟨k, c⟩ s o s' before note after hguard ⟨v, hanswers, rfl⟩ hinv j
    have hj := hinv j
    rw [List.map_append, List.map_cons] at hj ⊢
    by_cases hjk : j = k
    · subst hjk
      change (Function.update s j v j).Inv (_ ++ Function.update note j _ j :: _)
      rw [Function.update_self, Function.update_self]
      exact hj.call hguard hanswers
    · change (Function.update s k v j).Inv (_ ++ Function.update note k _ j :: _)
      rw [Function.update_of_ne hjk, Function.update_of_ne hjk]
      exact hj

theorem madeOnce_of_run (k : K)
    (hrun : (users fun k => (getOrMake : Prog (OnceIface (V k)) ε (Option (V k)))).Run
      (fun _ => .start) threads) :
    MadeOnce threads k := by
  obtain ⟨hinv, hthreads⟩ := users_inv hrun
  refine ⟨?_, fun t ht used huses => ?_, fun hfinished => ?_⟩
  · cases hvalue : (threads.shared k).value with
    | some obj => rw [(hinv k).full obj hvalue]; exact Nat.le_refl 1
    | none =>
      rcases (hinv k).empty hvalue with hmade | ⟨obj, hmade, -⟩
      · rw [hmade]
        exact Nat.zero_le 1
      · rw [hmade]
        exact Nat.le_refl 1
  · obtain ⟨f, hrest⟩ := huses
    have hkeeps := hthreads t ht
    rw [hrest] at hkeeps
    have hnote : t.note k = .ofValue used := hkeeps.1
    have hsound := (hinv k).sound (t.note k) (List.mem_map_of_mem (List.mem_map_of_mem ht))
    rw [hnote] at hsound
    cases used with
    | none => exact hsound.elim
    | some obj => exact ⟨obj, rfl, (hinv k).full obj hsound⟩
  · by_contra hlocked
    have hcount := (hinv k).locks
    rw [if_pos (by simpa using hlocked)] at hcount
    have hnone : ((threads.threads.map Thread.note).map (· k)).countP Note.hasLock = 0 := by
      rw [List.countP_eq_zero, List.map_map]
      intro note hnote
      obtain ⟨t, ht, rfl⟩ := List.mem_map.mp hnote
      obtain ⟨r, hr⟩ := hfinished t ht
      have hidle : t.note k = .idle := Scheduler.note_of_finished (hthreads t ht) hr k
      simp [hidle, Note.hasLock]
    omega

end

end Effects.Once
