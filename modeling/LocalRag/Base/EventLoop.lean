-- SUMMARY: Tasks of an event loop: they run without interruption until they wait, and the invariant rule for them.
import LocalRag.Base.Preserves
import LocalRag.Base.Threads

/-!
# Event loops

Tasks share a state, and take turns. In its turn a task runs without interruption until
it waits for an answer or has finished, so that an invariant need not hold within a
turn. Where a task waits, all that it knows of the state afterwards is the invariant.
-/

namespace Effects

/-- How tasks run. -/
structure EventLoop (I : Iface) (ε S N : Type) where
  answers : Answers I ε S
  /-- The calls that end a turn. -/
  waits : I.Call → Bool
  /-- The programs that may be started. -/
  starts : S → Prog I ε Unit → Prop
  fresh : N
  /-- What is noted of a call. -/
  noted : N → (c : I.Call) → Except ε (I.Reply c) → N

namespace EventLoop

variable {I : Iface} {ε S N α : Type} (loop : EventLoop I ε S N)

/-- What is left of a turn, and how it ends. -/
inductive Turn : Prog I ε Unit → N → S → Prog I ε Unit → N → S → Prop where
  | finish {r : Except ε Unit} {note : N} {s : S} : Turn (.ret r) note s (.ret r) note s
  | wait {c : I.Call} {k : Except ε (I.Reply c) → Prog I ε Unit} {note : N} {s : S}
    (hwaits : loop.waits c = true) : Turn (.call c k) note s (.call c k) note s
  | call {c : I.Call} {k : Except ε (I.Reply c) → Prog I ε Unit} {note : N} {s s' : S}
    {o : Except ε (I.Reply c)} {rest : Prog I ε Unit} {note' : N} {s'' : S} (hwaits : loop.waits c = false)
    (hanswers : loop.answers c s o s') (hturn : Turn (k o) (loop.noted note c o) s' rest note' s'') :
    Turn (.call c k) note s rest note' s''

/-- A task starts, or a task gets the answer it waits for. -/
inductive Step : Threads I ε S N → Threads I ε S N → Prop where
  | start {s : Threads I ε S N} {prog rest : Prog I ε Unit} {note : N} {shared : S}
    (hstarts : loop.starts s.shared prog) (hturn : loop.Turn prog loop.fresh s.shared rest note shared) :
    Step s ⟨shared, s.threads ++ [⟨rest, note⟩]⟩
  | serve {s : Threads I ε S N} {before after : List (Thread I ε N)} {c : I.Call}
    {k : Except ε (I.Reply c) → Prog I ε Unit} {note note' : N} {o : Except ε (I.Reply c)}
    {shared shared' : S} {rest : Prog I ε Unit}
    (hthreads : s.threads = before ++ ⟨.call c k, note⟩ :: after)
    (hanswers : loop.answers c s.shared o shared)
    (hturn : loop.Turn (k o) (loop.noted note c o) shared rest note' shared') :
    Step s ⟨shared', before ++ ⟨rest, note'⟩ :: after⟩

abbrev Run (shared : S) (s : Threads I ε S N) : Prop :=
  Relation.ReflTransGen loop.Step ⟨shared, []⟩ s

/-! ## Verifying a task -/

/-- The state within a turn, as the task sees it: its own note stands between those of the others. -/
structure Sight (S N : Type) where
  shared : S
  before : List N
  note : N
  after : List N

def Sight.notes (v : Sight S N) : List N := v.before ++ v.note :: v.after

variable (J : S → List N → Prop)

/-- What the invariant says of a state within a turn. -/
def Sight.Sound (v : Sight S N) : Prop := J v.shared v.notes

/-- The answers as a task sees them. While it waits, the others take their turns. -/
def seeing : Answers I ε (Sight S N) := fun c v o v' =>
  if loop.waits c then
    ∃ shared before after shared', J shared (before ++ v.note :: after) ∧ loop.answers c shared o shared' ∧
      v' = ⟨shared', before, loop.noted v.note c o, after⟩
  else ∃ shared', loop.answers c v.shared o shared' ∧ v' = ⟨shared', v.before, loop.noted v.note c o, v.after⟩

/-- The invariant holds where a turn ends. -/
def SoundWaits (c : I.Call) (v : Sight S N) : Prop := loop.waits c = true → v.Sound J

/-- The task keeps the invariant: from a state within a turn, each turn ends where the invariant
holds. -/
abbrev Keeps (prog : Prog I ε α) (Q : Except ε α → Sight S N → Prop) (v : Sight S N) : Prop :=
  wp (loop.seeing J) (loop.SoundWaits J) prog Q v

/-- A task that has finished has left the invariant and a note with `P`. -/
def Ends (P : N → Prop) : Except ε Unit → Sight S N → Prop := fun _ v => v.Sound J ∧ P v.note

variable {loop} {J} {P : N → Prop}

/-- A call within a turn. -/
theorem keeps_call {c : I.Call} {Q : Except ε (I.Reply c) → Sight S N → Prop} {v : Sight S N}
    (hwaits : loop.waits c = false) (hQ : ∀ o shared, loop.answers c v.shared o shared →
      Q o ⟨shared, v.before, loop.noted v.note c o, v.after⟩) : loop.Keeps J (Prog.lift c) Q v := by
  refine wp_lift.mpr ⟨fun h => absurd (hwaits.symm.trans h) Bool.false_ne_true, fun o v' hv' => ?_⟩
  rw [seeing, if_neg (by rw [hwaits]; exact Bool.false_ne_true)] at hv'
  obtain ⟨shared, hanswers, rfl⟩ := hv'
  exact hQ o shared hanswers

/-- A call that ends the turn. -/
theorem keeps_wait {c : I.Call} {Q : Except ε (I.Reply c) → Sight S N → Prop} {v : Sight S N}
    (hwaits : loop.waits c = true) (hsound : v.Sound J)
    (hQ : ∀ o shared before after shared', J shared (before ++ v.note :: after) →
      loop.answers c shared o shared' → Q o ⟨shared', before, loop.noted v.note c o, after⟩) :
    loop.Keeps J (Prog.lift c) Q v := by
  refine wp_lift.mpr ⟨fun _ => hsound, fun o v' hv' => ?_⟩
  rw [seeing, if_pos hwaits] at hv'
  obtain ⟨shared, before, after, shared', hinv, hanswers, rfl⟩ := hv'
  exact hQ o shared before after shared' hinv hanswers

/-- A turn of a task that keeps the invariant. -/
theorem Turn.keeps {prog rest : Prog I ε Unit} {note note' : N} {s s' : S}
    (hturn : loop.Turn prog note s rest note' s')
    {before after : List N} (h : loop.Keeps J prog (Ends J P) ⟨s, before, note, after⟩) :
    J s' (before ++ note' :: after) ∧ loop.Keeps J rest (Ends J P) ⟨s', before, note', after⟩ := by
  induction hturn with
  | finish => exact ⟨h.1, h⟩
  | wait hwaits => exact ⟨h.1 hwaits, h⟩
  | call hwaits hanswers _ ih =>
    refine ih (h.2 _ _ ?_)
    rw [seeing, if_neg (by rw [hwaits]; exact Bool.false_ne_true)]
    exact ⟨_, hanswers, rfl⟩

/-- What is left of a task that waits does not depend on the state that it has left. -/
def Waiting (loop : EventLoop I ε S N) (J : S → List N → Prop) (P : N → Prop) (t : Thread I ε N) :
    Prop :=
  (∀ r, t.rest = .ret r → P t.note) ∧
    ∀ c k, t.rest = .call c k → loop.waits c = true ∧
      ∀ shared before after o shared', J shared (before ++ t.note :: after) → loop.answers c shared o shared' →
        loop.Keeps J (k o) (Ends J P) ⟨shared', before, loop.noted t.note c o, after⟩

theorem Turn.waiting {prog rest : Prog I ε Unit} {note note' : N} {s s' : S}
    (hturn : loop.Turn prog note s rest note' s') {before after : List N}
    (h : loop.Keeps J prog (Ends J P) ⟨s, before, note, after⟩) : loop.Waiting J P ⟨rest, note'⟩ := by
  have hrest := (hturn.keeps h).2
  have hstops : ∀ c k, rest = .call c k → loop.waits c = true := by
    clear h hrest
    induction hturn with
    | finish => exact nofun
    | wait hwaits =>
      rintro c k h
      obtain ⟨rfl, -⟩ := Prog.call.inj h
      exact hwaits
    | call _ _ _ ih => exact ih
  refine ⟨?_, ?_⟩
  · rintro r rfl
    exact hrest.2
  · rintro c k rfl
    refine ⟨hstops c k rfl, fun shared before' after' o shared' hinv hanswers => hrest.2 o _ ?_⟩
    rw [seeing, if_pos (hstops c k rfl)]
    exact ⟨shared, before', after', shared', hinv, hanswers, rfl⟩

/-- In every state between two turns the invariant holds, and a task that has finished has left a note
with `P`. -/
theorem run_inv {shared : S} {s : Threads I ε S N}
    (hstarts : ∀ shared prog notes, loop.starts shared prog → J shared notes →
      loop.Keeps J prog (Ends J P) ⟨shared, notes, loop.fresh, []⟩)
    (hstart : J shared []) (hrun : loop.Run shared s) :
    J s.shared (s.threads.map Thread.note) ∧ ∀ t ∈ s.threads, loop.Waiting J P t := by
  induction hrun with
  | refl => exact ⟨hstart, nofun⟩
  | @tail s s' _ hstep ih =>
    obtain ⟨hinv, hthreads⟩ := ih
    cases hstep with
    | @start prog rest note shared hprog hturn =>
      have hkeeps := hstarts _ _ _ hprog hinv
      refine ⟨?_, fun t ht => ?_⟩
      · rw [List.map_append]
        exact (hturn.keeps hkeeps).1
      · rcases List.mem_append.mp ht with ht | ht
        · exact hthreads t ht
        · rw [List.mem_singleton.mp ht]
          exact hturn.waiting hkeeps
    | @serve before after c k note note' o shared shared' rest hsplit hanswers hturn =>
      have hmem : (⟨.call c k, note⟩ : Thread I ε N) ∈ s.threads := by simp [hsplit]
      rw [hsplit, List.map_append, List.map_cons] at hinv
      have hkeeps := ((hthreads _ hmem).2 c k rfl).2 _ _ _ o _ hinv hanswers
      refine ⟨?_, fun t ht => ?_⟩
      · rw [List.map_append, List.map_cons]
        exact (hturn.keeps hkeeps).1
      · rcases List.mem_append.mp ht with ht | ht
        · exact hthreads t (by simp [hsplit, ht])
        · rcases List.mem_cons.mp ht with rfl | ht
          · exact hturn.waiting hkeeps
          · exact hthreads t (by simp [hsplit, ht])

/-! ## Calls of a run -/

/-- Any answers, with what is noted of them. -/
def noting (loop : EventLoop I ε S N) : Answers I ε N := fun c note o note' => note' = loop.noted note c o

/-- The calls of a task are as `G` says, by what is noted before. -/
abbrev Notes (loop : EventLoop I ε S N) (G : I.Call → N → Prop) (prog : Prog I ε α) (note : N) : Prop :=
  wp loop.noting G prog (fun _ _ => True) note

variable {G : I.Call → N → Prop}

theorem Turn.notes {prog rest : Prog I ε Unit} {note note' : N} {s s' : S}
    (hturn : loop.Turn prog note s rest note' s') (h : loop.Notes G prog note) :
    loop.Notes G rest note' := by
  induction hturn with
  | finish => exact h
  | wait _ => exact h
  | call _ _ _ ih => exact ih (h.2 _ _ rfl)

end EventLoop

end Effects
