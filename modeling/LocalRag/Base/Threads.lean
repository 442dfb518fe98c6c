-- SUMMARY: Threads that share a state: interleaved runs of programs, and the invariant rule for them.
import LocalRag.Base.Wp

/-!
# Threads

Any number of programs make their calls on one shared state, in any order. Beside
each thread stands a note of what it has done, which no program reads. A thread keeps
to a guard on its calls and its note, whatever the calls are answered: then what every
guarded call preserves holds in every state of every run.
-/

namespace Effects

/-- What is left of a thread, and what is noted of it. -/
structure Thread (I : Iface) (ε N : Type) where
  rest : Prog I ε Unit
  note : N

/-- A shared state and the threads on it. -/
structure Threads (I : Iface) (ε S N : Type) where
  shared : S
  threads : List (Thread I ε N)

/-- How threads run. -/
structure Scheduler (I : Iface) (ε S N : Type) where
  answers : Answers I ε S
  /-- The programs that may be started. -/
  starts : Prog I ε Unit → Prop
  fresh : N
  /-- What is noted of a call. -/
  noted : N → (c : I.Call) → Except ε (I.Reply c) → N

namespace Scheduler

variable {I : Iface} {ε S N : Type} (sched : Scheduler I ε S N)

/-- A thread starts, or a thread makes its next call. -/
inductive Step : Threads I ε S N → Threads I ε S N → Prop where
  | start {s : Threads I ε S N} {prog : Prog I ε Unit} (hstarts : sched.starts prog) :
    Step s { s with threads := s.threads ++ [⟨prog, sched.fresh⟩] }
  | serve {s : Threads I ε S N} {before after : List (Thread I ε N)} {c : I.Call}
    {k : Except ε (I.Reply c) → Prog I ε Unit} {note : N} {o : Except ε (I.Reply c)} {shared : S}
    (hthreads : s.threads = before ++ ⟨.call c k, note⟩ :: after)
    (hanswers : sched.answers c s.shared o shared) :
    Step s ⟨shared, before ++ ⟨k o, sched.noted note c o⟩ :: after⟩

abbrev Run (shared : S) (s : Threads I ε S N) : Prop :=
  Relation.ReflTransGen sched.Step ⟨shared, []⟩ s

/-- The answers that a thread may get, as it notes them. -/
def noting : Answers I ε N := fun c note o note' =>
  (∃ s s', sched.answers c s o s') ∧ note' = sched.noted note c o

variable {sched} {G : I.Call → N → Prop} {Q : N → Prop} {J : S → List N → Prop}

/-- What is left of the threads of a run keeps to the guard, and the shared state and the notes keep
the invariant. -/
theorem run_inv {shared : S} {s : Threads I ε S N}
    (hstarts : ∀ prog, sched.starts prog → wp sched.noting G prog (fun _ => Q) sched.fresh)
    (hstart : J shared []) (hfresh : ∀ s notes, J s notes → J s (notes ++ [sched.fresh]))
    (hcall : ∀ c s o s' before note after, G c note → sched.answers c s o s' →
      J s (before ++ note :: after) → J s' (before ++ sched.noted note c o :: after))
    (hrun : sched.Run shared s) :
    J s.shared (s.threads.map Thread.note) ∧
      ∀ t ∈ s.threads, wp sched.noting G t.rest (fun _ => Q) t.note := by
  induction hrun with
  | refl => exact ⟨hstart, nofun⟩
  | @tail s s' _ hstep ih =>
    obtain ⟨hinv, hthreads⟩ := ih
    cases hstep with
    | @start prog hprog =>
      refine ⟨?_, fun t ht => ?_⟩
      · rw [List.map_append]
        exact hfresh _ _ hinv
      · rcases List.mem_append.mp ht with ht | ht
        · exact hthreads t ht
        · obtain rfl := List.mem_singleton.mp ht
          exact hstarts prog hprog
    | @serve before after c k note o shared hsplit hanswers =>
      have hmem : (⟨.call c k, note⟩ : Thread I ε N) ∈ s.threads := by simp [hsplit]
      obtain ⟨hguard, hrest⟩ := hthreads _ hmem
      refine ⟨?_, fun t ht => ?_⟩
      · rw [hsplit, List.map_append, List.map_cons] at hinv
        rw [List.map_append, List.map_cons]
        exact hcall c _ o _ _ note _ hguard hanswers hinv
      · rcases List.mem_append.mp ht with ht | ht
        · exact hthreads t (by simp [hsplit, ht])
        · rcases List.mem_cons.mp ht with rfl | ht
          · exact hrest o _ ⟨⟨_, _, hanswers⟩, rfl⟩
          · exact hthreads t (by simp [hsplit, ht])

/-- A thread that has finished. -/
theorem note_of_finished {t : Thread I ε N} (hrest : wp sched.noting G t.rest (fun _ => Q) t.note)
    {r : Except ε Unit} (hfinished : t.rest = .ret r) : Q t.note := by
  rw [hfinished] at hrest
  exact hrest

end Scheduler

end Effects
