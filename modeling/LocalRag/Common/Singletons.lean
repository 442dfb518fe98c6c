-- SUMMARY: The objects that a process makes on first use: the Qdrant client (`common/qdrant.py`) and the reranker (`api/retrieval.py`).
import LocalRag.Base.Once

/-!
# Singletons

The threads that answer questions share one client and one reranker. Whichever of them
comes first makes it. Loading the reranker may fail, and is then tried again.
-/

namespace LocalRag.Singletons

open Effects Once

variable {ε : Type}

inductive Singleton where
  /-- `_qdrant_client` -/
  | qdrantClient
  /-- `_reranker` -/
  | reranker
  deriving DecidableEq

/-- A `QdrantClient`, by its identity. -/
structure QdrantClient where
  id : ℕ

/-- A `CrossEncoder`, by its identity. -/
structure CrossEncoder where
  id : ℕ

abbrev Object : Singleton → Type
  | .qdrantClient => QdrantClient
  | .reranker => CrossEncoder

/-- `get_qdrant_client`. -/
def getQdrantClient : Prog (OnceIface QdrantClient) ε (Option QdrantClient) := getOrMake

/-- `_get_reranker`. -/
def getReranker : Prog (OnceIface CrossEncoder) ε (Option CrossEncoder) := getOrMake

def Singleton.get : (k : Singleton) → Prog (OnceIface (Object k)) ε (Option (Object k))
  | .qdrantClient => getQdrantClient
  | .reranker => getReranker

theorem get_eq : (Singleton.get : (k : Singleton) → Prog (OnceIface (Object k)) ε (Option (Object k))) =
    fun _ => getOrMake := by
  funext k
  cases k <;> rfl

/-- The threads that use the client and the reranker. -/
def singletonUsers :
    Scheduler (FamilyIface Object) ε ((k : Singleton) → Var (Object k)) ((k : Singleton) → Note (Object k)) :=
  users Singleton.get

/-- Whatever threads use the client and the reranker, and in whatever order they run, the process
makes no more than one of each. Every thread uses the one that was made, and the locks come back. -/
theorem singletons_made_once (threads : Users Object ε)
    (hrun : singletonUsers.Run (fun _ => .start) threads) (k : Singleton) : MadeOnce threads k := by
  rw [singletonUsers, get_eq] at hrun
  exact madeOnce_of_run k hrun

/-! ## Example -/

/-- The only thread makes its next call. -/
theorem step_only {shared : (k : Singleton) → Var (Object k)} {note : (k : Singleton) → Note (Object k)}
    {c : (FamilyIface Object).Call}
    {f : Except ε ((FamilyIface Object).Reply c) → Prog (FamilyIface Object) ε Unit}
    {o : Except ε ((FamilyIface Object).Reply c)} {v : Var (Object c.1)}
    (hanswers : answers c.2 (shared c.1) o v) :
    singletonUsers.Step ⟨shared, [⟨.call c f, note⟩]⟩
      ⟨Function.update shared c.1 v, [⟨f o, Function.update note c.1 ((note c.1).noted c.2 o)⟩]⟩ := by
  have hstep : singletonUsers.Step ⟨shared, [] ++ ⟨.call c f, note⟩ :: []⟩
      ⟨_, [] ++ ⟨f o, _⟩ :: []⟩ := .serve rfl ⟨v, hanswers, rfl⟩
  exact hstep

/-- A thread that has found no reranker, and has made one. -/
theorem sample_run : ∃ threads : Users Object Unit, singletonUsers.Run (fun _ => .start) threads ∧
    ∃ t ∈ threads.threads, Uses .reranker (some ⟨0⟩) t := by
  have hstart : (singletonUsers : Scheduler _ Unit _ _).Run (fun _ => .start)
      ⟨fun _ => .start, [⟨useAll Singleton.get [.reranker], _⟩]⟩ :=
    .single (.start ⟨[.reranker], rfl⟩)
  have hread := hstart.tail (step_only (c := ⟨.reranker, .read⟩) (o := .ok none) ⟨rfl, rfl⟩)
  have hacquire := hread.tail (step_only (c := ⟨.reranker, .acquire⟩) (o := .ok ()) ⟨rfl, rfl⟩)
  have hagain := hacquire.tail (step_only (c := ⟨.reranker, .read⟩) (o := .ok none) ⟨rfl, rfl⟩)
  have hmake := hagain.tail (step_only (c := ⟨.reranker, .make⟩) (o := .ok (CrossEncoder.mk 0)) rfl)
  have hwrite := hmake.tail (step_only (c := ⟨.reranker, .write ⟨0⟩⟩) (o := .ok ()) rfl)
  have hrelease := hwrite.tail (step_only (c := ⟨.reranker, .release⟩) (o := .ok ()) rfl)
  have hlast := hrelease.tail (step_only (c := ⟨.reranker, .read⟩) (o := .ok (some ⟨0⟩)) ⟨rfl, rfl⟩)
  exact ⟨_, hlast, _, List.mem_singleton_self _, _, rfl⟩

/-- It uses the reranker that was made. -/
theorem singletons_made_once_sample : ∃ threads : Users Object Unit,
    MadeOnce threads .reranker ∧ ∃ t ∈ threads.threads, Uses .reranker (some ⟨0⟩) t := by
  obtain ⟨threads, hrun, huses⟩ := sample_run
  exact ⟨threads, singletons_made_once threads hrun .reranker, huses⟩

end LocalRag.Singletons
