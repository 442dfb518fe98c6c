-- SUMMARY: The failure of a service ends a job: it makes no further call.
import LocalRag.Indexer.Runtime

/-! # Failures end a job -/

namespace LocalRag

open PyText PyPath Effects

/-- Any replies and failures, with whether a call has failed. -/
def FailureMarked (env : Env) : Answers Services Exn Bool :=
  fun c failed o failed' => (failed' = failed ∧ ∃ w, o = (serve env c w).1) ∨
    (c.remote = true ∧ failed' = true ∧ o = .error (serviceFault c))

/-- After a failure the program makes no call. -/
abbrev Stops {α : Type} (env : Env) (prog : App α) (Q : Except Exn α → Bool → Prop) : Prop :=
  wp (FailureMarked env) (fun _ failed => failed = false) prog Q false

/-- After a failure the program raises. -/
abbrev Raises {α : Type} (env : Env) (prog : App α) : Prop :=
  Stops env prog fun r failed => failed = true → ∃ e, r = .error e

variable {env : Env} {α β : Type} {c : Call} {p q : PurePath}

namespace Raises

theorem ret (r : Except Exn α) : Raises env (.ret r) := nofun

theorem call (c : Call) : Raises env (LocalRag.call c) := by
  refine ⟨rfl, ?_⟩
  rintro o failed (⟨rfl, -⟩ | ⟨-, rfl, rfl⟩)
  · exact nofun
  · exact fun _ => ⟨_, rfl⟩

theorem stops_bind {prog : App α} {f : α → App β} {Q : Except Exn β → Bool → Prop}
    (h : Raises env prog) (hf : ∀ a, Stops env (f a) Q) (he : ∀ e failed, Q (.error e) failed) :
    Stops env (prog >>= f) Q := by
  refine wp_bind.mpr (wp_mono h fun r failed hr => ?_)
  cases r with
  | error e => exact he e failed
  | ok a =>
    cases failed with
    | false => exact hf a
    | true =>
      obtain ⟨e, he⟩ := hr rfl
      cases he

theorem bind {prog : App α} {f : α → App β} (h : Raises env prog) (hf : ∀ a, Raises env (f a)) :
    Raises env (prog >>= f) :=
  h.stops_bind hf fun e _ _ => ⟨e, rfl⟩

/-- A failure that is caught. -/
theorem orElse {prog : App α} (h : Raises env prog) (a : α) :
    Stops env (LocalRag.orElse prog a) fun r failed => failed = true → r = .ok a := by
  refine wp_tryCatch.mpr (wp_mono h fun r failed hr => ?_)
  cases r with
  | error e => exact fun _ => rfl
  | ok b =>
    intro hfailed
    obtain ⟨e, he⟩ := hr hfailed
    cases he

theorem normalizePath : Raises env (normalizePath p) := call _

theorem getHash : Raises env (getHash p) := normalizePath.bind fun r => call (.getHash r)

theorem upsertHash (hash : Text) : Raises env (upsertHash p hash) :=
  normalizePath.bind fun r => call (.upsertHash r hash)

theorem removeIndexedDocument : Raises env (removeIndexedDocument p) := by
  have hdocument : ∀ q, Raises env (deleteDocument q) := fun q =>
    normalizePath.bind fun r => call (.delete ⟨r, none⟩)
  have hhash : ∀ q, Raises env (deleteHash q) := fun q =>
    normalizePath.bind fun r => call (.deleteHash r)
  exact normalizePath.bind fun r => (hdocument r).bind fun _ => hhash r

theorem ensureCollection : Raises env (ensureCollection env) := by
  unfold LocalRag.ensureCollection
  refine (call _).bind fun (ensured : Bool) => ?_
  split
  · exact ret _
  refine (call _).bind fun (found : Bool) => ?_
  dsimp only
  split
  · refine (call _).bind fun (sparse : List Text) => ?_
    change Raises env (if sparse.contains sparseVector then LocalRag.call (.setEnsured true)
      else throw Exn.oldLayout >>= fun _ => LocalRag.call (.setEnsured true))
    split
    · exact call _
    · exact (ret _ : Raises env (throw Exn.oldLayout)).bind fun _ => call _
  · exact (call _).bind fun _ => (call _).bind fun _ => (call _).bind fun _ => call _

theorem makePoints (documentId : Text) (total i : ℕ) (l : List (Text × List ℚ)) :
    Raises env (makePoints env p q documentId total l i) := by
  induction l generalizing i with
  | nil => exact ret _
  | cons cv l ih => exact (call _).bind fun _ => (ih (i + 1)).bind fun _ => ret _

theorem embedChunks (chunks : List Text) (documentId : Text) :
    Raises env (embedChunks env p q chunks documentId) := by
  have hembed : Raises env (embedBatch env chunks) := by
    unfold embedBatch
    split
    · exact ret _
    · exact (ret _).bind fun _ => (call _).bind fun _ => ret _
  exact hembed.bind fun _ => makePoints _ _ _ _

end Raises

/-- Reading a file makes no call that could fail. -/
theorem stops_readFile : Stops env (readFile p) fun _ failed => failed = false := by
  have hcall : ∀ {c : Call} {Q : Except Exn (Services.Reply c) → Bool → Prop}, c.remote = false →
      (∀ r, Q r false) → Stops env (call c) Q := by
    intro c Q hc hQ
    refine ⟨rfl, ?_⟩
    rintro o failed (⟨rfl, -⟩ | ⟨hremote, -⟩)
    · exact hQ o
    · rw [hc] at hremote
      cases hremote
  unfold readFile
  refine wp_bind.mpr (hcall rfl fun r => ?_)
  cases r with
  | error e => rfl
  | ok size =>
    dsimp only [onOk]
    split
    · rfl
    · refine wp_tryCatch.mpr (wp_bind.mpr (hcall rfl fun r => ?_))
      cases r <;> rfl

/-- After a failure the attempt is over, and FAILED. -/
def EndsFailed (r : Except Exn IndexDecision) (failed : Bool) : Prop :=
  failed = true → (∃ e, r = .error e) ∨ r = .ok .failed

theorem endsFailed_error (e : Exn) (failed : Bool) : EndsFailed (.error e) failed :=
  fun _ => .inl ⟨e, rfl⟩

theorem stops_upsertChunks (points : List Point) : Stops env (upsertChunks q points) EndsFailed := by
  unfold upsertChunks
  refine (Raises.call _).stops_bind (fun (version : ℕ) => ?_) endsFailed_error
  refine wp_bind.mpr (wp_mono (((Raises.call _).bind fun _ => .ret _).orElse false) fun r failed hr => ?_)
  cases r with
  | error e => exact endsFailed_error e failed
  | ok upserted =>
    dsimp only [onOk]
    split
    · next htrue =>
      obtain rfl : failed = false := by
        cases failed with
        | false => rfl
        | true =>
          cases htrue
          cases hr rfl
      exact wp_mono (((Raises.call _).bind fun _ => .ret _).orElse IndexDecision.failed)
        fun r failed hr h => .inr (hr h)
    · exact fun _ => .inr rfl

theorem stops_indexFile : Stops env (indexFile env p) EndsFailed := by
  unfold indexFile
  refine Raises.ensureCollection.stops_bind (fun _ => ?_) endsFailed_error
  refine Raises.normalizePath.stops_bind (fun r => ?_) endsFailed_error
  refine wp_bind.mpr (wp_mono stops_readFile fun text failed hfailed => ?_)
  obtain rfl := hfailed
  cases text with
  | error e => exact endsFailed_error e _
  | ok text =>
    dsimp only [onOk]
    split
    · exact nofun
    split
    · exact nofun
    refine wp_bind.mpr (wp_mono (Raises.orElse (.bind (.embedChunks _ _) fun _ => .ret _) none)
      fun points failed hpoints => ?_)
    cases points with
    | error e => exact endsFailed_error e _
    | ok points =>
      cases points with
      | none => exact fun _ => .inr rfl
      | some points =>
        cases failed with
        | false => exact stops_upsertChunks points
        | true => cases hpoints rfl

/-- After a failure the job is over. -/
theorem stops_indexIfChanged (p : PurePath) :
    Stops env (indexIfChanged env p) fun _ _ => True := by
  have hchanged : Stops env (indexChanged env p) fun _ _ => True := by
    unfold indexChanged sha256File
    refine ((Raises.call _).bind fun _ => .ret _).stops_bind (fun fileHash => ?_) fun _ _ => trivial
    refine Raises.getHash.stops_bind (fun prev => ?_) fun _ _ => trivial
    split
    · trivial
    refine wp_bind.mpr (wp_mono stops_indexFile fun r failed hr => ?_)
    cases r with
    | error e => trivial
    | ok outcome =>
      cases failed with
      | true =>
        rcases hr rfl with ⟨e, he⟩ | he
        · cases he
        · cases he
          trivial
      | false =>
        dsimp only [onOk]
        split
        · exact (Raises.upsertHash _).stops_bind (fun _ => trivial) fun _ _ => trivial
        · split
          · exact Raises.removeIndexedDocument.stops_bind (fun _ => trivial) fun _ _ => trivial
          · trivial
        · trivial
  unfold indexIfChanged
  refine (Raises.call _).stops_bind (fun (found : Bool) => ?_) fun _ _ => trivial
  split
  · refine wp_tryCatch.mpr (wp_mono hchanged fun r _ _ => ?_)
    cases r <;> trivial
  · trivial

end LocalRag
