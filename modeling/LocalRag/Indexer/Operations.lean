-- SUMMARY: The operations that change the two stores, and which of their parts keep an invariant of the stores.
import LocalRag.Common.ServiceLaws
import LocalRag.Indexer.Watcher

/-!
# Operations on the stores

The points and the fingerprints are two stores. Most of the code reads, or removes
one document from both: an invariant that calls of the first kind keep, and that
`remove_indexed_document` keeps, is kept by every operation but the indexing job and
the reset.
-/

namespace LocalRag

open PyText PyPath Effects

/-- The operations that change the two stores. -/
inductive Operation where
  | indexIfChanged (p : PurePath)
  | onDeleted (h : WatchHandler) (event : WatchHandler.FileEvent)
  | cleanupStale (accessibleRoots : Option (List PurePath))
  | purgeIgnored (config : WatcherConfig) (apply : Bool)
  | resetCollection

def Operation.program (env : Env) : Operation → App Unit
  | .indexIfChanged p => do let _ ← LocalRag.indexIfChanged env p; pure ()
  | .onDeleted h event => h.onDeleted env event
  | .cleanupStale roots => do let _ ← LocalRag.cleanupStale roots; pure ()
  | .purgeIgnored config apply => do let _ ← LocalRag.purgeIgnored env config apply; pure ()
  | .resetCollection => LocalRag.resetCollection false

/-- The call changes neither the points nor the fingerprints. -/
def Call.leavesStores : Call → Bool
  | .upsert _ | .delete _ | .deleteCollection | .upsertHash _ _ | .deleteHash _ | .clearHashes => false
  | _ => true

/-- Wherever the program is run with `J`, its calls are as `G` says and `J` holds at its end. -/
def Keeps {α : Type} (env : Env) (mayFail : Call → World → Prop) (G : Call → Traced → Prop)
    (J : World → Prop) (prog : App α) : Prop :=
  ∀ s : Traced, J s.1 → wp ((services env).answers mayFail) G prog (fun _ s' => J s'.1) s

/-- The calls that leave the stores alone and the removal of a document keep `J`. -/
structure StoreInvariant (env : Env) (mayFail : Call → World → Prop) (G : Call → Traced → Prop)
    (J : World → Prop) : Prop where
  guard : ∀ c s, J s.1 → G c s
  serve : ∀ c w, c.leavesStores = true → J w → J (serve env c w).2
  remove : ∀ q, Keeps env mayFail G J (removeIndexedDocument q)

namespace Keeps

variable {env : Env} {mayFail : Call → World → Prop} {G : Call → Traced → Prop} {J : World → Prop}
  {α β : Type}

theorem pure (a : α) : Keeps env mayFail G J (Pure.pure a : App α) := fun _ hs => hs

theorem throw (e : Exn) : Keeps env mayFail G J (MonadExcept.throw e : App α) := fun _ hs => hs

theorem bind {prog : App α} {f : α → App β} (hprog : Keeps env mayFail G J prog)
    (hf : ∀ a, Keeps env mayFail G J (f a)) : Keeps env mayFail G J (prog >>= f) := by
  refine fun s hs => wp_bind.mpr (wp_mono (hprog s hs) fun r s' hs' => ?_)
  cases r with
  | ok a => exact hf a s' hs'
  | error e => exact hs'

theorem orElse {prog : App α} (hprog : Keeps env mayFail G J prog) (a : α) :
    Keeps env mayFail G J (LocalRag.orElse prog a) := by
  refine fun s hs => wp_tryCatch.mpr (wp_mono (hprog s hs) fun r s' hs' => ?_)
  cases r <;> exact hs'

theorem forEach {body : α → App Unit} (hbody : ∀ a, Keeps env mayFail G J (body a)) (l : List α) :
    Keeps env mayFail G J (LocalRag.forEach body l) := by
  induction l with
  | nil => exact .pure _
  | cons a rest ih => exact .bind (hbody a) fun _ => ih

/-! ### Parts that leave both stores alone -/

section Leaves

variable (hcall : ∀ c : Call, c.leavesStores = true → Keeps env mayFail G J (LocalRag.call c))

include hcall

theorem brokenMountFor (path : PurePath) (roots : List PurePath) :
    Keeps env mayFail G J (WatchHandler.brokenMountFor path roots) := by
  induction roots with
  | nil => exact .pure _
  | cons root rest ih =>
    unfold WatchHandler.brokenMountFor WatchHandler.isEmptyDir
    split
    · refine .bind (.orElse (.bind (hcall _ rfl) fun _ => .pure _) _) fun empty => ?_
      split
      · exact .pure _
      · exact ih
    · exact ih

theorem accessibleRoots (entries : List WatchEntry) :
    Keeps env mayFail G J (LocalRag.accessibleRoots entries) := by
  induction entries with
  | nil => exact .pure _
  | cons entry rest ih =>
    unfold LocalRag.accessibleRoots
    refine .bind (hcall _ rfl) fun (root : PurePath) => .bind (hcall _ rfl) fun (found : Bool) => ?_
    split
    · exact .bind (hcall _ rfl) fun _ => .bind ih fun _ => .pure _
    · exact ih

theorem findIgnoredPaths (config : WatcherConfig) :
    Keeps env mayFail G J (LocalRag.findIgnoredPaths env config) := by
  unfold LocalRag.findIgnoredPaths
  split
  · exact .throw _
  · refine .bind (.accessibleRoots hcall _) fun roots => ?_
    split
    · exact .throw _
    · exact .bind (hcall _ rfl) fun _ => .pure _

theorem validateRequiredMounts (mounts : List RequiredMount) :
    Keeps env mayFail G J (LocalRag.validateRequiredMounts mounts) := by
  induction mounts with
  | nil => exact .pure _
  | cons entry rest ih =>
    have hrest : ∀ (root : PurePath) (empty : Bool), Keeps env mayFail G J
        (if empty then MonadExcept.throw (Exn.mountEmpty root)
          else LocalRag.validateRequiredMounts rest >>= fun roots => Pure.pure (root :: roots)) := by
      intro root empty
      split
      · exact .throw _
      · exact .bind ih fun _ => .pure _
    unfold LocalRag.validateRequiredMounts
    refine .bind (hcall _ rfl) fun (root : PurePath) => .bind (hcall _ rfl) fun (found : Bool) => ?_
    split
    · exact .throw _
    split
    · exact .bind (hcall _ rfl) fun (children : List PurePath) => hrest root children.isEmpty
    · exact hrest root false

theorem iterWatchPaths (entries : List WatchEntry) :
    Keeps env mayFail G J (LocalRag.iterWatchPaths entries) := by
  induction entries with
  | nil => exact .pure _
  | cons entry rest ih =>
    unfold LocalRag.iterWatchPaths
    refine .bind (hcall _ rfl) fun (root : PurePath) => .bind (hcall _ rfl) fun (found : Bool) => ?_
    split
    · exact .bind (hcall _ rfl) fun _ => .bind ih fun _ => .pure _
    · exact ih

theorem enqueueFiles (h : WatchHandler) (paths : List PurePath) :
    Keeps env mayFail G J (LocalRag.enqueueFiles h env paths) := by
  refine .forEach (fun f => .bind (hcall (.isFile f) rfl) fun (isFile : Bool) => ?_) paths
  unfold WatchHandler.enqueue
  split
  · split
    · exact .bind (hcall _ rfl) fun _ => hcall _ rfl
    · exact .pure _
  · exact .pure _

theorem forSchedulableDirs {excludeDirs : List Text} {visit : PurePath → App Unit}
    (hvisit : ∀ dir, Keeps env mayFail G J (visit dir)) (frames : ℕ) (root : PurePath) :
    Keeps env mayFail G J (LocalRag.forSchedulableDirs excludeDirs visit frames root) := by
  induction frames generalizing root with
  | zero => exact .throw _
  | succ frames ih =>
    unfold LocalRag.forSchedulableDirs
    refine .bind (hvisit root) fun _ => .bind (hcall _ rfl) fun _ => .forEach (fun child => ?_) _
    refine .bind (hcall _ rfl) fun (isDir : Bool) => ?_
    split
    · exact ih child
    · exact .pure _

theorem initialScan (h : WatchHandler) (pairs : List (WatchEntry × PurePath)) :
    Keeps env mayFail G J (LocalRag.initialScan h env pairs) := by
  refine .forEach (fun pair => ?_) pairs
  unfold scanEntry
  split
  · exact .forSchedulableDirs hcall (fun _ => .bind (hcall _ rfl) fun _ => .enqueueFiles hcall h _) _ _
  split
  · exact .bind (hcall _ rfl) fun _ => .enqueueFiles hcall h _
  · exact .bind (hcall _ rfl) fun _ => .enqueueFiles hcall h _

end Leaves

/-! ### Operations -/

variable (hJ : StoreInvariant env mayFail G J)

include hJ

/-- A call that leaves both stores alone, or fails. -/
theorem call (c : Call) (hc : c.leavesStores = true) : Keeps env mayFail G J (LocalRag.call c) :=
  fun s hs => wp_call.mpr ⟨hJ.guard c s hs, hJ.serve c s.1 hc hs, fun _ => hs⟩

theorem onDeleted (h : WatchHandler) (event : WatchHandler.FileEvent) :
    Keeps env mayFail G J (h.onDeleted env event) := by
  unfold WatchHandler.onDeleted
  split
  · exact .pure _
  · refine .bind (.brokenMountFor (.call hJ) _ _) fun brokenRoot => ?_
    split
    · exact .pure _
    · exact .bind (.call hJ _ rfl) fun p => .orElse (hJ.remove p) _

theorem cleanupPaths (roots : Option (List PurePath)) (paths : List PurePath) :
    Keeps env mayFail G J (LocalRag.cleanupPaths roots paths) := by
  induction paths with
  | nil => exact .pure _
  | cons path rest ih =>
    unfold LocalRag.cleanupPaths
    split
    · exact ih
    · refine .bind (.call hJ _ rfl) fun (found : Bool) => ?_
      split
      · exact ih
      · exact .bind (hJ.remove _) fun _ => .bind ih fun _ => .pure _

theorem cleanupStale (roots : Option (List PurePath)) :
    Keeps env mayFail G J (LocalRag.cleanupStale roots) :=
  .bind (.call hJ _ rfl) fun paths => .cleanupPaths hJ roots paths

theorem removeAll (paths : List PurePath) : Keeps env mayFail G J (LocalRag.removeAll paths) := by
  induction paths with
  | nil => exact .pure _
  | cons path rest ih => exact .bind (hJ.remove _) fun _ => ih

theorem purgeIgnored (config : WatcherConfig) (apply : Bool) :
    Keeps env mayFail G J (LocalRag.purgeIgnored env config apply) := by
  unfold LocalRag.purgeIgnored
  refine .bind (.call hJ _ rfl) fun _ => .bind (.findIgnoredPaths (.call hJ) config) fun ignored => ?_
  split
  · exact .bind (.removeAll hJ ignored) fun _ => .pure _
  · exact .pure _

/-- All operations but the indexing job and the reset. -/
theorem operation (o : Operation) (hjob : ∀ p, o ≠ .indexIfChanged p) (hreset : o ≠ .resetCollection) :
    Keeps env mayFail G J (o.program env) := by
  cases o with
  | indexIfChanged p => exact absurd rfl (hjob p)
  | onDeleted h event => exact .onDeleted hJ h event
  | cleanupStale roots => exact .bind (.cleanupStale hJ roots) fun _ => .pure _
  | purgeIgnored config apply => exact .bind (.purgeIgnored hJ config apply) fun _ => .pure _
  | resetCollection => exact absurd rfl hreset

end Keeps

end LocalRag
