-- SUMMARY: When ensure_collection takes a half-built collection for ready: runs of calls with failures, lost replies, kills and restarts.
import LocalRag.Common.ServiceLaws
import LocalRag.Ingest.IndexDocuments

/-!
# Setting up the collection

`ensure_collection` creates the collection and then its two payload indexes, with three
requests. If the collection exists, it asks for the sparse vectors only: an attempt that
came to an end between the requests is never completed, and passes for one that was.
-/

namespace LocalRag

open PyText Effects

/-- The collection exists, with its two vectors and the index of both filter fields. -/
def World.Built (s : Settings) (w : World) : Prop :=
  ∃ c, w.collection = some c ∧ (denseVector, ⟨s.vectorSize, .cosine⟩) ∈ c.vectorsConfig ∧
    (sparseVector, .idf) ∈ c.sparseVectorsConfig ∧
    ("filepath".toList, .keyword) ∈ c.payloadIndexes ∧ ("filename".toList, .keyword) ∈ c.payloadIndexes

/-- The call changes neither what there is of the collection but its points, nor
`_collection_ensured`. -/
def Call.leavesLayout : Call → Bool
  | .createCollection _ _ | .createPayloadIndex _ _ | .deleteCollection | .setEnsured _ => false
  | _ => true

/-! ## Runs -/

/-- What may go wrong. -/
structure Faults where
  /-- The call fails, without effect. -/
  fails : Call → Prop
  /-- The call has its effect, and raises. -/
  loses : Call → Prop
  /-- The process is stopped before the call. -/
  stops : Call → Prop

/-- Calls of `ensure_collection`, process after process, and what else the program does to the
collection meanwhile. -/
inductive SetupRun (env : Env) (F : Faults) : World → Prop where
  | fresh {w : World} (hnone : w.collection = none) (hensured : w.ensured = false) : SetupRun env F w
  | ensure {w w' : World} {r : Except Exn Unit} (h : SetupRun env F w)
    (hrun : (ensureCollection env).Steps ((services env).lossy F.fails F.loses) w (.ret r) w') :
    SetupRun env F w'
  | killed {w w' : World} {c : Call} {k : Except Exn (Services.Reply c) → App Unit}
    (h : SetupRun env F w)
    (hrun : (ensureCollection env).Steps ((services env).lossy F.fails F.loses) w (.call c k) w')
    (hstop : F.stops c) : SetupRun env F { w' with ensured := false }
  | restart {w : World} (h : SetupRun env F w) : SetupRun env F { w with ensured := false }
  /-- `reset_collection`, between two processes. -/
  | reset {w : World} (h : SetupRun env F w) :
    SetupRun env F { w with collection := none, ensured := false }
  /-- Points are stored and deleted. -/
  | request {w : World} (c : Call) (hc : c.leavesLayout = true) (h : SetupRun env F w) :
    SetupRun env F (serve env c w).2

/-- Wherever `_collection_ensured` is set, and whenever `ensure_collection` returns, the collection is
ready. -/
def NeverHalfBuilt (env : Env) (F : Faults) : Prop :=
  ∀ w, SetupRun env F w → (w.ensured = true → w.Built env.settings) ∧
    ∀ a w', (ensureCollection env).Steps ((services env).lossy F.fails F.loses) w (.ret (.ok a)) w' →
      w'.Built env.settings

namespace Faults

/-- Any request may fail; nothing else goes wrong. -/
def requests : Faults where
  fails c := c.remote = true
  loses _ := False
  stops _ := False

/-- The call is one of the requests that create the payload indexes. -/
def indexing (c : Call) : Prop := ∃ field schema, c = .createPayloadIndex field schema

/-- Once the collection is created, the attempt gets to its end. -/
def safe : Faults where
  fails c := c.remote = true ∧ ¬ indexing c
  loses c := c.remote = true ∧ c ≠ .createPayloadIndex "filepath".toList .keyword ∧
    ∀ vectors sparse, c ≠ .createCollection vectors sparse
  stops c := ¬ indexing c

end Faults

/-! ## The invariant -/

/-- There is no collection, or it is ready. -/
structure NotHalfBuilt (s : Settings) (w : World) : Prop where
  absent_or_built : w.collection = none ∨ w.Built s
  ensured : w.ensured = true → w.Built s

variable {env : Env} {w w' : World} {s : Settings}

/-- A collection without its points. -/
def Collection.layout (c : Collection) : Collection := { c with points := [] }

theorem serve_layout {c : Call} (hc : c.leavesLayout = true) :
    (serve env c w).2.collection.map Collection.layout = w.collection.map Collection.layout := by
  cases c with
  | createCollection vectors sparse => cases hc
  | createPayloadIndex field schema => cases hc
  | deleteCollection => cases hc
  | upsert points =>
    cases hcol : w.collection <;>
      simp [serve, onCollection, hcol, World.mapPoints, Collection.layout]
  | delete filter =>
    cases hcol : w.collection <;>
      simp [serve, onCollection, hcol, World.mapPoints, Collection.layout]
  | _ => simp only [serve, orRaise, onCollection, onTable] <;> first | rfl | (split <;> rfl)

theorem serve_ensured {c : Call} (hc : c.leavesLayout = true) :
    (serve env c w).2.ensured = w.ensured := by
  cases c with
  | setEnsured value => cases hc
  | _ => simp only [serve, orRaise, onCollection, onTable] <;> first | rfl | (split <;> rfl)

theorem NotHalfBuilt.serve {c : Call} (hc : c.leavesLayout = true) (h : NotHalfBuilt s w) :
    NotHalfBuilt s (serve env c w).2 := by
  have hlayout : (LocalRag.serve env c w).2.collection.map Collection.layout =
      w.collection.map Collection.layout := serve_layout hc
  have hbuilt : w.Built s → (LocalRag.serve env c w).2.Built s := by
    rintro ⟨col, hcol, hready⟩
    rw [hcol] at hlayout
    obtain ⟨col', hcol', hsame⟩ := Option.map_eq_some_iff.mp hlayout
    obtain ⟨hsize, hsparse, hindexes, -⟩ := Collection.mk.inj hsame
    refine ⟨col', hcol', ?_⟩
    rwa [hsize, hsparse, hindexes]
  refine ⟨h.absent_or_built.imp (fun hnone => ?_) hbuilt, fun he => hbuilt (h.ensured ?_)⟩
  · rw [hnone] at hlayout
    exact Option.map_eq_none_iff.mp hlayout
  · exact (serve_ensured hc).symm.trans he

/-! ## One call -/

/-- What a call, made where it may be stopped, finds. -/
def Faults.Guards (F : Faults) (s : Settings) (c : Call) (w : World) : Prop := F.stops c → NotHalfBuilt s w

/-- An attempt that raises. -/
theorem NotHalfBuilt.raises (h : NotHalfBuilt s w) {e : Exn} :
    NotHalfBuilt s w ∧ ∀ a : Unit, Except.error e = .ok a → w.Built s := by
  refine ⟨h, fun a ha => ?_⟩
  cases ha

/-- A call that looks: it finds and leaves the world as it is, whatever goes wrong. -/
theorem notHalfBuilt_looks {c : Call} {Q : Except Exn (Services.Reply c) → World → Prop} (hc : c.looks = true)
    (h : NotHalfBuilt env.settings w) (hok : ∀ a, (serve env c w).1 = .ok a → Q (.ok a) w)
    (herror : ∀ e, Q (.error e) w) :
    wp ((services env).lossy Faults.safe.fails Faults.safe.loses) (Faults.safe.Guards env.settings)
      (call c) Q w := by
  have hworld : (serve env c w).2 = w := serve_looks hc w
  refine wp_lift_lossy.mpr ⟨fun _ => h, ?_, fun _ => herror _, fun _ => ?_⟩
  · change Q (serve env c w).1 (serve env c w).2
    rw [hworld]
    cases hreply : (serve env c w).1 with
    | ok a => exact hok a hreply
    | error e => exact herror e
  · change Q _ (serve env c w).2
    rw [hworld]
    exact herror _

theorem setEnsured_settles (h : w.Built env.settings) :
    wp ((services env).lossy Faults.safe.fails Faults.safe.loses) (Faults.safe.Guards env.settings)
      (call (.setEnsured true))
      (fun r w' => NotHalfBuilt env.settings w' ∧ ∀ a, r = .ok a → w'.Built env.settings) w := by
  refine wp_lift_lossy.mpr ⟨fun _ => ⟨.inr h, fun _ => h⟩, ⟨⟨.inr h, fun _ => h⟩, fun _ _ => h⟩, ?_, ?_⟩
  · intro hfails
    cases hfails.1
  · intro hloses
    cases hloses.1

/-- Nothing goes wrong between the three requests that create the collection. -/
theorem create_settles (hnone : w.collection = none) (hensured : w.ensured = false) :
    wp ((services env).lossy Faults.safe.fails Faults.safe.loses) (Faults.safe.Guards env.settings)
      (do
        call (.createCollection [(denseVector, ⟨env.settings.vectorSize, .cosine⟩)] [(sparseVector, .idf)])
        call (.createPayloadIndex "filepath".toList .keyword)
        call (.createPayloadIndex "filename".toList .keyword)
        call (.setEnsured true))
      (fun r w' => NotHalfBuilt env.settings w' ∧ ∀ a, r = .ok a → w'.Built env.settings) w := by
  -- the first request may fail or be lost: then there is no collection
  have habsent : NotHalfBuilt env.settings w := ⟨.inl hnone, fun he => by rw [hensured] at he; cases he⟩
  refine wp_bind.mpr (wp_lift_lossy.mpr ⟨fun _ => habsent, ?_, fun _ => habsent.raises, fun hl => ?_⟩)
  rotate_left
  · exact absurd rfl (hl.2.2 _ _)
  simp only [services, serve, hnone, onOk]
  -- from here to the second index a stop, a failure or a lost reply is excluded
  refine wp_bind.mpr (wp_lift_lossy.mpr
    ⟨fun hstop => absurd ⟨_, _, rfl⟩ hstop, ?_, fun hf => ?_, fun hl => ?_⟩)
  rotate_left
  · exact absurd ⟨_, _, rfl⟩ hf.2
  · exact absurd rfl hl.2.1
  simp only [serve, onCollection, onOk]
  have hbuilt : World.Built env.settings { w with
      collection := some ⟨[(denseVector, ⟨env.settings.vectorSize, .cosine⟩)], [(sparseVector, .idf)],
        ([] ++ [("filepath".toList, .keyword)]) ++ [("filename".toList, .keyword)], []⟩ } :=
    ⟨_, rfl, by simp, by simp, by simp, by simp⟩
  refine wp_bind.mpr (wp_lift_lossy.mpr
    ⟨fun hstop => absurd ⟨_, _, rfl⟩ hstop, ?_, fun hf => ?_, fun _ => ?_⟩)
  · exact setEnsured_settles hbuilt
  · exact absurd ⟨_, _, rfl⟩ hf.2
  · exact NotHalfBuilt.raises ⟨.inr hbuilt, fun _ => hbuilt⟩

/-- However the attempt ends, nothing is left half-built, and it returns only if all is ready. -/
theorem ensureCollection_settles (h : NotHalfBuilt env.settings w) :
    wp ((services env).lossy Faults.safe.fails Faults.safe.loses) (Faults.safe.Guards env.settings)
      (ensureCollection env)
      (fun r w' => NotHalfBuilt env.settings w' ∧ ∀ a, r = .ok a → w'.Built env.settings) w := by
  unfold ensureCollection
  refine wp_bind.mpr (notHalfBuilt_looks rfl h (fun (ensured : Bool) hreply => ?_) fun _ => h.raises)
  obtain rfl : w.ensured = ensured := Except.ok.inj hreply
  dsimp only [onOk]
  cases hensured : w.ensured with
  | true => exact ⟨h, fun _ _ => h.ensured hensured⟩
  | false =>
  refine wp_bind.mpr (notHalfBuilt_looks rfl h (fun (found : Bool) hreply => ?_) fun _ => h.raises)
  obtain rfl : w.collection.isSome = found := Except.ok.inj hreply
  dsimp only [onOk]
  rcases h.absent_or_built with hnone | hbuilt
  · rw [hnone]
    exact create_settles hnone hensured
  · -- an old layout would raise, but a collection that is there was built in full
    obtain ⟨c, hcol, -, hsparse, -⟩ := id hbuilt
    rw [hcol]
    refine wp_bind.mpr (notHalfBuilt_looks rfl h (fun (sparse : List Text) hreply => ?_) fun _ => h.raises)
    obtain rfl : c.sparseVectors = sparse := by
      simp only [serve, onCollection, hcol] at hreply
      exact Except.ok.inj hreply
    change wp _ _ (if c.sparseVectors.contains sparseVector then call (.setEnsured true)
      else throw Exn.oldLayout >>= fun _ => call (.setEnsured true)) _ w
    have hnamed : sparseVector ∈ c.sparseVectors := List.mem_map_of_mem hsparse
    rw [if_pos (List.contains_iff_mem.mpr hnamed)]
    exact setEnsured_settles hbuilt

/-! ## Runs -/

theorem SetupRun.notHalfBuilt (h : SetupRun env Faults.safe w) : NotHalfBuilt env.settings w := by
  induction h with
  | fresh hnone hensured => exact ⟨.inl hnone, fun he => by rw [hensured] at he; cases he⟩
  | ensure _ hrun ih => exact (wp_steps_post (ensureCollection_settles ih) hrun).1
  | killed _ hrun hstop ih =>
    have hsettled := (wp_steps (ensureCollection_settles ih) hrun).1 hstop
    exact ⟨hsettled.absent_or_built, nofun⟩
  | restart _ ih => exact ⟨ih.absent_or_built, nofun⟩
  | reset _ _ => exact ⟨.inl rfl, nofun⟩
  | request c hc _ ih => exact ih.serve hc

/-- As long as no attempt ends between its requests, the collection is never taken for ready before it
is. -/
theorem ensureCollection_ready (env : Env) : NeverHalfBuilt env Faults.safe := by
  intro w hrun
  have hsettled := hrun.notHalfBuilt
  refine ⟨hsettled.ensured, fun a w' hsteps => ?_⟩
  exact (wp_steps_post (ensureCollection_settles hsettled) hsteps).2 a rfl

/-! ## Examples -/

/-- What an attempt leaves that fails at the first payload index. -/
def halfBuiltWorld : World :=
  { World.sample [] [] with
    collection := some ⟨[(denseVector, ⟨1, .cosine⟩)], [(sparseVector, .idf)], [], []⟩ }

theorem halfBuiltWorld_run : SetupRun Env.sample Faults.requests halfBuiltWorld := by
  refine .ensure (.fresh (w := World.sample [] []) rfl rfl) (r := .error .qdrantRequest) ?_
  refine .call (.inl ⟨rfl, rfl⟩) (.call (.inl ⟨rfl, rfl⟩) (.call (.inl ⟨rfl, rfl⟩) ?_))
  exact .call (.inr ⟨rfl, .inl ⟨rfl, rfl⟩⟩) .refl

/-- The next attempt finds the collection with its sparse vectors, and returns. -/
theorem ensureCollection_not_ready : ¬ NeverHalfBuilt Env.sample Faults.requests := by
  intro hready
  obtain ⟨c, hcol, -, -, hfilepath, -⟩ := (hready _ halfBuiltWorld_run).2 ()
    { halfBuiltWorld with ensured := true } <|
    .call (.inl ⟨rfl, rfl⟩) (.call (.inl ⟨rfl, rfl⟩) (.call (.inl ⟨rfl, rfl⟩)
      (.call (.inl ⟨rfl, rfl⟩) .refl)))
  obtain rfl := Option.some_inj.mp hcol
  cases hfilepath

end LocalRag
