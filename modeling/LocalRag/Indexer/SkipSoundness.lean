-- SUMMARY: When a skipped file has exactly the points of its content: runs of the five operations with edits between and failing calls.
import LocalRag.Indexer.Operations
import LocalRag.Ingest.Fresh

/-!
# Soundness of the incremental skip

A file is skipped when its stored fingerprint is the hash of its content. The
fingerprints and the points are two stores, and each operation updates them in
several steps. A failure between two steps is harmless as long as no fingerprint
is stored that speaks for points which are not there.
-/

namespace LocalRag

open PyText PyPath Effects Sql

/-! ## Runs of operations -/

/-- The worker is given the paths that `enqueue` normalized. -/
def Operation.Submitted (fs : FileSystem) : Operation → Prop
  | .indexIfChanged p => ∃ q, fs.normalize q = some p
  | _ => True

/-- Runs of whole operations, each in the process of the watcher or in one of its own, with
any changes to the files between them. -/
inductive Run (env : Env) (mayFail : Call → World → Prop) : World → Prop where
  | start {w : World} (hpoints : w.points = []) (hhashes : ∀ p, w.hashAt p = none) :
    Run env mayFail w
  | edit {w : World} (fs : FileSystem) (h : Run env mayFail w) (hlinks : w.fs.SameLinks fs) :
    Run env mayFail { w with fs }
  | operation {w w' : World} {r : Except Exn Unit} {trace : List (Event Services)} (o : Operation)
    (ensured : Bool) (h : Run env mayFail w) (hsubmitted : o.Submitted w.fs)
    (hrun : (o.program env).Steps ((services env).answers mayFail) ({ w with ensured }, [])
      (.ret r) (w', trace)) : Run env mayFail w'

/-- Embedding, Qdrant upserts and deletes, `delete_collection` and SQLite writes. -/
def Call.transient : Call → Bool
  | .embed _ | .upsert _ | .delete _ | .deleteCollection | .initDb | .upsertHash _ _ | .deleteHash _
  | .clearHashes => true
  | _ => false

/-- Where a path is skipped, it has the points that `index_file` would leave. -/
def SkipSound (env : Env) (mayFail : Call → World → Prop) : Prop :=
  ∀ w, Run env mayFail w → ∀ p s, w.fs.Real p →
    (indexIfChanged env p).Steps ((services env).answers fun _ _ => False) (w, [])
      (.ret (.ok .unchanged)) s →
    ∃ id, w.pointsAt p = freshPoints env w.fs p id

/-- The failure leaves a fingerprint that speaks for points which are not there: the path whose
stale vectors stay, or whose fingerprint is not updated or deleted, has a fingerprint, or the
collection is gone while there are fingerprints. -/
def Call.LosesTrack : Call → World → Prop
  | .delete f, w => f.notVersion.isSome ∧ (w.hashAt f.filepath).isSome
  | .upsertHash p _, w | .deleteHash p, w => (w.hashAt p).isSome
  | .initDb, w | .clearHashes, w => w.collection = none ∧ ∃ p, (w.hashAt p).isSome
  | _, _ => False

/-- The calls that fail without losing track. -/
def harmless (c : Call) (w : World) : Prop := c.transient = true ∧ ¬ c.LosesTrack w

/-! ## The invariant -/

/-- The fingerprint `h` speaks for the points stored under `p`. -/
structure Fingerprinted (env : Env) (w : World) (p : PurePath) (h : Text) : Prop where
  real : w.fs.Real p
  version : ∃ bytes vectors id, env.sha256 bytes = h ∧ bytes.length ≤ Settings.maxFileSize ∧
    documentChunks env p (env.decode bytes) ≠ [] ∧
    embedTexts env (documentChunks env p (env.decode bytes)) = .ok vectors ∧
    w.pointsAt p = versionPoints env p p (env.decode bytes) vectors id

/-- Every fingerprint but those of `except` speaks for the stored points. -/
structure Tracked (env : Env) (except : PurePath → Prop) (w : World) : Prop where
  drawn : w.UuidsDrawn
  fingerprinted : ∀ p h, ¬ except p → w.hashAt p = some h → Fingerprinted env w p h

/-- Every fingerprint speaks for the stored points. -/
abbrev Tracking (env : Env) (w : World) : Prop := Tracked env (fun _ => False) w

variable {env : Env} {w w' w₀ : World} {s : Traced} {p q : PurePath} {except : PurePath → Prop}

theorem Fingerprinted.congr {h : Text} (hf : Fingerprinted env w p h)
    (hlinks : w.fs.SameLinks w'.fs) (hpoints : w'.pointsAt p = w.pointsAt p) :
    Fingerprinted env w' p h := by
  obtain ⟨hreal, bytes, vectors, id, hsha, hsize, hchunks, hembed, hstored⟩ := hf
  exact ⟨hlinks.real.mpr hreal, bytes, vectors, id, hsha, hsize, hchunks, hembed,
    hpoints.trans hstored⟩

/-- A path without a fingerprint needs no exception. -/
theorem Tracked.of_hash_none (h : Tracked env (· = p) w) (hnone : w.hashAt p = none) :
    Tracking env w := by
  refine ⟨h.drawn, fun q hash _ hq => h.fingerprinted q hash ?_ hq⟩
  rintro rfl
  rw [hnone] at hq
  cases hq

theorem World.UuidsDrawn.of_points (h : w.UuidsDrawn) (hpoints : ∀ pt ∈ w'.points, pt ∈ w.points)
    (hnext : w.nextUuid ≤ w'.nextUuid) : w'.UuidsDrawn := by
  intro pt hpt
  obtain ⟨hid, hver⟩ := h pt (hpoints pt hpt)
  exact ⟨hid.trans_le hnext, fun v hv => (hver v hv).trans_le hnext⟩

/-- Changing neither the points nor the fingerprints keeps the agreement. -/
theorem Tracked.congr (h : Tracked env except w) (hlinks : w.fs.SameLinks w'.fs)
    (hpoints : w'.points = w.points) (hhashes : ∀ p, w'.hashAt p = w.hashAt p)
    (hnext : w.nextUuid ≤ w'.nextUuid) : Tracked env except w' := by
  refine ⟨h.drawn.of_points (fun pt hpt => hpoints ▸ hpt) hnext, fun p hash hp hh => ?_⟩
  rw [hhashes] at hh
  exact (h.fingerprinted p hash hp hh).congr hlinks (by rw [World.pointsAt, World.pointsAt, hpoints])

/-! ## Calls that leave both stores alone -/

theorem Tracked.serve {c : Call} (h : Tracked env except w) (hc : c.leavesStores = true) :
    Tracked env except (LocalRag.serve env c w).2 := by
  refine h.congr ?_ (serve_points ?_) (fun p => serve_hashAt ?_) serve_nextUuid_le
  · rw [serve_fs]
    exact .refl _
  · cases c <;> first | rfl | cases hc
  · cases c <;> first | rfl | cases hc

/-! ## Removing a document -/

theorem normalizePath_harmless (q : PurePath) :
    wp ((services env).answers harmless) (fun _ _ => True) (normalizePath q)
      (fun r s' => s'.1 = s.1 ∧ ∀ p, r = .ok p → s.1.fs.normalize q = some p) s := by
  refine wp_call.mpr ⟨trivial, ⟨?_, fun p hp => orRaise_eq_ok_iff.mp hp⟩, fun h => by cases h.1⟩
  simp only [serve, orRaise]
  split <;> rfl

theorem normalizePath_real (hreal : s.1.fs.Real p) :
    wp ((services env).answers harmless) (fun _ _ => True) (normalizePath p)
      (fun r s' => r = .ok p ∧ s'.1 = s.1) s := by
  have hnorm := s.1.fs.normalize_of_real hreal
  refine wp_call.mpr ⟨trivial, ⟨orRaise_eq_ok_iff.mpr hnorm, ?_⟩, fun h => by cases h.1⟩
  simp only [serve, hnorm, orRaise]

/-- The vectors of `p` are deleted, and no other document changes; or nothing changes. -/
theorem deleteDocument_tracked (hs : Tracked env except s.1) (hreal : s.1.fs.Real p) :
    wp ((services env).answers harmless) (fun _ _ => True) (deleteDocument p)
      (fun r s' => s'.1.fs = s.1.fs ∧ match r with
        | .ok _ => Tracked env (fun q => q = p ∨ except q) s'.1
        | .error _ => Tracked env except s'.1) s := by
  unfold deleteDocument
  refine wp_bind.mpr (wp_mono (normalizePath_real hreal) ?_)
  rintro _ s₁ ⟨rfl, hs₁⟩
  rw [← hs₁] at hs ⊢
  dsimp only [onOk]
  refine wp_call.mpr ⟨trivial, ⟨serve_fs, ?_⟩, fun _ => ⟨rfl, hs⟩⟩
  cases hcol : s₁.1.collection with
  | none =>
    simp only [serve, onCollection, hcol]
    exact hs
  | some c =>
    simp only [serve, onCollection, hcol]
    refine ⟨hs.drawn.of_points (fun pt hpt => ?_) le_rfl, fun q h hq hh => ?_⟩
    · rw [points_mapPoints (hcol ▸ rfl)] at hpt
      exact List.mem_of_mem_filter hpt
    · rw [not_or] at hq
      refine (hs.fingerprinted q h hq.2 hh).congr (.refl _) ?_
      rw [pointsAt_mapPoints_delete, if_neg hq.1]

/-- The fingerprint of `p` is deleted, or it was harmless that it was not. -/
theorem deleteHash_tracked (hs : Tracked env (· = p) s.1) (hreal : s.1.fs.Real p) :
    wp ((services env).answers harmless) (fun _ _ => True) (deleteHash p)
      (fun _ s' => Tracking env s'.1) s := by
  unfold deleteHash
  refine wp_bind.mpr (wp_mono (normalizePath_real hreal) ?_)
  rintro _ s₁ ⟨rfl, hs₁⟩
  rw [← hs₁] at hs
  dsimp only [onOk]
  refine wp_call.mpr ⟨trivial, ?_, fun h => hs.of_hash_none (by simpa [Call.LosesTrack] using h.2)⟩
  cases ht : s₁.1.fingerprints with
  | none =>
    simp only [serve, onTable, ht]
    exact hs.of_hash_none (by simp [World.hashAt, ht])
  | some t =>
    simp only [serve, onTable, ht]
    refine Tracked.of_hash_none ⟨hs.drawn, fun q h hq hh => ?_⟩ (hashAt_mapHashes_delete.trans (if_pos rfl))
    rw [hashAt_mapHashes_delete, if_neg hq] at hh
    exact (hs.fingerprinted q h hq hh).congr (.refl _) rfl

theorem removeIndexedDocument_tracked (hs : Tracking env s.1) (q : PurePath) :
    wp ((services env).answers harmless) (fun _ _ => True) (removeIndexedDocument q)
      (fun _ s' => Tracking env s'.1) s := by
  unfold removeIndexedDocument
  refine wp_bind.mpr (wp_mono (normalizePath_harmless q) ?_)
  rintro r s₁ ⟨hs₁, hnorm⟩
  rw [← hs₁] at hs hnorm
  cases r with
  | error e => exact hs
  | ok p =>
    have hreal := s₁.1.fs.real_of_normalize (hnorm p rfl)
    refine wp_bind.mpr (wp_mono (deleteDocument_tracked hs hreal) ?_)
    rintro r s₂ ⟨hfs, hs₂⟩
    cases r with
    | error e => exact hs₂
    | ok _ => exact deleteHash_tracked (by simpa using hs₂) (hfs ▸ hreal)

/-! ## Indexing a file -/

theorem Tracked.idle {n : ℕ} (h : Tracked env except w₀) (hs : Idle w₀ n s) :
    Tracked env except s.1 := by
  refine h.congr (hs.fs ▸ .refl _) hs.points (fun p => ?_) (by rw [hs.nextUuid]; omega)
  rw [World.hashAt, World.hashAt, hs.fingerprints]

/-- Around a new version all other documents are as they were. -/
theorem Tracked.around (h : Tracking env w₀) (hs : Around w₀ w)
    (hothers : ∀ q, q ≠ p → w.pointsAt q = w₀.pointsAt q) : Tracked env (· = p) w := by
  refine ⟨hs.drawn, fun q hash hq hh => ?_⟩
  rw [World.hashAt, hs.fingerprints] at hh
  exact (h.fingerprinted q hash id hh).congr (hs.fs ▸ .refl _) (hothers q hq)

/-- The fingerprint of the stored points is stored, or it was harmless that it was not. -/
theorem upsertHash_tracked {h : Text} (hs : Tracked env (· = p) s.1)
    (hstored : Fingerprinted env s.1 p h) :
    wp ((services env).answers harmless) (fun _ _ => True) (upsertHash p h)
      (fun _ s' => Tracking env s'.1) s := by
  unfold upsertHash
  refine wp_bind.mpr (wp_mono (normalizePath_real hstored.real) ?_)
  rintro _ s₁ ⟨rfl, hs₁⟩
  rw [← hs₁] at hs hstored
  dsimp only [onOk]
  refine wp_call.mpr ⟨trivial, ?_, fun h => hs.of_hash_none (by simpa [Call.LosesTrack] using h.2)⟩
  cases ht : s₁.1.fingerprints with
  | none =>
    simp only [serve, onTable, ht]
    exact hs.of_hash_none (by simp [World.hashAt, ht])
  | some t =>
    simp only [serve, onTable, ht]
    refine ⟨hs.drawn, fun q hash _ hh => ?_⟩
    by_cases hq : q = p
    · subst hq
      rw [hashAt_mapHashes_upsert_self (ht ▸ rfl)] at hh
      cases hh
      exact hstored.congr (.refl _) rfl
    · rw [hashAt_mapHashes_upsert_of_ne hq] at hh
      exact (hs.fingerprinted q hash hq hh).congr (.refl _) rfl

theorem indexChanged_tracked (hs : Tracking env w₀) (hreal : w₀.fs.Real p)
    (hidle : Idle w₀ 0 s) :
    wp ((services env).answers harmless) (fun _ _ => True) (indexChanged env p)
      (fun _ s' => Tracking env s'.1) s := by
  unfold indexChanged sha256File
  refine wp_bind.mpr (wp_bind.mpr (wp_reads rfl hidle trivial (fun (bytes : Bytes) s₁ h₁ hbytes => ?_)
    fun _ _ h => hs.idle h))
  obtain ⟨node, hnode, rfl⟩ := Option.map_eq_some_iff.mp (orRaise_eq_ok_iff.mp hbytes)
  rw [hidle.fs] at hnode
  refine wp_bind.mpr (wp_getHash h₁ (fun _ _ _ => trivial) (fun r s₃ h₃ _ _ => ?_)
    fun _ _ h => hs.idle h)
  dsimp only [onOk]
  split
  · exact hs.idle h₃
  have hattempt : wp ((services env).answers harmless) (fun _ _ => True) (indexFile env p)
      (AttemptEnds env w₀ p harmless) s₃ :=
    wp_conseq (indexFile_spec hs.drawn h₃ p) (fun _ _ _ => trivial) fun _ _ h => h
  refine wp_bind.mpr (wp_mono hattempt fun r s₄ h₄ => ?_)
  cases r with
  | error e => obtain ⟨n, h₄⟩ := h₄; exact hs.idle h₄
  | ok outcome =>
    cases outcome with
    | missing => exact h₄.elim
    | unchanged => exact h₄.elim
    | skipped =>
      obtain ⟨n, h₄⟩ := h₄
      dsimp only [onOk]
      split
      · refine wp_bind.mpr (wp_mono (removeIndexedDocument_tracked (hs.idle h₄) p) fun r s₅ h₅ => ?_)
        cases r <;> exact h₅
      · exact hs.idle h₄
    | failed =>
      rcases h₄ with ⟨n, h₄⟩ | ⟨filepath, new, v, hv, hadded, -, hharmless⟩
      · exact hs.idle h₄
      · obtain ⟨rfl, -⟩ := hv.indexable hreal
        refine (hs.around hadded.toAround fun q => hadded.pointsAt_of_ne hv).of_hash_none ?_
        simpa [Call.LosesTrack] using hharmless.2
    | indexed =>
      obtain ⟨filepath, new, hv, hrep⟩ := h₄
      obtain ⟨rfl, node', vectors, hindexable, hnew⟩ := hv.indexable hreal
      obtain rfl : node' = node := Option.some_inj.mp (hindexable.fileAt.symm.trans hnode)
      have hstored : Fingerprinted env s₄.1 filepath (env.sha256 node'.bytes) :=
        ⟨hrep.fs ▸ hreal, node'.bytes, vectors, w₀.nextUuid, rfl, hindexable.size,
          hindexable.chunks, hindexable.embed, hnew ▸ hrep.pointsAt_self hv⟩
      have htracked := hs.around hrep.toAround fun q => hrep.pointsAt_of_ne hv
      refine wp_bind.mpr (wp_mono (upsertHash_tracked htracked hstored) fun r s₅ h₅ => ?_)
      cases r <;> exact h₅

theorem indexIfChanged_tracked (hs : Tracking env w₀) (hreal : w₀.fs.Real p) :
    wp ((services env).answers harmless) (fun _ _ => True) (indexIfChanged env p)
      (fun _ s' => Tracking env s'.1) (w₀, []) := by
  unfold indexIfChanged
  refine wp_bind.mpr (wp_reads rfl (.start w₀) trivial (fun (found : Bool) s₁ h₁ _ => ?_)
    fun _ _ h => hs.idle h)
  dsimp only [onOk]
  split
  · refine wp_tryCatch.mpr (wp_mono (indexChanged_tracked hs hreal h₁) fun r s₂ h₂ => ?_)
    cases r <;> exact h₂
  · exact hs.idle h₁

/-! ## The other operations -/

/-- The fingerprints speak for the points before and after every such call, and every removal. -/
theorem tracking_storeInvariant :
    StoreInvariant env harmless (fun _ _ => True) (Tracking env) where
  guard _ _ _ := trivial
  serve _ _ hc hs := hs.serve hc
  remove q _ hs := removeIndexedDocument_tracked hs q

theorem Tracked.of_nothing (hpoints : w.points = []) (hhashes : ∀ p, w.hashAt p = none) :
    Tracked env except w := by
  refine ⟨fun pt hpt => ?_, fun p h _ hh => ?_⟩
  · rw [hpoints] at hpt
    cases hpt
  · rw [hhashes] at hh
    cases hh

/-- Without a collection a failure is harmless only if there are no fingerprints. -/
theorem Tracked.of_harmless {c : Call} (hc : c = .initDb ∨ c = .clearHashes)
    (hnone : w.collection = none) (h : harmless c w) : Tracked env except w := by
  refine .of_nothing (by simp [World.points, hnone]) fun p => ?_
  have hno : ¬ (w.collection = none ∧ ∃ p, (w.hashAt p).isSome) := by
    rcases hc with rfl | rfl <;> exact h.2
  simpa using fun hsome => hno ⟨hnone, p, hsome⟩

/-- Once the collection is gone, the fingerprints go too, or there were none. -/
theorem clearHashes_tracked (hnone : s.1.collection = none) :
    wp ((services env).answers harmless) (fun _ _ => True) (do initDb; clearHashes)
      (fun _ s' => Tracking env s'.1) s := by
  unfold initDb clearHashes
  refine wp_bind.mpr (wp_call.mpr ⟨trivial, ?_, Tracked.of_harmless (.inl rfl) hnone⟩)
  dsimp only [serve, onOk]
  refine wp_call.mpr ⟨trivial, ?_, Tracked.of_harmless (.inr rfl) hnone⟩
  refine .of_nothing ?_ fun p => hashAt_mapHashes_clear
  simp [serve, onTable, World.points, World.mapHashes, hnone]

theorem resetCollection_tracked (hs : Tracking env s.1) :
    wp ((services env).answers harmless) (fun _ _ => True) (resetCollection false)
      (fun _ s' => Tracking env s'.1) s := by
  have hlast : ∀ s : Traced, s.1.collection = none → wp ((services env).answers harmless)
      (fun _ _ => True) (do call (.setEnsured false); initDb; clearHashes)
      (fun _ s' => Tracking env s'.1) s := fun s hnone =>
    wp_bind.mpr (wp_call.mpr ⟨trivial, clearHashes_tracked hnone, fun h => by cases h.1⟩)
  unfold resetCollection
  refine wp_bind.mpr (wp_call.mpr ⟨trivial, ?_, fun _ => hs⟩)
  dsimp only [serve, onOk]
  split
  · refine wp_bind.mpr (wp_call.mpr ⟨trivial, ?_, fun _ => hs⟩)
    dsimp only [serve, onOk]
    exact hlast _ rfl
  · next hmissing => 
    exact hlast _ (by simpa using hmissing)

theorem operation_tracked (o : Operation) (hs : Tracking env w) (hsubmitted : o.Submitted w.fs) :
    wp ((services env).answers harmless) (fun _ _ => True) (o.program env)
      (fun _ s' => Tracking env s'.1) (w, []) := by
  cases o with
  | indexIfChanged p =>
    obtain ⟨q, hq⟩ := hsubmitted
    refine wp_bind.mpr (wp_mono (indexIfChanged_tracked hs (w.fs.real_of_normalize hq)) fun r s h => ?_)
    cases r <;> exact h
  | resetCollection => exact resetCollection_tracked hs
  | _ => exact Keeps.operation tracking_storeInvariant _ (by simp) (by simp) _ hs

/-- In every run the fingerprints speak for the points, as long as every failure is harmless. -/
theorem Run.tracking (h : Run env harmless w) : Tracking env w := by
  induction h with
  | start hpoints hhashes => exact .of_nothing hpoints hhashes
  | edit fs _ hlinks ih => exact ih.congr hlinks rfl (fun _ => rfl) le_rfl
  | @operation w w' r trace o ensured _ hsubmitted hrun ih =>
    have hs : Tracking env { w with ensured } := ih.congr (.refl _) rfl (fun _ => rfl) le_rfl
    exact wp_steps_post (operation_tracked o hs hsubmitted) hrun

/-! ## Skipping -/

/-- UNCHANGED says that the stored fingerprint is the hash of the content. -/
theorem indexIfChanged_unchanged (hreal : w.fs.Real p) :
    wp ((services env).answers fun _ _ => False) (fun _ _ => True) (indexIfChanged env p)
      (fun r _ => r = .ok .unchanged → ∃ node, w.fs.fileAt p = some node ∧
        w.hashAt p = some (env.sha256 node.bytes)) (w, []) := by
  unfold indexIfChanged
  refine wp_bind.mpr (wp_reads rfl (.start w) trivial (fun (found : Bool) s₁ h₁ _ => ?_)
    fun _ _ _ => nofun)
  dsimp only [onOk]
  split
  case isFalse => rintro ⟨⟩
  unfold indexChanged sha256File
  refine wp_tryCatch.mpr (wp_bind.mpr (wp_bind.mpr (wp_reads rfl h₁ trivial
    (fun (bytes : Bytes) s₂ h₂ hbytes => ?_) fun _ _ _ => nofun)))
  obtain ⟨node, hnode, rfl⟩ := Option.map_eq_some_iff.mp (orRaise_eq_ok_iff.mp hbytes)
  rw [h₁.fs] at hnode
  refine wp_bind.mpr (wp_getHash h₂ (fun _ _ _ => trivial) (fun r s₄ h₄ hnorm _ => ?_)
    fun _ _ _ => nofun)
  rw [w.fs.normalize_of_real hreal] at hnorm
  obtain rfl : p = r := Option.some_inj.mp hnorm
  dsimp only [onOk]
  split
  · next hsame => exact fun _ => ⟨node, hnode, hsame⟩
  refine wp_bind.mpr (wp_mono (wp_true _) fun r s₅ _ => ?_)
  cases r with
  | error e => rintro ⟨⟩
  | ok outcome =>
    cases outcome with
    | indexed =>
      refine wp_bind.mpr (wp_mono (wp_true _) fun r s₆ _ => ?_)
      cases r <;> rintro ⟨⟩
    | skipped =>
      dsimp only [onOk]
      split
      · refine wp_bind.mpr (wp_mono (wp_true _) fun r s₆ _ => ?_)
        cases r <;> rintro ⟨⟩
      · rintro ⟨⟩
    | missing => rintro ⟨⟩
    | unchanged => rintro ⟨⟩
    | failed => rintro ⟨⟩

/-- As long as no failure leaves a fingerprint behind whose points are not there, every skipped
path has exactly the points of its content. -/
theorem indexIfChanged_skip_sound (env : Env) (hsha : Function.Injective env.sha256) :
    SkipSound env harmless := by
  intro w hrun p s hreal hskip
  obtain ⟨node, hfile, hhash⟩ := wp_steps_post (indexIfChanged_unchanged hreal) hskip rfl
  obtain ⟨-, bytes, vectors, id, hsame, hsize, hchunks, hembed, hpoints⟩ :=
    hrun.tracking.fingerprinted p _ id hhash
  obtain rfl : bytes = node.bytes := hsha hsame
  rw [w.fs.fileAt_of_real hreal] at hfile
  exact ⟨id, hpoints.trans (freshPoints_of_indexable ⟨hreal, hfile, hsize, hchunks, hembed⟩ id).symm⟩

/-! ## Examples -/

/-- The world after a job on the sample file, where some kinds of calls fail at the flags. -/
def afterJob (fails : Call → Bool) (flags : List Bool) (w : World) : World :=
  (((Operation.indexIfChanged samplePath).program Env.sample).run (services Env.sample)
    (fun c _ => fails c = true) flags (w, [])).2.1

theorem afterJob_fs (fails : Call → Bool) (flags : List Bool) (w : World) :
    (afterJob fails flags w).fs = w.fs :=
  steps_fs (Prog.run_steps (services Env.sample) (fun c _ => fails c = true) _ flags _)

theorem Run.job {mayFail : Call → World → Prop} {w : World} {bytes : Bytes}
    (h : Run Env.sample mayFail w) (hfs : w.fs = (sampleWorld bytes).fs) (fails : Call → Bool)
    (hfails : ∀ c w, fails c = true → mayFail c w) (flags : List Bool) :
    Run Env.sample mayFail (afterJob fails flags w) := by
  have hnorm : w.fs.normalize samplePath = some samplePath :=
    w.fs.normalize_of_real (hfs ▸ sampleWorld_real bytes)
  exact .operation (.indexIfChanged samplePath) w.ensured h ⟨samplePath, hnorm⟩
    ((Prog.run_steps (services Env.sample) (fun c _ => fails c = true) _ flags _).mono
      (Machine.answers_mono hfails))

theorem Run.rewrite {mayFail : Call → World → Prop} {w : World} {bytes : Bytes} (bytes' : Bytes)
    (h : Run Env.sample mayFail w) (hfs : w.fs = (sampleWorld bytes).fs) :
    Run Env.sample mayFail { w with fs := (sampleWorld bytes').fs } :=
  .edit _ h (hfs ▸ ⟨rfl, rfl, rfl⟩)

theorem Run.sample {mayFail : Call → World → Prop} (bytes : Bytes) :
    Run Env.sample mayFail (sampleWorld bytes) :=
  .start rfl fun _ => rfl

/-- The sample file is indexed; it changes and the stale vectors are not deleted; it changes back. -/
def halfReplaced : World :=
  let w₁ := afterJob Call.transient [] (sampleWorld [104, 105])
  let w₂ := afterJob Call.transient (List.replicate 12 false ++ [true])
    { w₁ with fs := (sampleWorld [104]).fs }
  { w₂ with fs := (sampleWorld [104, 105]).fs }

/-- One failed delete of stale vectors, and the file has the points of two contents while it is
skipped. -/
theorem indexIfChanged_skip_unsound : ¬ SkipSound Env.sample fun c _ => c.transient = true := by
  intro hsound
  have hindexed : Run Env.sample (fun c _ => c.transient = true)
      (afterJob Call.transient [] (sampleWorld [104, 105])) :=
    .job (.sample _) rfl _ (fun _ _ h => h) []
  have hchanged := hindexed.rewrite [104] (afterJob_fs _ _ _)
  have hfailed := hchanged.job rfl Call.transient (fun _ _ h => h)
    (List.replicate 12 false ++ [true])
  have hrun : Run Env.sample (fun c _ => c.transient = true) halfReplaced :=
    hfailed.rewrite [104, 105] (afterJob_fs _ _ _)
  have hskip := Prog.run_steps (services Env.sample) (fun _ _ => False)
    (indexIfChanged Env.sample samplePath) [] (halfReplaced, [])
  have hunchanged : ((indexIfChanged Env.sample samplePath).run (services Env.sample)
      (fun _ _ => False) [] (halfReplaced, [])).1 = .ok .unchanged := by decide +kernel
  rw [hunchanged] at hskip
  obtain ⟨id, hpoints⟩ := hsound halfReplaced hrun samplePath _ (sampleWorld_real _) hskip
  have hindexable : Indexable Env.sample halfReplaced.fs samplePath ⟨[104, 105], 1, 1⟩ [[0]] :=
    ⟨sampleWorld_real _, by decide, by decide, by decide, by decide⟩
  have htwo : (halfReplaced.pointsAt samplePath).length = 2 := by decide +kernel
  have hone : (documentChunks Env.sample samplePath
      (Env.sample.decode [104, 105])).length = 1 := by decide
  rw [hpoints, freshPoints_of_indexable hindexable, versionPoints_length hindexable, hone] at htwo
  cases htwo

theorem sample_sha256_injective : Function.Injective Env.sample.sha256 :=
  List.map_injective_iff.mpr charOfByte_injective

/-- The failure of an embedding, which is always harmless. -/
def embedFails : Call → Bool
  | .embed _ => true
  | _ => false

theorem harmless_of_embedFails (c : Call) (w : World) (h : embedFails c = true) : harmless c w := by
  cases c <;> first | exact ⟨rfl, id⟩ | cases h

/-- The first attempt fails to embed, the second indexes the file. -/
theorem indexIfChanged_skip_sound_sample :
    let w := afterJob embedFails [] (afterJob embedFails (List.replicate 8 false ++ [true])
      (sampleWorld [104, 105]))
    w.pointsAt samplePath ≠ [] ∧
      ∃ id, w.pointsAt samplePath = freshPoints Env.sample w.fs samplePath id := by
  intro w
  have hrun : Run Env.sample harmless w :=
    ((Run.sample [104, 105]).job rfl embedFails harmless_of_embedFails _).job (afterJob_fs _ _ _)
      embedFails harmless_of_embedFails []
  have hskip := Prog.run_steps (services Env.sample) (fun _ _ => False)
    (indexIfChanged Env.sample samplePath) [] (w, [])
  have hunchanged : ((indexIfChanged Env.sample samplePath).run (services Env.sample)
      (fun _ _ => False) [] (w, [])).1 = .ok .unchanged := by decide +kernel
  rw [hunchanged] at hskip
  have hfs : w.fs = (sampleWorld [104, 105]).fs := (afterJob_fs _ _ _).trans (afterJob_fs _ _ _)
  exact ⟨by decide +kernel, indexIfChanged_skip_sound Env.sample sample_sha256_injective w hrun
    samplePath _ (hfs ▸ sampleWorld_real _) hskip⟩

end LocalRag
