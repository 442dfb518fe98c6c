-- SUMMARY: When cleanup_stale leaves no point of a missing file: runs with failing calls, stops between calls and changes to the files.
import LocalRag.Indexer.Operations
import LocalRag.Ingest.Reindexing

/-!
# Completeness of the stale cleanup

`cleanup_stale` finds what to remove in the fingerprint table. It removes everything
as long as the table accounts for the points: a path has no points without a
fingerprint. Indexing stores the points first, so an attempt at a new path that
fails or is stopped between the two leaves points that no cleanup finds.
-/

namespace LocalRag

open PyText PyPath Effects Sql

/-! ## Runs -/

/-- Runs of operations that may also be stopped before any call, with changes to the files in
between. -/
inductive StoppableRun (env : Env) (mayFail : Call → World → Prop) (mayStop : Traced → Prop)
    (mayEdit : World → FileSystem → Prop) : World → Prop where
  | start {w : World} (hpoints : w.points = []) : StoppableRun env mayFail mayStop mayEdit w
  | edit {w : World} (fs : FileSystem) (h : StoppableRun env mayFail mayStop mayEdit w)
    (hedit : mayEdit w fs) : StoppableRun env mayFail mayStop mayEdit { w with fs }
  | operation {w : World} {rest : App Unit} {s : Traced} (o : Operation) (ensured : Bool)
    (h : StoppableRun env mayFail mayStop mayEdit w)
    (hrun : (o.program env).Steps ((services env).answers mayFail) ({ w with ensured }, []) rest s)
    (hstop : (∃ r, rest = .ret r) ∨ mayStop s) : StoppableRun env mayFail mayStop mayEdit s.1

/-- The path is under one of the roots, if there are any to be under. -/
def UnderRoots (roots : Option (List PurePath)) (p : PurePath) : Prop :=
  ∀ l, roots = some l → isUnderAnyRoot p l = true

/-- No point under the roots is of a missing file. -/
def NothingStale (roots : Option (List PurePath)) (w : World) : Prop :=
  ∀ pt ∈ w.points, UnderRoots roots pt.payload.filepath → w.fs.pathExists pt.payload.filepath = true

/-- After a cleanup that completes, nothing is stale. -/
def CleanupComplete (env : Env) (mayFail : Call → World → Prop) (mayStop : Traced → Prop)
    (mayEdit : World → FileSystem → Prop) : Prop :=
  ∀ w, StoppableRun env mayFail mayStop mayEdit w → ∀ roots ensured n s,
    (cleanupStale roots).Steps ((services env).answers mayFail) ({ w with ensured }, [])
      (.ret (.ok n)) s → NothingStale roots s.1

/-- The failure leaves new points of a path that has no fingerprint: of a path that was just
stored, the stale vectors are not deleted or the fingerprint is not stored. -/
def Call.Orphans : Call → World → Prop
  | .delete f, w => f.notVersion.isSome ∧ ¬ w.Tracks f.filepath
  | .upsertHash p _, w => ¬ w.Tracks p
  | _, _ => False

/-- The calls that fail without leaving points behind. -/
def failsSafely (c : Call) (w : World) : Prop := c.remote = true ∧ ¬ c.Orphans w

/-- The job has stored points of a path, and not yet the fingerprint that it lacks. -/
def BeforeFingerprint (s : Traced) : Prop :=
  ∃ points, (⟨Call.upsert points, true⟩ : Event Services) ∈ s.2 ∧
    ∃ pt ∈ points, ¬ s.1.Tracks pt.payload.filepath

/-- A stop at any other place. -/
def stopsSafely (s : Traced) : Prop := ¬ BeforeFingerprint s

/-- No document's path becomes a symbolic link or comes to lie behind one. -/
def keepsPaths (w : World) (fs : FileSystem) : Prop :=
  ∀ pt ∈ w.points, w.fs.Real pt.payload.filepath → fs.Real pt.payload.filepath

/-! ## The invariant -/

/-- The fingerprint table has the path of every point, and resolving changes none of them. -/
structure Accounted (w : World) : Prop where
  drawn : w.UuidsDrawn
  real : ∀ pt ∈ w.points, w.fs.Real pt.payload.filepath
  tracks : ∀ pt ∈ w.points, w.Tracks pt.payload.filepath

variable {env : Env} {w w' w₀ : World} {s : Traced} {p q filepath : PurePath} {new : List Point}
  {mayFail : Call → World → Prop}

theorem Accounted.of_subset (h : Accounted w) (hfs : w'.fs = w.fs)
    (hpoints : ∀ pt ∈ w'.points, pt ∈ w.points)
    (htracks : ∀ pt ∈ w'.points, w.Tracks pt.payload.filepath → w'.Tracks pt.payload.filepath)
    (hnext : w.nextUuid ≤ w'.nextUuid) : Accounted w' := by
  refine ⟨fun pt hpt => ?_, fun pt hpt => ?_, fun pt hpt => ?_⟩
  · obtain ⟨hid, hversion⟩ := h.drawn pt (hpoints pt hpt)
    exact ⟨hid.trans_le hnext, fun v hv => (hversion v hv).trans_le hnext⟩
  · rw [hfs]
    exact h.real pt (hpoints pt hpt)
  · exact htracks pt hpt (h.tracks pt (hpoints pt hpt))

theorem Accounted.of_points_nil (h : w.points = []) : Accounted w := by
  have hnone : ∀ pt, pt ∉ w.points := by simp [h]
  exact ⟨fun pt hpt => absurd hpt (hnone pt), fun pt hpt => absurd hpt (hnone pt),
    fun pt hpt => absurd hpt (hnone pt)⟩

/-- A call that forgets no fingerprint and stores no points. -/
theorem Accounted.serve {c : Call} (h : Accounted w) (hpoints : ∀ points, c ≠ .upsert points)
    (hhash : ∀ pt ∈ (serve env c w).2.points, c.setsHash pt.payload.filepath = false) :
    Accounted (serve env c w).2 := by
  refine h.of_subset serve_fs (fun pt hpt => ?_) (fun pt hpt htracks => ?_) serve_nextUuid_le
  · exact (mem_points_serve hpt).resolve_right fun ⟨points, hc, _⟩ => hpoints points hc
  · rwa [World.Tracks, serve_hashAt (hhash pt hpt)]

theorem Accounted.idle {n : ℕ} (h : Accounted w₀) (hs : Idle w₀ n s) : Accounted s.1 := by
  refine h.of_subset hs.fs (fun pt hpt => hs.points ▸ hpt) (fun pt _ htracks => ?_)
    (by rw [hs.nextUuid]; omega)
  rwa [World.Tracks, World.hashAt, hs.fingerprints]

/-! ## Removing a document -/

/-- The files are the same and there are no other points. -/
structure Shrinks (w w' : World) : Prop where
  fs : w'.fs = w.fs
  points : ∀ pt ∈ w'.points, pt ∈ w.points

theorem Shrinks.refl (w : World) : Shrinks w w := ⟨rfl, fun _ h => h⟩

theorem Shrinks.trans {w'' : World} (h : Shrinks w w') (h' : Shrinks w' w'') : Shrinks w w'' :=
  ⟨h'.fs.trans h.fs, fun pt hpt => h.points pt (h'.points pt hpt)⟩

theorem Shrinks.serve {c : Call} (hpoints : ∀ points, c ≠ .upsert points) :
    Shrinks w (serve env c w).2 :=
  ⟨serve_fs, fun _ hpt => (mem_points_serve hpt).resolve_right fun ⟨points, hc, _⟩ =>
    hpoints points hc⟩

theorem normalizePath_accounted (hs : Accounted s.1) (q : PurePath) :
    wp ((services env).answers mayFail) (fun _ s => Accounted s.1) (normalizePath q)
      (fun r s' => s'.1 = s.1 ∧ ∀ p, r = .ok p → s.1.fs.normalize q = some p) s := by
  refine wp_call.mpr ⟨hs, ⟨?_, fun p hp => orRaise_eq_ok_iff.mp hp⟩, fun _ => ⟨rfl, nofun⟩⟩
  simp only [serve, orRaise]
  split <;> rfl

/-- What `delete_document` leaves of the points, and that no path loses its fingerprint. -/
theorem deleteDocument_accounted (hs : Accounted s.1) (q : PurePath) :
    wp ((services env).answers mayFail) (fun _ s => Accounted s.1) (deleteDocument q)
      (fun r s' => Accounted s'.1 ∧ Shrinks s.1 s'.1 ∧
        ∀ p, r = .ok () → s.1.fs.normalize q = some p → s'.1.pointsAt p = []) s := by
  unfold deleteDocument
  refine wp_bind.mpr (wp_mono (normalizePath_accounted hs q) ?_)
  rintro (e | r) s₁ ⟨hs₁, hnorm⟩
  · exact ⟨hs₁ ▸ hs, hs₁ ▸ .refl _, nofun⟩
  have hs' : Accounted s₁.1 := hs₁ ▸ hs
  have hnorm := hnorm r rfl
  dsimp only [onOk]
  refine wp_call.mpr ⟨hs', ⟨hs'.serve (by simp) fun _ _ => rfl, hs₁ ▸ .serve (by simp), ?_⟩,
    fun _ => ⟨hs', hs₁ ▸ .refl _, nofun⟩⟩
  intro p hok hp
  obtain rfl : r = p := Option.some_inj.mp (hnorm.symm.trans hp)
  cases hcol : s₁.1.collection with
  | none =>
    simp only [serve, onCollection, hcol] at hok
    cases hok
  | some c =>
    simp only [serve, onCollection, hcol]
    rw [pointsAt_mapPoints_delete, if_pos rfl]

/-- The fingerprint of a path without points may go. -/
theorem deleteHash_accounted (hs : Accounted s.1) (hreal : s.1.fs.Real p)
    (hnil : s.1.pointsAt p = []) :
    wp ((services env).answers mayFail) (fun _ s => Accounted s.1) (deleteHash p)
      (fun _ s' => Accounted s'.1 ∧ Shrinks s.1 s'.1) s := by
  unfold deleteHash
  refine wp_bind.mpr (wp_mono (normalizePath_accounted hs p) ?_)
  rintro (e | r) s₁ ⟨hs₁, hnorm⟩
  · exact ⟨hs₁ ▸ hs, hs₁ ▸ .refl _⟩
  obtain rfl : p = r := Option.some_inj.mp
    ((s.1.fs.normalize_of_real hreal).symm.trans (hnorm r rfl))
  rw [← hs₁] at hs hnil
  have hother : ∀ pt ∈ (serve env (.deleteHash p) s₁.1).2.points,
      Call.setsHash pt.payload.filepath (.deleteHash p) = false := by
    intro pt hpt
    have hne := pointsAt_eq_nil_iff.mp hnil pt ((Shrinks.serve (by simp)).points pt hpt)
    simpa [Call.setsHash, eq_comm] using hne
  dsimp only [onOk]
  exact wp_call.mpr ⟨hs, ⟨hs.serve (by simp) hother, hs₁ ▸ .serve (by simp)⟩,
    fun _ => ⟨hs, hs₁ ▸ .refl _⟩⟩

theorem removeIndexedDocument_accounted (hs : Accounted s.1) (q : PurePath) :
    wp ((services env).answers mayFail) (fun _ s => Accounted s.1) (removeIndexedDocument q)
      (fun r s' => Accounted s'.1 ∧ Shrinks s.1 s'.1 ∧
        ∀ p, r = .ok () → s.1.fs.normalize q = some p → s'.1.pointsAt p = []) s := by
  unfold removeIndexedDocument
  refine wp_bind.mpr (wp_mono (normalizePath_accounted hs q) ?_)
  rintro (e | p) s₁ ⟨hs₁, hnorm⟩
  · exact ⟨hs₁ ▸ hs, hs₁ ▸ .refl _, nofun⟩
  have hs' : Accounted s₁.1 := hs₁ ▸ hs
  have hnorm := hnorm p rfl
  have hreal : s₁.1.fs.Real p := hs₁ ▸ s.1.fs.real_of_normalize hnorm
  refine wp_bind.mpr (wp_mono (deleteDocument_accounted hs' p) ?_)
  rintro (e | _) s₂ ⟨hs₂, hshrinks, hnil⟩
  · exact ⟨hs₂, hs₁ ▸ hshrinks, nofun⟩
  have hnil := hnil p rfl (s₁.1.fs.normalize_of_real hreal)
  refine wp_mono (deleteHash_accounted hs₂ (hshrinks.fs ▸ hreal) hnil) ?_
  rintro r s₃ ⟨hs₃, hshrinks'⟩
  refine ⟨hs₃, hs₁ ▸ hshrinks.trans hshrinks', fun p' _ hp' => ?_⟩
  obtain rfl : p = p' := Option.some_inj.mp (hnorm.symm.trans hp')
  exact pointsAt_eq_nil_iff.mpr fun pt hpt =>
    pointsAt_eq_nil_iff.mp hnil pt (hshrinks'.points pt hpt)

/-! ## Cleaning up -/

theorem Shrinks.pointsAt_nil (h : Shrinks w w') (hnil : w.pointsAt p = []) : w'.pointsAt p = [] :=
  pointsAt_eq_nil_iff.mpr fun pt hpt => pointsAt_eq_nil_iff.mp hnil pt (h.points pt hpt)

/-- The loop removes the points of every missing path under the roots. -/
theorem cleanupPaths_removes (hs : Accounted s.1) (roots : Option (List PurePath))
    (paths : List PurePath) :
    wp ((services env).answers mayFail) (fun _ _ => True) (cleanupPaths roots paths)
      (fun r s' => Shrinks s.1 s'.1 ∧ ∀ n, r = .ok n → ∀ p ∈ paths, UnderRoots roots p →
        s.1.fs.pathExists p = false → s'.1.pointsAt p = []) s := by
  induction paths generalizing s with
  | nil => exact ⟨.refl _, fun _ _ p hp => by cases hp⟩
  | cons filepath rest ih =>
    obtain ⟨w, trace⟩ := s
    change Accounted w at hs
    unfold cleanupPaths
    split
    case isTrue houtside =>
      refine wp_mono (ih hs) ?_
      intro r s' hdone
      refine ⟨hdone.1, fun n hr p hp hunder => ?_⟩
      rcases List.mem_cons.mp hp with rfl | hp
      · cases roots with
        | none => cases houtside
        | some l => simp [hunder l rfl] at houtside
      · exact hdone.2 n hr p hp hunder
    refine wp_bind.mpr (wp_call.mpr ⟨trivial, ?_, fun _ => ⟨.refl _, fun n hr => by cases hr⟩⟩)
    dsimp only [serve, onOk]
    split
    case isTrue hfound =>
      refine wp_mono (ih hs) ?_
      intro r s' hdone
      refine ⟨hdone.1, fun n hr p hp hunder hmissing => ?_⟩
      rcases List.mem_cons.mp hp with rfl | hp
      · rw [hmissing] at hfound
        cases hfound
      · exact hdone.2 n hr p hp hunder hmissing
    refine wp_bind.mpr (wp_conseq (removeIndexedDocument_accounted (s := (w, _)) hs filepath)
      (fun _ _ _ => trivial) ?_)
    rintro (e | _) s₁ ⟨hs₁, hshrinks, hnil⟩
    · exact ⟨hshrinks, fun n hr => by cases hr⟩
    -- A path with points resolves to itself, so it is that path's points that go.
    have hgone : s₁.1.pointsAt filepath = [] := by
      refine pointsAt_eq_nil_iff.mpr fun pt hpt heq => ?_
      have hreal := hs.real pt (hshrinks.points pt hpt)
      rw [heq] at hreal
      exact pointsAt_eq_nil_iff.mp (hnil filepath rfl (w.fs.normalize_of_real hreal)) pt hpt heq
    refine wp_bind.mpr (wp_mono (ih hs₁) ?_)
    rintro (e | removed) s₂ ⟨hshrinks', hrest⟩
    · exact ⟨hshrinks.trans hshrinks', fun n hr => by cases hr⟩
    refine ⟨hshrinks.trans hshrinks', fun n _ p hp hunder hmissing => ?_⟩
    rcases List.mem_cons.mp hp with rfl | hp
    · exact hshrinks'.pointsAt_nil hgone
    · exact hrest removed rfl p hp hunder (hshrinks.fs ▸ hmissing)

/-- A cleanup that completes finds everything that is stale. -/
theorem cleanupStale_removes (hs : Accounted s.1) (roots : Option (List PurePath)) :
    wp ((services env).answers mayFail) (fun _ _ => True) (cleanupStale roots)
      (fun r s' => ∀ n, r = .ok n → NothingStale roots s'.1) s := by
  obtain ⟨w, trace⟩ := s
  change Accounted w at hs
  unfold cleanupStale listAllPaths
  refine wp_bind.mpr (wp_call.mpr ⟨trivial, ?_, fun _ n hr => by cases hr⟩)
  cases ht : w.fingerprints with
  | none =>
    simp only [serve, onTable, ht]
    intro n hr
    cases hr
  | some t =>
    simp only [serve, onTable, ht, onOk]
    refine wp_mono (cleanupPaths_removes (s := (w, _)) hs roots _) ?_
    rintro r s' ⟨hshrinks, hremoved⟩ n hr pt hpt hunder
    have hstored := hshrinks.points pt hpt
    have hlisted := (List.mem_insertionSort pathLe).mpr ((tracks_iff_mem ht).mp (hs.tracks pt hstored))
    rw [hshrinks.fs]
    refine Bool.not_eq_false _ ▸ fun hmissing => ?_
    exact pointsAt_eq_nil_iff.mp (hremoved n hr _ hlisted hunder hmissing) pt hpt rfl

/-! ## The indexing job -/

/-- What holds of a job wherever it is: the points are accounted for, or it is on its way to the
fingerprint. -/
def AccountedSoon (s : Traced) : Prop := BeforeFingerprint s ∨ Accounted s.1

theorem AccountedSoon.append (h : AccountedSoon s) (trace : List (Event Services)) :
    AccountedSoon (s.1, s.2 ++ trace) := by
  rcases h with ⟨points, hupserted, hnew⟩ | h
  · exact .inl ⟨points, List.mem_append_left _ hupserted, hnew⟩
  · exact .inr h

/-- A new version is accounted for if its path has a fingerprint. -/
theorem Accounted.around (h : Accounted w₀) (hv : Version env w₀ p filepath new)
    (hs : Around w₀ s.1) (hpoints : ∀ pt ∈ s.1.points, pt ∈ w₀.points ∨ pt ∈ new)
    (htracks : w₀.Tracks filepath) : Accounted s.1 := by
  obtain ⟨n, -, -, -, hnew⟩ := hv.complete
  have hsame : ∀ q, w₀.Tracks q → s.1.Tracks q := fun q hq => by
    rwa [World.Tracks, World.hashAt, hs.fingerprints]
  refine ⟨hs.drawn, fun pt hpt => ?_, fun pt hpt => ?_⟩
  · rw [hs.fs]
    rcases hpoints pt hpt with hold | hpt
    · exact h.real pt hold
    · rw [(hnew pt hpt).1]
      exact w₀.fs.real_of_normalize hv.normalized
  · rcases hpoints pt hpt with hold | hpt
    · exact hsame _ (h.tracks pt hold)
    · rw [(hnew pt hpt).1]
      exact hsame _ htracks

/-- A new version was stored: with its path's fingerprint, or before it. -/
theorem Accounted.stored (h : Accounted w₀) (hv : Version env w₀ p filepath new)
    (hs : Around w₀ s.1) (hpoints : ∀ pt ∈ s.1.points, pt ∈ w₀.points ∨ pt ∈ new)
    (hupserted : (⟨Call.upsert new, true⟩ : Event Services) ∈ s.2) : AccountedSoon s := by
  by_cases htracks : w₀.Tracks filepath
  · exact .inr (h.around hv hs hpoints htracks)
  · obtain ⟨n, hn, hindices, -, hnew⟩ := hv.complete
    obtain ⟨pt, hpt⟩ : ∃ pt, pt ∈ new := by
      refine List.exists_mem_of_ne_nil _ fun hnil => ?_
      have := congrArg List.length hindices
      simp [hnil] at this
      omega
    refine .inl ⟨new, hupserted, pt, hpt, fun htracked => htracks ?_⟩
    rwa [(hnew pt hpt).1, World.Tracks, World.hashAt, hs.fingerprints] at htracked

theorem Added.mem_or_new (h : Added w₀ new s) : ∀ pt ∈ s.1.points, pt ∈ w₀.points ∨ pt ∈ new :=
  fun _ hpt => List.mem_append.mp (h.points ▸ hpt)

theorem Replaced.mem_or_new (h : Replaced w₀ filepath new s) :
    ∀ pt ∈ s.1.points, pt ∈ w₀.points ∨ pt ∈ new :=
  fun _ hpt => (List.mem_append.mp (h.points ▸ hpt)).imp List.mem_of_mem_filter id

theorem Attempt.accountedSoon (h : Accounted w₀) (hs : Attempt env w₀ p s) : AccountedSoon s := by
  cases hs with
  | idle hs => exact .inr (h.idle hs)
  | added hv hs => exact h.stored hv hs.toAround hs.mem_or_new hs.upserted
  | replaced hv hs => exact h.stored hv hs.toAround hs.mem_or_new hs.upserted

/-- The fingerprint of what was stored is stored, or there was one. -/
theorem upsertHash_accounted (h : Accounted w₀) (hv : Version env w₀ p filepath new)
    (hs : Replaced w₀ filepath new s) (htable : w₀.fingerprints.isSome) (hash : Text) :
    wp ((services env).answers failsSafely) (fun _ s => AccountedSoon s) (upsertHash p hash)
      (fun _ s' => Accounted s'.1) s := by
  have hsoon : AccountedSoon s := h.stored hv hs.toAround hs.mem_or_new hs.upserted
  unfold upsertHash normalizePath
  refine wp_bind.mpr (wp_call.mpr ⟨hsoon, ?_, fun hfails => by cases hfails.1⟩)
  simp only [serve, hs.fs, hv.normalized, orRaise, onOk]
  refine wp_call.mpr ⟨hsoon.append _, ?_, fun hfails => ?_⟩
  · obtain ⟨t, ht⟩ := Option.isSome_iff_exists.mp (hs.fingerprints ▸ htable)
    simp only [serve, onTable, ht]
    obtain ⟨n, -, -, -, hnew⟩ := hv.complete
    have htracks : ∀ q, w₀.Tracks q ∨ q = filepath →
        (s.1.mapHashes fun t => t.upsert ⟨filepath, hash⟩).Tracks q := by
      intro q hq
      by_cases hself : q = filepath
      · rw [World.Tracks, hself, hashAt_mapHashes_upsert_self (ht ▸ rfl)]
        rfl
      · rw [World.Tracks, hashAt_mapHashes_upsert_of_ne hself, World.hashAt, hs.fingerprints]
        exact hq.resolve_right hself
    refine ⟨hs.drawn, fun pt hpt => ?_, fun pt hpt => htracks _ ?_⟩
    · change s.1.fs.Real _
      rw [hs.fs]
      rcases hs.mem_or_new pt hpt with hold | hpt
      · exact h.real pt hold
      · rw [(hnew pt hpt).1]
        exact w₀.fs.real_of_normalize hv.normalized
    · exact (hs.mem_or_new pt hpt).imp (h.tracks pt) fun hpt => (hnew pt hpt).1
  · have htracks : s.1.Tracks filepath := not_not.mp hfails.2
    refine h.around (s := (s.1, _)) hv hs.toAround hs.mem_or_new ?_
    rwa [World.Tracks, World.hashAt, hs.fingerprints] at htracks

theorem indexChanged_accounted (h : Accounted w₀) (hidle : Idle w₀ 0 s) :
    wp ((services env).answers failsSafely) (fun _ s => AccountedSoon s) (indexChanged env p)
      (fun _ s' => Accounted s'.1) s := by
  have hsoon : ∀ {n s}, Idle w₀ n s → AccountedSoon s := fun hs => .inr (h.idle hs)
  unfold indexChanged sha256File
  refine wp_bind.mpr (wp_bind.mpr (wp_reads rfl hidle (hsoon hidle)
    (fun (bytes : Bytes) s₁ h₁ _ => ?_) fun _ _ hs => h.idle hs))
  refine wp_bind.mpr (wp_getHash h₁ (fun _ _ hs => hsoon hs) (fun r s₃ h₃ _ htable => ?_)
    fun _ _ hs => h.idle hs)
  dsimp only [onOk]
  split
  · exact h.idle h₃
  refine wp_bind.mpr (wp_mono (wp_conseq (indexFile_spec h.drawn h₃ p)
    (fun _ _ hs => hs.accountedSoon h) fun _ _ hs => hs) fun r s₄ h₄ => ?_)
  cases r with
  | error e => obtain ⟨n, h₄⟩ := h₄; exact h.idle h₄
  | ok outcome =>
    cases outcome with
    | missing => exact h₄.elim
    | unchanged => exact h₄.elim
    | skipped =>
      obtain ⟨n, h₄⟩ := h₄
      dsimp only [onOk]
      split
      · refine wp_bind.mpr (wp_conseq (removeIndexedDocument_accounted (h.idle h₄) p)
          (fun _ _ hs => .inr hs) fun r s₅ h₅ => ?_)
        cases r <;> exact h₅.1
      · exact h.idle h₄
    | failed =>
      rcases h₄ with ⟨n, h₄⟩ | ⟨filepath, new, v, hv, hadded, -, hfails⟩
      · exact h.idle h₄
      · have htracks : s₄.1.Tracks filepath := by simpa [Call.Orphans] using hfails.2
        refine h.around hv hadded.toAround hadded.mem_or_new ?_
        rwa [World.Tracks, World.hashAt, hadded.fingerprints] at htracks
    | indexed =>
      obtain ⟨filepath, new, hv, hreplaced⟩ := h₄
      refine wp_bind.mpr (wp_mono (upsertHash_accounted h hv hreplaced htable _) fun r s₅ h₅ => ?_)
      cases r <;> exact h₅

theorem indexIfChanged_accounted (h : Accounted w) (p : PurePath) :
    wp ((services env).answers failsSafely) (fun _ s => AccountedSoon s) (indexIfChanged env p)
      (fun _ s' => Accounted s'.1) (w, []) := by
  unfold indexIfChanged
  refine wp_bind.mpr (wp_reads rfl (.start w) (.inr h) (fun (found : Bool) s₁ h₁ _ => ?_)
    fun _ _ hs => h.idle hs)
  dsimp only [onOk]
  split
  · refine wp_tryCatch.mpr (wp_mono (indexChanged_accounted h h₁) fun r s₂ h₂ => ?_)
    cases r <;> exact h₂
  · exact h.idle h₁

/-! ## The other operations -/

theorem Accounted.leavesStores {c : Call} (h : Accounted w) (hc : c.leavesStores = true) :
    Accounted (LocalRag.serve env c w).2 := by
  refine h.serve ?_ fun pt _ => ?_
  · rintro points rfl
    cases hc
  · cases c <;> first | rfl | cases hc

theorem accounted_storeInvariant :
    StoreInvariant env mayFail (fun _ s => AccountedSoon s) Accounted where
  guard _ _ hs := .inr hs
  serve _ _ hc hs := hs.leavesStores hc
  remove q _ hs := wp_conseq (removeIndexedDocument_accounted hs q) (fun _ _ hs => .inr hs)
    fun _ _ hs => hs.1

/-- Without points nothing has to be accounted for. -/
theorem keeps_points_nil {c : Call} (hc : ∀ points, c ≠ .upsert points) :
    Keeps env mayFail (fun _ s => AccountedSoon s) (fun w => w.points = []) (call c) := by
  intro s hs
  refine wp_call.mpr ⟨.inr (.of_points_nil hs), ?_, fun _ => hs⟩
  refine List.eq_nil_iff_forall_not_mem.mpr fun pt hpt => ?_
  have hstored := (mem_points_serve hpt).resolve_right fun ⟨points, hupsert, _⟩ => hc points hupsert
  rw [hs] at hstored
  cases hstored

theorem resetCollection_accounted :
    Keeps env mayFail (fun _ s => AccountedSoon s) Accounted (resetCollection false) := by
  intro s hs
  have hlast : ∀ s : Traced, s.1.points = [] → wp ((services env).answers mayFail)
      (fun _ s => AccountedSoon s) (do call (.setEnsured false); initDb; clearHashes)
      (fun _ s' => Accounted s'.1) s := by
    intro s hnil
    refine wp_mono (Keeps.bind (keeps_points_nil (by simp)) (fun _ => .bind (keeps_points_nil (by simp))
      fun _ => keeps_points_nil (by simp)) s hnil) fun r s' hs' => .of_points_nil hs'
  unfold resetCollection
  refine wp_bind.mpr (wp_call.mpr ⟨.inr hs, ?_, fun _ => hs⟩)
  dsimp only [serve, onOk]
  split
  · refine wp_bind.mpr (wp_call.mpr ⟨.inr hs, ?_, fun _ => hs⟩)
    exact hlast _ rfl
  · next hmissing =>
    have hnone : s.1.collection = none := by simpa using hmissing
    exact hlast _ (by simp [World.points, hnone])

theorem operation_accounted (o : Operation) (hs : Accounted w) :
    wp ((services env).answers failsSafely) (fun _ s => AccountedSoon s) (o.program env)
      (fun _ s' => Accounted s'.1) (w, []) := by
  cases o with
  | indexIfChanged p =>
    refine wp_bind.mpr (wp_mono (indexIfChanged_accounted hs p) fun r s h => ?_)
    cases r <;> exact h
  | resetCollection => exact resetCollection_accounted _ hs
  | _ => exact Keeps.operation accounted_storeInvariant _ (by simp) (by simp) _ hs

/-! ## Completeness -/

/-- In every run the fingerprints account for the points, as long as failures, stops and edits are
harmless. -/
theorem StoppableRun.accounted (h : StoppableRun env failsSafely stopsSafely keepsPaths w) :
    Accounted w := by
  induction h with
  | start hpoints => exact .of_points_nil hpoints
  | edit fs _ hedit ih =>
    exact ⟨ih.drawn, fun pt hpt => hedit pt hpt (ih.real pt hpt), ih.tracks⟩
  | @operation w rest s o ensured _ hrun hstop ih =>
    have hs : Accounted { w with ensured } := ⟨ih.drawn, ih.real, ih.tracks⟩
    rcases hstop with ⟨r, rfl⟩ | hstop
    · exact wp_steps_post (operation_accounted o hs) hrun
    · have hsoon : AccountedSoon s :=
        wp_steps_inv (operation_accounted o hs) hrun (fun _ _ h => h) fun _ _ h => .inr h
      exact hsoon.resolve_left hstop

/-- As long as nothing fails or stops between the points and the fingerprint of a path that has
none, and no document's path is turned into a link, a cleanup that completes leaves nothing stale. -/
theorem cleanupStale_complete (env : Env) :
    CleanupComplete env failsSafely stopsSafely keepsPaths := by
  intro w hrun roots ensured n s hcleanup
  have hs : Accounted { w with ensured } := ⟨hrun.accounted.drawn, hrun.accounted.real, hrun.accounted.tracks⟩
  exact wp_steps_post (cleanupStale_removes hs roots) hcleanup n rfl

/-! ## Examples -/

/-- The sample file is indexed, where some kinds of calls fail at the flags, and then it is
deleted. -/
def indexedThenDeleted (fails : Call → Bool) (flags : List Bool) : World :=
  let job := (Operation.indexIfChanged samplePath).program Env.sample
  let w := (job.run (services Env.sample) (fun c _ => fails c = true) flags
    (sampleWorld [104, 105], [])).2.1
  { w with fs := (World.sample [] [["w".toList]]).fs }

theorem StoppableRun.indexedThenDeleted {mayFail : Call → World → Prop} {mayStop : Traced → Prop}
    {mayEdit : World → FileSystem → Prop} (fails : Call → Bool)
    (hfails : ∀ c w, fails c = true → mayFail c w) (flags : List Bool)
    (hedit : ∀ w fs, w.fs.SameLinks fs → mayEdit w fs) :
    StoppableRun Env.sample mayFail mayStop mayEdit (LocalRag.indexedThenDeleted fails flags) := by
  have hjob := (Prog.run_steps (services Env.sample) (fun c _ => fails c = true)
    ((Operation.indexIfChanged samplePath).program Env.sample) flags
    (sampleWorld [104, 105], [])).mono (Machine.answers_mono hfails)
  have hrun : StoppableRun Env.sample mayFail mayStop mayEdit _ :=
    .operation (.indexIfChanged samplePath) false (.start (w := sampleWorld [104, 105]) rfl) hjob
      (.inl ⟨_, rfl⟩)
  refine .edit _ hrun (hedit _ _ ?_)
  rw [steps_fs hjob]
  exact ⟨rfl, rfl, rfl⟩

/-- The cleanup of the watch root, without failures. -/
def cleanedUp (w : World) : Except Exn ℕ × Traced :=
  (cleanupStale (some [PurePath.parse "/w".toList])).run (services Env.sample) (fun _ _ => False) []
    (w, [])

theorem cleanedUp_steps {mayFail : Call → World → Prop} {w : World} {n : ℕ}
    (hn : (cleanedUp w).1 = .ok n) : (cleanupStale (some [PurePath.parse "/w".toList])).Steps
      ((services Env.sample).answers mayFail) ({ w with ensured := w.ensured }, []) (.ret (.ok n))
      (cleanedUp w).2 := by
  rw [← hn]
  exact (Prog.run_steps (services Env.sample) (fun _ _ => False) _ [] _).mono
    (Machine.answers_mono fun _ _ => False.elim)

/-- The deleted file is found and removed. -/
theorem cleanupStale_complete_sample :
    let w := indexedThenDeleted (fun _ => false) []
    w.points.length = 1 ∧ (cleanedUp w).1 = .ok 1 ∧
      NothingStale (some [PurePath.parse "/w".toList]) (cleanedUp w).2.1 := by
  intro w
  have hremoved : (cleanedUp w).1 = .ok 1 := by decide +kernel
  have hrun : StoppableRun Env.sample failsSafely stopsSafely keepsPaths w :=
    .indexedThenDeleted _ nofun [] fun _ _ hlinks _ _ hreal => hlinks.real.mpr hreal
  exact ⟨by decide +kernel, hremoved,
    cleanupStale_complete Env.sample w hrun _ _ _ _ (cleanedUp_steps hremoved)⟩

/-- The job stores the point of a new file and fails to delete stale vectors, so there is no
fingerprint, and the cleanup does not find the file. -/
theorem cleanupStale_incomplete :
    ¬ CleanupComplete Env.sample (fun c _ => c.remote = true) (fun _ => True)
      (fun w fs => w.fs.SameLinks fs) := by
  intro hcomplete
  let w := indexedThenDeleted Call.remote (List.replicate 17 false ++ [true])
  have hremoved : (cleanedUp w).1 = .ok 0 := by decide +kernel
  have hrun : StoppableRun Env.sample (fun c _ => c.remote = true) (fun _ => True)
      (fun w fs => w.fs.SameLinks fs) w :=
    .indexedThenDeleted _ (fun _ _ h => h) _ fun _ _ hlinks => hlinks
  have hclean : NothingStale _ (cleanedUp w).2.1 :=
    hcomplete w hrun _ w.ensured 0 _ (cleanedUp_steps hremoved)
  have hleft : (cleanedUp w).2.1.points.map (fun pt => pt.payload.filepath) = [samplePath] := by
    decide +kernel
  obtain ⟨pt, hpt, hpath⟩ := List.mem_map.mp (hleft ▸ List.mem_singleton_self samplePath)
  have hunder : UnderRoots (some [PurePath.parse "/w".toList]) pt.payload.filepath := by
    rintro l ⟨⟩
    rw [hpath]
    decide
  have hmissing : (cleanedUp w).2.1.fs.pathExists samplePath = false := by decide +kernel
  have hexists := hclean pt hpt hunder
  rw [hpath, hmissing] at hexists
  cases hexists

end LocalRag
