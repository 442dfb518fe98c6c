-- SUMMARY: When the stored fingerprint is the hash of the content whose chunks were stored, with edits between the accesses of the job.
import LocalRag.Base.Disturbed
import LocalRag.Ingest.Progress
import LocalRag.Ingest.Reindexing

/-!
# Fingerprint and content of a job

A job reads the file twice, once for its hash and once for its text. If the file changes in
between, the fingerprint of the first content is stored beside the chunks of the second.
-/

namespace LocalRag

open PyText PyPath Effects

/-! ## Jobs beside edits -/

/-- The files change, and nothing else. -/
def FilesChange (w w' : World) : Prop := ∃ fs, w' = { w with fs }

/-- The services, with edits before every call; every call may fail. -/
abbrev editedServices (env : Env) : Answers Services Exn (World × List (Access Services World)) :=
  (services env).disturbed FilesChange fun _ _ => True

/-- The calls that read the content of the file, or store what was made of it. -/
def Call.usesContent : Call → Bool
  | .readBytes _ | .readText _ | .upsert _ | .upsertHash _ _ => true
  | _ => false

/-- The job on `path` hashed one content and chunked another one, each the content of the file at
that time, and stored the points and the fingerprint, once each. -/
def JobAccesses (path : PurePath) (log : List (Access Services World)) (hashed read : Bytes)
    (points : List Point) (hash : Text) : Prop :=
  ∃ w₁ w₂ w₃ w₄ filepath, accesses Call.usesContent log =
    [⟨Call.readBytes path, w₁, true⟩, ⟨Call.readText path, w₂, true⟩, ⟨Call.upsert points, w₃, true⟩,
      ⟨Call.upsertHash filepath hash, w₄, true⟩] ∧
    (w₁.fs.fileAt path).map FileNode.bytes = some hashed ∧
    (w₂.fs.fileAt path).map FileNode.bytes = some read

/-- The fingerprint is the hash of a content whose chunks are the texts of the points. -/
def FingerprintFits (env : Env) (path : PurePath) (points : List Point) (hash : Text) : Prop :=
  ∃ bytes, env.sha256 bytes = hash ∧
    points.map (fun pt => pt.payload.text) = documentChunks env path (env.decode bytes)

/-- The content that was chunked has the chunks of the content that was hashed, or of one with the
same hash. -/
def SameChunks (env : Env) (path : PurePath) (hashed read : Bytes) : Prop :=
  ∃ bytes, env.sha256 bytes = env.sha256 hashed ∧
    documentChunks env path (env.decode read) = documentChunks env path (env.decode bytes)

variable {env : Env} {path filepath : PurePath} {α : Type}

/-! ## What the parts of a job record -/

abbrev JobRecords (env : Env) (p : App α) (f : α → List (Access Services World) → Prop) : Prop :=
  Records (editedServices env) Call.usesContent p f

theorem records_call {c : Call} {f : Services.Reply c → List (Access Services World) → Prop}
    (hc : c.usesContent = true) (h : ∀ w a, (serve env c w).1 = .ok a → f a [⟨c, w, true⟩]) :
    JobRecords env (call c) f :=
  .lift_kind hc h

theorem records_other {c : Call} {f : Services.Reply c → List (Access Services World) → Prop}
    (hc : c.usesContent = false) (h : ∀ a, f a []) : JobRecords env (call c) f :=
  .lift_other hc fun _ a _ => h a

theorem records_normalizePath : JobRecords env (normalizePath path) fun _ new => new = [] :=
  records_other rfl fun _ => rfl

theorem records_sha256File : JobRecords env (sha256File env path) fun hash new =>
    ∃ w bytes, (w.fs.fileAt path).map FileNode.bytes = some bytes ∧ hash = env.sha256 bytes ∧
      new = [⟨Call.readBytes path, w, true⟩] := by
  unfold sha256File
  refine .bind (f := fun (bytes : Bytes) new => ∃ w : World,
    (w.fs.fileAt path).map FileNode.bytes = some bytes ∧ new = [⟨Call.readBytes path, w, true⟩])
    (records_call rfl fun w bytes hbytes => ⟨w, orRaise_eq_ok_iff.mp hbytes, rfl⟩) ?_
  rintro bytes _ ⟨w, hbytes, rfl⟩
  exact .pure ⟨w, bytes, hbytes, rfl, rfl⟩

theorem records_getHash : JobRecords env (getHash path) fun _ new => new = [] := by
  unfold getHash
  refine .bind records_normalizePath ?_
  rintro filepath _ rfl
  exact records_other rfl fun _ => rfl

theorem records_upsertHash {hash : Text} : JobRecords env (upsertHash path hash) fun _ new =>
    ∃ filepath w, new = [⟨Call.upsertHash filepath hash, w, true⟩] := by
  unfold upsertHash
  refine .bind records_normalizePath ?_
  rintro filepath _ rfl
  exact records_call rfl fun w _ _ => ⟨filepath, w, rfl⟩

theorem records_ensureCollection : JobRecords env (ensureCollection env) fun _ new => new = [] := by
  unfold ensureCollection
  refine .bind (records_other rfl fun _ => rfl) ?_
  rintro (ensured : Bool) _ rfl
  split
  · exact .pure rfl
  refine .bind (records_other rfl fun _ => rfl) ?_
  rintro (found : Bool) _ rfl
  have hset : JobRecords env (call (.setEnsured true)) fun _ new => new = [] := records_other rfl fun _ => rfl
  split
  · refine .bind (f := fun _ new => new = []) (records_other rfl fun _ => rfl) ?_
    rintro (sparse : List Text) _ rfl
    change JobRecords env (if sparse.contains sparseVector then call (.setEnsured true)
      else throw Exn.oldLayout >>= fun _ => call (.setEnsured true)) fun _ new => new = []
    split
    · exact hset
    · exact .bind (f := fun _ _ => False) (.throw _) fun _ _ h => h.elim
  · refine .bind (f := fun _ new => new = []) (records_other rfl fun _ => rfl) ?_
    rintro _ _ rfl
    refine .bind (f := fun _ new => new = []) (records_other rfl fun _ => rfl) ?_
    rintro _ _ rfl
    refine .bind (f := fun _ new => new = []) (records_other rfl fun _ => rfl) ?_
    rintro _ _ rfl
    exact hset

theorem records_readFile : JobRecords env (readFile path) fun text new =>
    ∀ t, text = some t → ∃ w bytes, (w.fs.fileAt path).map FileNode.bytes = some bytes ∧
      t = env.decode bytes ∧ new = [⟨Call.readText path, w, true⟩] := by
  unfold readFile
  refine .bind (f := fun _ new => new = []) (records_other rfl fun _ => rfl) ?_
  rintro (size : ℕ) _ rfl
  split
  · exact .pure fun _ ht => by cases ht
  refine .tryCatch (.bind (f := fun (text : Text) new => ∃ w bytes,
    (w.fs.fileAt path).map FileNode.bytes = some bytes ∧ text = env.decode bytes ∧
      new = [⟨Call.readText path, w, true⟩]) (records_call rfl fun w text htext => ?_) ?_) ?_
  · obtain ⟨node, hnode, rfl⟩ := Option.map_eq_some_iff.mp (orRaise_eq_ok_iff.mp htext)
    exact ⟨w, node.bytes, by rw [hnode, Option.map_some], rfl, rfl⟩
  · rintro text _ ⟨w, bytes, hbytes, rfl, rfl⟩
    refine .pure ?_
    rintro _ ⟨⟩
    exact ⟨w, bytes, hbytes, rfl, rfl⟩
  · rintro _ _ ⟨⟩

/-! ### Embedding and storing -/

theorem records_embedBatch (texts : List Text) : JobRecords env (embedBatch env texts) fun vectors new =>
    vectors.length = texts.length ∧ new = [] := by
  unfold embedBatch
  split
  · next hnil => exact .pure ⟨hnil ▸ rfl, rfl⟩
  refine .bind (f := fun (prepared : List Text) new => prepared.length = texts.length ∧ new = [])
    (.ret fun prepared hprepared => ⟨mapM_prepareText_length hprepared, rfl⟩) ?_
  rintro prepared _ ⟨hprepared, rfl⟩
  refine .bind (f := fun _ new => new = []) (records_other rfl fun _ => rfl) ?_
  rintro (response : EmbedResponse) _ rfl
  exact .ret fun vectors hvectors => ⟨(parseEmbeddings_length hvectors).trans hprepared, rfl⟩

theorem records_makePoints {documentId : Text} {total : ℕ} (l : List (Text × List ℚ)) (i : ℕ) :
    JobRecords env (makePoints env path filepath documentId total l i) fun points new =>
      points.map (fun pt => pt.payload.text) = l.map Prod.fst ∧ new = [] := by
  induction l generalizing i with
  | nil => exact .pure ⟨rfl, rfl⟩
  | cons cv l ih =>
    refine .bind (f := fun _ new => new = []) (records_other rfl fun _ => rfl) ?_
    rintro (id : ℕ) _ rfl
    refine .bind (ih (i + 1)) ?_
    rintro points _ ⟨htexts, rfl⟩
    exact .pure ⟨congrArg (cv.1 :: ·) htexts, rfl⟩

theorem records_embedChunks {documentId : Text} (chunks : List Text) :
    JobRecords env (embedChunks env path filepath chunks documentId) fun points new =>
      points.map (fun pt => pt.payload.text) = chunks ∧ new = [] := by
  unfold embedChunks
  refine .bind (records_embedBatch chunks) ?_
  rintro vectors _ ⟨hlength, rfl⟩
  refine (records_makePoints _ _).mono ?_
  rintro points new ⟨htexts, hnew⟩
  exact ⟨htexts.trans (List.map_fst_zip hlength.ge), hnew⟩

theorem records_upsertChunks (points : List Point) :
    JobRecords env (upsertChunks filepath points) fun outcome new => outcome = .indexed →
      ∃ stored w, stored.map (fun pt => pt.payload.text) = points.map (fun pt => pt.payload.text) ∧
        new = [⟨Call.upsert stored, w, true⟩] := by
  unfold upsertChunks
  refine .bind (f := fun _ new => new = []) (records_other rfl fun _ => rfl) ?_
  rintro (version : ℕ) _ rfl
  have htexts : (points.map (Point.withVersion version)).map (fun pt => pt.payload.text) =
      points.map (fun pt => pt.payload.text) := by
    rw [List.map_map]
    rfl
  -- a failed upsert is caught and reported as `false`
  refine .bind (f := fun upserted new => upserted = true →
    ∃ w, new = [⟨Call.upsert (points.map (Point.withVersion version)), w, true⟩]) ?_ ?_
  · refine .tryCatch (.bind (f := fun _ new =>
      ∃ w, new = [⟨Call.upsert (points.map (Point.withVersion version)), w, true⟩])
      (records_call rfl fun w _ _ => ⟨w, rfl⟩) ?_) fun _ => nofun
    rintro _ _ ⟨w, rfl⟩
    exact .pure fun _ => ⟨w, rfl⟩
  rintro upserted new hnew
  split
  · next hupserted =>
    obtain ⟨w, rfl⟩ := hnew hupserted
    refine .tryCatch (.bind (f := fun _ new => new = []) (records_other rfl fun _ => rfl) ?_) fun _ => nofun
    rintro _ _ rfl
    exact .pure fun _ => ⟨_, w, htexts, rfl⟩
  · exact .pure nofun

/-- What a job reads after the hash, and stores before it. -/
theorem records_indexFile : JobRecords env (indexFile env path) fun outcome new => outcome = .indexed →
    ∃ w₂ w₃ read points, (w₂.fs.fileAt path).map FileNode.bytes = some read ∧
      points.map (fun pt => pt.payload.text) = documentChunks env path (env.decode read) ∧
      new = [⟨Call.readText path, w₂, true⟩, ⟨Call.upsert points, w₃, true⟩] := by
  unfold indexFile
  refine .bind records_ensureCollection ?_
  rintro _ _ rfl
  refine .bind records_normalizePath ?_
  rintro filepath _ rfl
  refine .bind records_readFile ?_
  intro text new htext
  cases text with
  | none => exact .pure nofun -- too large, or not readable
  | some text =>
    obtain ⟨w₂, read, hread, rfl, rfl⟩ := htext text rfl
    dsimp only
    split
    · exact .pure nofun
    refine .bind (f := fun points new => ∀ l, points = some l →
      l.map (fun pt => pt.payload.text) = documentChunks env path (env.decode read) ∧ new = []) ?_ ?_
    · refine .tryCatch (.bind (records_embedChunks _) ?_) fun _ => nofun
      rintro points _ ⟨htexts, rfl⟩
      refine .pure ?_
      rintro _ ⟨⟩
      exact ⟨htexts, rfl⟩
    intro points new hpoints
    cases points with
    | none => exact .pure nofun -- the embedding failed
    | some points =>
      obtain ⟨htexts, rfl⟩ := hpoints points rfl
      refine (records_upsertChunks points).mono fun outcome new hnew houtcome => ?_
      obtain ⟨stored, w₃, hstored, rfl⟩ := hnew houtcome
      exact ⟨w₂, w₃, read, stored, hread, hstored.trans htexts, rfl⟩

/-! ## The job -/

/-- A job that reports INDEXED stores the hash of the first content and the chunks of the second. -/
theorem records_indexIfChanged : JobRecords env (indexIfChanged env path) fun outcome new =>
    outcome = .indexed → ∃ w₁ w₂ w₃ w₄ filepath hashed read points,
      new = [⟨Call.readBytes path, w₁, true⟩, ⟨Call.readText path, w₂, true⟩,
        ⟨Call.upsert points, w₃, true⟩, ⟨Call.upsertHash filepath (env.sha256 hashed), w₄, true⟩] ∧
      (w₁.fs.fileAt path).map FileNode.bytes = some hashed ∧
      (w₂.fs.fileAt path).map FileNode.bytes = some read ∧
      points.map (fun pt => pt.payload.text) = documentChunks env path (env.decode read) := by
  unfold indexIfChanged
  refine .bind (f := fun _ new => new = []) (records_other rfl fun _ => rfl) ?_
  rintro (found : Bool) _ rfl
  split
  case isFalse => exact .pure nofun
  unfold indexChanged
  refine .tryCatch (.bind records_sha256File ?_) fun _ => nofun
  rintro _ _ ⟨w₁, hashed, hhashed, rfl, rfl⟩
  refine .bind records_getHash ?_
  rintro prevHash _ rfl
  split
  · exact .pure nofun
  refine .bind records_indexFile ?_
  intro outcome new hnew
  cases outcome with
  | missing => exact .pure nofun
  | unchanged => exact .pure nofun
  | failed => exact .pure nofun
  | skipped =>
    dsimp only
    split
    · exact .bind (.any _) fun _ _ _ => .pure nofun
    · exact .pure nofun
  | indexed =>
    obtain ⟨w₂, w₃, read, points, hread, htexts, rfl⟩ := hnew rfl
    refine .bind records_upsertHash ?_
    rintro _ _ ⟨filepath, w₄, rfl⟩
    exact .pure fun _ => ⟨w₁, w₂, w₃, w₄, filepath, hashed, read, points, rfl, hhashed, hread, htexts⟩

theorem jobAccesses_of_steps {w w' : World} {log : List (Access Services World)}
    (hrun : (indexIfChanged env path).Steps (editedServices env) (w, []) (.ret (.ok .indexed)) (w', log)) :
    ∃ hashed read points, JobAccesses path log hashed read points (env.sha256 hashed) ∧
      points.map (fun pt => pt.payload.text) = documentChunks env path (env.decode read) := by
  obtain ⟨new, hlog, hnew⟩ := records_indexIfChanged.steps hrun
  obtain ⟨w₁, w₂, w₃, w₄, filepath, hashed, read, points, rfl, hhashed, hread, htexts⟩ := hnew rfl
  exact ⟨hashed, read, points, ⟨w₁, w₂, w₃, w₄, filepath, hlog, hhashed, hread⟩, htexts⟩

/-- The fingerprint that a job stores fits the points that it stored if and only if the file had the
same chunks (as some content with the same hash) when it was read the second time. -/
theorem fingerprint_fits_points_iff (env : Env) (path : PurePath) (w w' : World)
    (log : List (Access Services World))
    (hrun : (indexIfChanged env path).Steps (editedServices env) (w, []) (.ret (.ok .indexed)) (w', log)) :
    ∃ hashed read points hash, JobAccesses path log hashed read points hash ∧
      (FingerprintFits env path points hash ↔ SameChunks env path hashed read) := by
  obtain ⟨hashed, read, points, haccesses, htexts⟩ := jobAccesses_of_steps hrun
  refine ⟨hashed, read, points, env.sha256 hashed, haccesses, ?_⟩
  rw [FingerprintFits, SameChunks, htexts]

/-! ## Examples -/

/-- The job on the sample file, whose content is `first` for the first two calls and then `second`. -/
def editedJob (first second : Bytes) :
    Except Exn IndexDecision × World × List (Access Services World) :=
  (indexIfChanged Env.sample samplePath).runDisturbed (services Env.sample)
    (fun n w => { w with fs := (sampleWorld (if n < 2 then first else second)).fs })
    (sampleWorld first, [])

theorem editedJob_steps (first second : Bytes) :
    (indexIfChanged Env.sample samplePath).Steps (editedServices Env.sample) (sampleWorld first, [])
      (.ret (editedJob first second).1) (editedJob first second).2 :=
  Prog.runDisturbed_steps (fun _ _ => ⟨_, rfl⟩) _ _

/-- The content of the sample file at a call. -/
def contentAt (a : Access Services World) : Option Bytes :=
  (a.state.fs.fileAt samplePath).map FileNode.bytes

/-- Without an edit the fingerprint fits. -/
theorem fingerprint_fits_points_iff_sample : ∃ points hash,
    (∃ hashed read, JobAccesses samplePath (editedJob [104, 105] [104, 105]).2.2 hashed read points hash) ∧
      FingerprintFits Env.sample samplePath points hash := by
  have hfits : ∀ r (s : World × List (Access Services World)), r = .ok .indexed →
      (accesses Call.usesContent s.2).map contentAt =
        [some [104, 105], some [104, 105], some [104, 105], some [104, 105]] →
      (indexIfChanged Env.sample samplePath).Steps (editedServices Env.sample)
        (sampleWorld [104, 105], []) (.ret r) s → ∃ points hash,
      (∃ hashed read, JobAccesses samplePath s.2 hashed read points hash) ∧
        FingerprintFits Env.sample samplePath points hash := by
    rintro _ s rfl hcontents hrun
    obtain ⟨hashed, read, points, hash, haccesses, hfits⟩ :=
      fingerprint_fits_points_iff Env.sample samplePath (sampleWorld [104, 105]) s.1 s.2 hrun
    refine ⟨points, hash, ⟨hashed, read, haccesses⟩, hfits.mpr ⟨hashed, rfl, ?_⟩⟩
    obtain ⟨w₁, w₂, w₃, w₄, filepath, hlog, hhashed, hread⟩ := haccesses
    rw [hlog] at hcontents
    obtain ⟨hfirst, hrest⟩ := List.cons_eq_cons.mp hcontents
    have hsecond := (List.cons_eq_cons.mp hrest).1
    rw [Option.some_inj.mp (hread.symm.trans (hsecond.trans (hfirst.symm.trans hhashed)))]
  exact hfits _ _ (by decide +kernel) (by decide +kernel) (editedJob_steps [104, 105] [104, 105])

/-- The texts that a call stores. -/
def storedTexts (a : Access Services World) : Option (List Text) :=
  match a.call with
  | Call.upsert points => some (points.map fun pt => pt.payload.text)
  | _ => none

/-- The fingerprint that a call stores. -/
def storedHash (a : Access Services World) : Option Text :=
  match a.call with
  | Call.upsertHash _ hash => some hash
  | _ => none

/-- The file changes after it was hashed: the fingerprint of "hi" is stored beside the chunk "ho". -/
theorem fingerprint_misses_points : ¬ ∀ (path : PurePath) (w w' : World)
    (log : List (Access Services World)), (indexIfChanged Env.sample path).Steps
      (editedServices Env.sample) (w, []) (.ret (.ok .indexed)) (w', log) →
    ∀ hashed read points hash, JobAccesses path log hashed read points hash →
      FingerprintFits Env.sample path points hash := by
  intro hfits
  -- about any run with these stores, so that the run itself stays a variable in the proof
  have hmisses : ∀ r (s : World × List (Access Services World)), r = .ok .indexed →
      (accesses Call.usesContent s.2).filterMap storedTexts = [["ho".toList]] →
      (accesses Call.usesContent s.2).filterMap storedHash = ["hi".toList] →
      ¬ (indexIfChanged Env.sample samplePath).Steps (editedServices Env.sample)
        (sampleWorld [104, 105], []) (.ret r) s := by
    rintro _ s rfl htexts hhashes hrun
    obtain ⟨hashed, read, points, haccesses, -⟩ := jobAccesses_of_steps hrun
    obtain ⟨bytes, hbytes, hchunks⟩ := hfits samplePath _ s.1 s.2 hrun _ _ _ _ haccesses
    obtain ⟨w₁, w₂, w₃, w₄, filepath, hlog, -, -⟩ := haccesses
    rw [hlog] at htexts hhashes
    have htext : points.map (fun pt => pt.payload.text) = ["ho".toList] := List.singleton_inj.mp htexts
    have hhash : Env.sample.sha256 hashed = "hi".toList := List.singleton_inj.mp hhashes
    have hdecode : Env.sample.decode bytes = "hi".toList := hbytes.trans hhash
    rw [htext, hdecode] at hchunks
    revert hchunks
    decide +kernel
  exact hmisses _ _ (by decide +kernel) (by decide +kernel) (by decide +kernel)
    (editedJob_steps [104, 105] [104, 111])

end LocalRag
