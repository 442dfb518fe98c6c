-- SUMMARY: What one run of index_file does to the stored points, call by call, whichever calls fail.
import LocalRag.Common.ServiceLaws
import LocalRag.Ingest.IndexDocuments

/-!
# One attempt to index a file

Until the upsert an attempt leaves all documents alone (`Idle`). The upsert adds
the new version beside whatever was stored, the delete of the stale vectors then
removes everything else under the filepath. `indexFile_spec` says which of these
states an attempt can be in at every call, and which belong to each outcome.
-/

namespace LocalRag

open PyText PyPath Effects Sql

/-! ## The version an attempt stores -/

/-- What `embed_batch` returns when the request goes through. -/
def embedTexts (env : Env) (texts : List Text) : Except Exn (List (List ℚ)) := do
  let prepared ← texts.mapM prepareText
  parseEmbeddings env.settings prepared.length (env.ollama prepared)

/-- The points of `_embed_chunks`, with ids from `id` on. -/
def pointsFrom (env : Env) (path filepath : PurePath) (documentId : Text) (chunkTotal : ℕ) :
    List (Text × List ℚ) → ℕ → ℕ → List Point
  | [], _, _ => []
  | (chunk, vec) :: rest, i, id =>
    { id
      dense := vec
      sparse := bm25Document env (path.name ++ ' ' :: chunk)
      payload := {
        text := chunk
        documentId
        filename := path.name
        filepath
        chunkIndex := i
        chunkTotal } } :: pointsFrom env path filepath documentId chunkTotal rest (i + 1) (id + 1)

/-- The chunks that are stored for a text. -/
def documentChunks (env : Env) (path : PurePath) (text : Text) : List Text :=
  stripChunks (chunkDocument env path text)

/-- The points an attempt stores that draws its uuids from `id` on. -/
def versionPoints (env : Env) (path filepath : PurePath) (text : Text) (vectors : List (List ℚ))
    (id : ℕ) : List Point :=
  let chunks := documentChunks env path text
  (pointsFrom env path filepath (env.uuid5 filepath.str) chunks.length (chunks.zip vectors) 0
    id).map (Point.withVersion (id + chunks.length))

/-- `points` is the version that indexing `path` in `w` stores under `filepath`. -/
structure Version (env : Env) (w : World) (path filepath : PurePath) (points : List Point) : Prop where
  normalized : w.fs.normalize path = some filepath
  exists_content : ∃ node vectors, w.fs.fileAt path = some node ∧
    node.bytes.length ≤ Settings.maxFileSize ∧
    documentChunks env path (env.decode node.bytes) ≠ [] ∧
    embedTexts env (documentChunks env path (env.decode node.bytes)) = .ok vectors ∧
    points = versionPoints env path filepath (env.decode node.bytes) vectors w.nextUuid

variable {env : Env} {path filepath : PurePath} {text : Text} {vectors : List (List ℚ)} {id : ℕ}

theorem mapM_prepareText_length {texts prepared : List Text}
    (h : texts.mapM prepareText = .ok prepared) : prepared.length = texts.length := by
  induction texts generalizing prepared with
  | nil => cases h; rfl
  | cons t texts ih =>
    rw [List.mapM_cons] at h
    cases ht : prepareText t with
    | error e => rw [ht] at h; cases h
    | ok t' =>
      cases hrest : texts.mapM prepareText with
      | error e => rw [ht, hrest] at h; cases h
      | ok rest =>
        rw [ht, hrest] at h
        cases h
        rw [List.length_cons, List.length_cons, ih hrest]

theorem parseEmbeddings_length {s : Settings} {want : ℕ} {r : EmbedResponse}
    (h : parseEmbeddings s want r = .ok vectors) : vectors.length = want := by
  unfold parseEmbeddings at h
  split at h
  · cases h
  · cases h
  · split at h
    · cases h
    · next hlen =>
      split at h
      · cases h
      · cases h; exact not_not.mp hlen

/-- One vector for each text. -/
theorem embedTexts_length {texts : List Text} (h : embedTexts env texts = .ok vectors) :
    vectors.length = texts.length := by
  unfold embedTexts at h
  cases hp : texts.mapM prepareText with
  | error e => rw [hp] at h; cases h
  | ok prepared =>
    rw [hp] at h
    rw [parseEmbeddings_length h, mapM_prepareText_length hp]

/-- The embedding service answers with a vector of the right size for every text. -/
def Env.EmbeddingWorks (env : Env) : Prop :=
  ∀ texts, ∃ vectors, env.ollama texts = .embeddings vectors ∧ vectors.length = texts.length ∧
    ∀ v ∈ vectors, (v.length : ℤ) = env.settings.vectorSize

theorem sample_embeddingWorks : Env.sample.EmbeddingWorks := by
  intro texts
  refine ⟨texts.map fun _ => [0], rfl, List.length_map _, fun v hv => ?_⟩
  obtain ⟨_, -, rfl⟩ := List.mem_map.mp hv
  rfl

/-- The chunks that are stored are not blank. -/
theorem strip_ne_nil_of_mem_documentChunks {chunk text : Text}
    (h : chunk ∈ documentChunks env path text) : strip chunk ≠ [] := by
  obtain ⟨c, hc, rfl⟩ := List.mem_map.mp h
  have hc := (List.mem_filter.mp hc).2
  rw [decide_eq_true_eq] at hc
  rw [ne_eq, strip_eq_nil_iff, nw_strip, ← strip_eq_nil_iff]
  exact hc.2

theorem mapM_prepareText_of_not_blank {texts : List Text} (htexts : ∀ text ∈ texts, strip text ≠ []) :
    ∃ prepared, texts.mapM prepareText = .ok prepared := by
  induction texts with
  | nil => exact ⟨[], rfl⟩
  | cons text texts ih =>
    obtain ⟨prepared, hprepared⟩ := ih fun t ht => htexts t (List.mem_cons_of_mem _ ht)
    have htext : prepareText text = .ok ((strip text).take Settings.maxEmbedChars) :=
      if_neg (htexts text List.mem_cons_self)
    refine ⟨(strip text).take Settings.maxEmbedChars :: prepared, ?_⟩
    rw [List.mapM_cons, htext, hprepared]
    rfl

/-- The embedding service answers for the chunks of a document. -/
theorem embedTexts_of_works (hworks : env.EmbeddingWorks) (path : PurePath) (text : Text) :
    ∃ vectors, embedTexts env (documentChunks env path text) = .ok vectors := by
  obtain ⟨prepared, hprepared⟩ := mapM_prepareText_of_not_blank
    fun chunk (hchunk : chunk ∈ documentChunks env path text) => strip_ne_nil_of_mem_documentChunks hchunk
  obtain ⟨vectors, hollama, hlength, hsize⟩ := hworks prepared
  refine ⟨vectors, ?_⟩
  unfold embedTexts
  rw [hprepared]
  have hnone : vectors.find? (fun v => decide ((v.length : ℤ) ≠ env.settings.vectorSize)) = none :=
    List.find?_eq_none.mpr fun v hv => by simp [hsize v hv]
  change parseEmbeddings env.settings prepared.length (env.ollama prepared) = .ok vectors
  rw [hollama]
  simp only [parseEmbeddings, hlength, ne_eq, not_true_eq_false, if_false, hnone]

variable {documentId : Text} {total i : ℕ} {l : List (Text × List ℚ)}

theorem pointsFrom_length :
    (pointsFrom env path filepath documentId total l i id).length = l.length := by
  induction l generalizing i id with
  | nil => rfl
  | cons cv l ih => simp [pointsFrom, ih]

theorem mem_pointsFrom {pt : Point}
    (h : pt ∈ pointsFrom env path filepath documentId total l i id) :
    pt.payload.filepath = filepath ∧ pt.payload.chunkTotal = total ∧ id ≤ pt.id ∧
      pt.id < id + l.length := by
  induction l generalizing i id with
  | nil => cases h
  | cons cv l ih =>
    rcases List.mem_cons.mp h with rfl | h
    · simp
    · obtain ⟨h₁, h₂, h₃, h₄⟩ := ih h
      refine ⟨h₁, h₂, by omega, ?_⟩
      rw [List.length_cons]
      omega

theorem pointsFrom_texts : (pointsFrom env path filepath documentId total l i id).map
    (fun pt => pt.payload.text) = l.map Prod.fst := by
  induction l generalizing i id with
  | nil => rfl
  | cons cv l ih => simp [pointsFrom, ih]

theorem pointsFrom_indices : (pointsFrom env path filepath documentId total l i id).map
    (fun pt => pt.payload.chunkIndex) = List.range' i l.length := by
  induction l generalizing i id with
  | nil => rfl
  | cons cv l ih => simp [pointsFrom, ih, List.range'_succ]

theorem pointsFrom_ids_nodup :
    ((pointsFrom env path filepath documentId total l i id).map Point.id).Nodup := by
  induction l generalizing i id with
  | nil => exact List.nodup_nil
  | cons cv l ih =>
    rw [pointsFrom, List.map_cons, List.nodup_cons]
    refine ⟨fun hmem => ?_, ih⟩
    obtain ⟨pt, hpt, hid⟩ := List.mem_map.mp hmem
    have := (mem_pointsFrom hpt).2.2.1
    simp only at hid
    omega

theorem map_withVersion_ids (v : ℕ) (points : List Point) :
    (points.map (Point.withVersion v)).map Point.id = points.map Point.id := by
  rw [List.map_map]
  rfl

/-- What every version looks like: one point for each chunk, in text order. -/
theorem versionPoints_spec (filepath : PurePath) (id : ℕ)
    (hvec : embedTexts env (documentChunks env path text) = .ok vectors) :
    let points := versionPoints env path filepath text vectors id
    let n := (documentChunks env path text).length
    points.map (fun pt => pt.payload.text) = documentChunks env path text ∧
    points.map (fun pt => pt.payload.chunkIndex) = List.range n ∧
    ∀ pt ∈ points, pt.payload.filepath = filepath ∧ pt.payload.chunkTotal = n ∧
      pt.payload.indexVersion = some (id + n) ∧ id ≤ pt.id ∧ pt.id < id + n := by
  have hlen := embedTexts_length hvec
  have hzip : ((documentChunks env path text).zip vectors).length =
      (documentChunks env path text).length := by simp [hlen]
  refine ⟨?_, ?_, ?_⟩
  · have hmap : ∀ v, (fun pt : Point => pt.payload.text) ∘ Point.withVersion v =
        fun pt => pt.payload.text := fun v => rfl
    rw [versionPoints, List.map_map, hmap, pointsFrom_texts, List.map_fst_zip hlen.ge]
  · have hmap : ∀ v, (fun pt : Point => pt.payload.chunkIndex) ∘ Point.withVersion v =
        fun pt => pt.payload.chunkIndex := fun v => rfl
    rw [versionPoints, List.map_map, hmap, pointsFrom_indices, hzip, List.range_eq_range']
  · intro pt hpt
    obtain ⟨q, hq, rfl⟩ := List.mem_map.mp hpt
    obtain ⟨h₁, h₂, h₃, h₄⟩ := mem_pointsFrom hq
    exact ⟨h₁, h₂, rfl, h₃, by rw [hzip] at h₄; exact h₄⟩

/-! ## Fresh uuids -/

/-- The stored ids and versions were all drawn already. -/
def World.UuidsDrawn (w : World) : Prop :=
  ∀ pt ∈ w.points, pt.id < w.nextUuid ∧ ∀ v ∈ pt.payload.indexVersion, v < w.nextUuid

theorem foldl_storePoint_of_fresh {stored new : List Point}
    (hfresh : ∀ pt ∈ new, ∀ q ∈ stored, q.id ≠ pt.id) (hnodup : (new.map Point.id).Nodup) :
    new.foldl storePoint stored = stored ++ new := by
  induction new generalizing stored with
  | nil => simp
  | cons pt new ih =>
    rw [List.map_cons, List.nodup_cons] at hnodup
    have hkeep : stored.filter (fun q => q.id ≠ pt.id) = stored :=
      List.filter_eq_self.mpr fun q hq => by simpa using hfresh pt (by simp) q hq
    rw [List.foldl_cons, storePoint, hkeep, ih _ hnodup.2]
    · simp
    · intro pt' hpt' q hq
      rcases List.mem_append.mp hq with hq | hq
      · exact hfresh pt' (by simp [hpt']) q hq
      · rw [List.mem_singleton.mp hq]
        intro heq
        exact hnodup.1 (List.mem_map.mpr ⟨pt', hpt', heq.symm⟩)

/-- A version is complete: it has all its chunks, and one new version number. -/
theorem Version.complete {w : World} {new : List Point} (hv : Version env w path filepath new) :
    ∃ n, 0 < n ∧ new.map (fun pt => pt.payload.chunkIndex) = List.range n ∧
      (new.map Point.id).Nodup ∧ ∀ pt ∈ new, pt.payload.filepath = filepath ∧
        pt.payload.chunkTotal = n ∧ pt.payload.indexVersion = some (w.nextUuid + n) ∧
        w.nextUuid ≤ pt.id ∧ pt.id < w.nextUuid + n := by
  obtain ⟨node, vectors, -, -, hchunks, hvec, rfl⟩ := hv.exists_content
  obtain ⟨-, hindices, hpoints⟩ := versionPoints_spec filepath w.nextUuid hvec
  refine ⟨_, List.length_pos_iff.mpr hchunks, hindices, ?_, hpoints⟩
  rw [versionPoints, map_withVersion_ids]
  exact pointsFrom_ids_nodup

/-- Deleting the stale vectors of a filepath leaves the new version of it alone. -/
theorem filter_stale {w : World} (hdrawn : w.UuidsDrawn) {new : List Point} {v : ℕ}
    (hv : w.nextUuid ≤ v) (hnew : ∀ pt ∈ new, pt.payload.indexVersion = some v) :
    ((w.points ++ new).filter fun pt => !Filter.selects ⟨filepath, some v⟩ pt) =
      w.points.filter (fun pt => pt.payload.filepath ≠ filepath) ++ new := by
  rw [List.filter_append]
  congr 1
  · refine List.filter_congr fun pt hpt => ?_
    have hother : pt.payload.indexVersion ≠ some v := fun h => by
      have := (hdrawn pt hpt).2 v h
      omega
    by_cases hfile : pt.payload.filepath = filepath <;> simp [Filter.selects, hother, hfile]
  · refine List.filter_eq_self.mpr fun pt hpt => ?_
    simp [Filter.selects, hnew pt hpt]

/-! ## States of an attempt -/

/-- Not an upsert that was carried out, and not a delete. -/
def quietCall : Call → Bool → Bool
  | .upsert _, done => !done
  | .delete _, _ => false
  | _, _ => true

/-- No upsert was carried out, and no delete was tried. -/
def Quiet (trace : List (Event Services)) : Prop := ∀ e ∈ trace, quietCall e.call e.done

/-- The documents are as in `w₀`, and `n` uuids were drawn since. A collection that
was missing may have been created. -/
structure Idle (w₀ : World) (n : ℕ) (s : Traced) : Prop where
  fs : s.1.fs = w₀.fs
  fingerprints : s.1.fingerprints = w₀.fingerprints
  collection : s.1.collection = w₀.collection ∨ w₀.collection = none ∧ s.1.points = []
  nextUuid : s.1.nextUuid = w₀.nextUuid + n
  quiet : Quiet s.2

/-- Everything but the documents is as in `w₀`. -/
structure Around (w₀ w : World) : Prop where
  fs : w.fs = w₀.fs
  fingerprints : w.fingerprints = w₀.fingerprints
  nextUuid : w₀.nextUuid ≤ w.nextUuid
  drawn : w.UuidsDrawn

/-- The new version was stored beside everything else. -/
structure Added (w₀ : World) (new : List Point) (s : Traced) : Prop extends Around w₀ s.1 where
  points : s.1.points = w₀.points ++ new
  upserted : (⟨Call.upsert new, true⟩ : Event Services) ∈ s.2

/-- The new version is all there is under the filepath. -/
structure Replaced (w₀ : World) (filepath : PurePath) (new : List Point) (s : Traced) : Prop
    extends Around w₀ s.1 where
  points : s.1.points = w₀.points.filter (fun pt => pt.payload.filepath ≠ filepath) ++ new
  upserted : (⟨Call.upsert new, true⟩ : Event Services) ∈ s.2

/-- The states an attempt passes. -/
inductive Attempt (env : Env) (w₀ : World) (path : PurePath) (s : Traced) : Prop where
  | idle {n : ℕ} (h : Idle w₀ n s)
  | added {filepath : PurePath} {new : List Point} (hv : Version env w₀ path filepath new)
      (h : Added w₀ new s)
  | replaced {filepath : PurePath} {new : List Point} (hv : Version env w₀ path filepath new)
      (h : Replaced w₀ filepath new s)

/-- The state that belongs to each outcome of an attempt. -/
def AttemptEnds (env : Env) (w₀ : World) (path : PurePath) (mayFail : Call → World → Prop) :
    Except Exn IndexDecision → Traced → Prop
  | .ok .indexed, s => ∃ filepath new, Version env w₀ path filepath new ∧ Replaced w₀ filepath new s
  | .ok .failed, s => (∃ n, Idle w₀ n s) ∨
      ∃ filepath new v, Version env w₀ path filepath new ∧ Added w₀ new s ∧
        (⟨Call.delete ⟨filepath, some v⟩, false⟩ : Event Services) ∈ s.2 ∧
        mayFail (.delete ⟨filepath, some v⟩) s.1
  | .ok .skipped, s => ∃ n, Idle w₀ n s
  | .ok _, _ => False
  | .error _, s => ∃ n, Idle w₀ n s

variable {w₀ : World} {n : ℕ} {s : Traced} {mayFail : Call → World → Prop}
  {G : Call → Traced → Prop}

theorem Idle.start (w : World) : Idle w 0 (w, []) :=
  ⟨rfl, rfl, .inl rfl, rfl, fun _ he => (List.not_mem_nil he).elim⟩

theorem Idle.points (h : Idle w₀ n s) : s.1.points = w₀.points := by
  rcases h.collection with hc | ⟨hnone, hpoints⟩
  · simp [World.points, hc]
  · simp [World.points, hnone] at hpoints ⊢
    exact hpoints

theorem Quiet.append {trace : List (Event Services)} (h : Quiet trace) {c : Call} {done : Bool}
    (he : quietCall c done) : Quiet (trace ++ [⟨c, done⟩]) := by
  intro e' he'
  rcases List.mem_append.mp he' with he' | he'
  · exact h e' he'
  · rw [List.mem_singleton.mp he']
    exact he

theorem idle_reads {c : Call} (hc : c.reads = true) (hs : Idle w₀ n s) (done : Bool) :
    Idle w₀ n ((serve env c s.1).2, s.2 ++ [⟨c, done⟩]) := by
  rw [serve_reads hc]
  refine ⟨hs.fs, hs.fingerprints, hs.collection, hs.nextUuid, hs.quiet.append ?_⟩
  cases c <;> first | rfl | cases hc

theorem idle_fault {c : Call} (hc : ∀ f, c ≠ .delete f) (hs : Idle w₀ n s) :
    Idle w₀ n (s.1, s.2 ++ [⟨c, false⟩]) := by
  refine ⟨hs.fs, hs.fingerprints, hs.collection, hs.nextUuid, hs.quiet.append ?_⟩
  cases c with
  | delete f => exact absurd rfl (hc f)
  | _ => rfl

/-! ## Rules for the calls -/

/-- A call that leaves an idle state idle. -/
theorem wp_idle {c : Call} {Q : Except Exn (Services.Reply c) → Traced → Prop} {m : ℕ}
    (hc : ∀ f, c ≠ .delete f) (hs : Idle w₀ n s) (hG : G c s)
    (hnext : Idle w₀ m ((serve env c s.1).2, s.2 ++ [⟨c, (serve env c s.1).1.toBool⟩]))
    (hok : ∀ a s', Idle w₀ m s' → (serve env c s.1).1 = .ok a → Q (.ok a) s')
    (herr : ∀ e s', (Idle w₀ n s' ∨ Idle w₀ m s') → Q (.error e) s') :
    wp ((services env).answers mayFail) G (call c) Q s := by
  refine wp_call.mpr ⟨hG, ?_, fun _ => herr _ _ (.inl (idle_fault hc hs))⟩
  cases ho : (serve env c s.1).1 with
  | ok a => exact hok a _ (ho ▸ hnext) ho
  | error e => exact herr e _ (.inr (ho ▸ hnext))

/-- A reading call in an idle state. -/
theorem wp_reads {c : Call} {Q : Except Exn (Services.Reply c) → Traced → Prop}
    (hc : c.reads = true) (hs : Idle w₀ n s) (hG : G c s)
    (hok : ∀ a s', Idle w₀ n s' → (serve env c s.1).1 = .ok a → Q (.ok a) s')
    (herr : ∀ e s', Idle w₀ n s' → Q (.error e) s') :
    wp ((services env).answers mayFail) G (call c) Q s :=
  wp_idle (by rintro f rfl; cases hc) hs hG (idle_reads hc hs _) hok
    (fun e s' h => herr e s' (h.elim id id))

/-- Reading the fingerprint in an idle state. -/
theorem wp_getHash {p : PurePath} {Q : Except Exn (Option Text) → Traced → Prop}
    (hs : Idle w₀ n s) (hG : ∀ c s', Idle w₀ n s' → G c s')
    (hok : ∀ r s', Idle w₀ n s' → w₀.fs.normalize p = some r → w₀.fingerprints.isSome →
      Q (.ok (w₀.hashAt r)) s')
    (herr : ∀ e s', Idle w₀ n s' → Q (.error e) s') :
    wp ((services env).answers mayFail) G (getHash p) Q s := by
  unfold getHash
  refine wp_bind.mpr (wp_reads rfl hs (hG _ _ hs) (fun (r : PurePath) s₁ h₁ hr => ?_) herr)
  have hnorm := orRaise_eq_ok_iff.mp hr
  rw [hs.fs] at hnorm
  dsimp only [onOk]
  refine wp_reads (c := .getHash r) rfl h₁ (hG _ _ h₁) (fun (prev : Option Text) s₂ h₂ hprev => ?_) herr
  have htable : w₀.fingerprints.isSome := by
    rw [← h₁.fingerprints]
    cases ht : s₁.1.fingerprints with
    | none => simp only [serve, onTable, ht] at hprev; cases hprev
    | some t => rfl
  obtain rfl : prev = w₀.hashAt r := by
    rw [World.hashAt, ← h₁.fingerprints]
    exact hashAt_of_getHash hprev
  exact hok r s₂ h₂ hnorm htable

/-- Drawing a uuid in an idle state. -/
theorem wp_uuid4 {Q : Except Exn ℕ → Traced → Prop} (hs : Idle w₀ n s) (hG : G .uuid4 s)
    (hok : ∀ s', Idle w₀ (n + 1) s' → Q (.ok (w₀.nextUuid + n)) s')
    (herr : ∀ e s', (Idle w₀ n s' ∨ Idle w₀ (n + 1) s') → Q (.error e) s') :
    wp ((services env).answers mayFail) G (call .uuid4) Q s := by
  refine wp_idle (m := n + 1) (by simp) hs hG ?_ (fun a s' hs' ha => ?_) herr
  · exact ⟨hs.fs, hs.fingerprints, hs.collection, congrArg (· + 1) hs.nextUuid,
      hs.quiet.append rfl⟩
  · obtain rfl : s.1.nextUuid = a := Except.ok.inj ha
    rw [hs.nextUuid]
    exact hok s' hs'

/-- Creating the missing collection. -/
theorem idle_create {c : Call} (hc : (∃ vectors sparse, c = .createCollection vectors sparse) ∨
    ∃ field schema, c = .createPayloadIndex field schema) (hnone : w₀.collection = none)
    (hs : Idle w₀ n s) (done : Bool) : Idle w₀ n ((serve env c s.1).2, s.2 ++ [⟨c, done⟩]) := by
  have hpoints : s.1.points = [] := by
    rw [hs.points, World.points, hnone]
    rfl
  rcases hc with ⟨vectors, sparse, rfl⟩ | ⟨field, schema, rfl⟩
  · cases hcol : s.1.collection with
    | some c =>
      simp only [serve, hcol]
      exact ⟨hs.fs, hs.fingerprints, hs.collection, hs.nextUuid, hs.quiet.append rfl⟩
    | none =>
      simp only [serve, hcol]
      exact ⟨hs.fs, hs.fingerprints, .inr ⟨hnone, rfl⟩, hs.nextUuid, hs.quiet.append rfl⟩
  · cases hcol : s.1.collection with
    | none =>
      simp only [serve, onCollection, hcol]
      exact ⟨hs.fs, hs.fingerprints, hs.collection, hs.nextUuid, hs.quiet.append rfl⟩
    | some c =>
      simp only [serve, onCollection, hcol]
      refine ⟨hs.fs, hs.fingerprints, .inr ⟨hnone, ?_⟩, hs.nextUuid, hs.quiet.append rfl⟩
      simpa [World.points, hcol] using hpoints

/-! ## The functions before the upsert -/

variable (hG : ∀ c s n, Idle w₀ n s → G c s)

include hG

theorem wp_create {c : Call} (hc : (∃ vectors sparse, c = .createCollection vectors sparse) ∨
    ∃ field schema, c = .createPayloadIndex field schema) (hnone : w₀.collection = none)
    (hs : Idle w₀ n s) :
    wp ((services env).answers mayFail) G (call c) (fun _ s' => Idle w₀ n s') s :=
  wp_idle (by rintro f rfl; simp at hc) hs (hG c s n hs) (idle_create hc hnone hs _)
    (fun _ _ h _ => h) (fun _ _ h => h.elim id id)

theorem ensureCollection_spec (hs : Idle w₀ n s) :
    wp ((services env).answers mayFail) G (ensureCollection env) (fun _ s' => Idle w₀ n s') s := by
  unfold ensureCollection
  refine wp_bind.mpr (wp_reads rfl hs (hG _ _ _ hs) (fun (ensured : Bool) s₁ h₁ _ => ?_) fun _ _ h => h)
  dsimp only [onOk]
  split
  · exact h₁
  refine wp_bind.mpr (wp_reads rfl h₁ (hG _ _ _ h₁) (fun (found : Bool) s₂ h₂ hfound => ?_) fun _ _ h => h)
  have hlast : ∀ s', Idle w₀ n s' → wp ((services env).answers mayFail) G (call (.setEnsured true))
      (fun _ s' => Idle w₀ n s') s' :=
    fun s' h' => wp_reads rfl h' (hG _ _ _ h') (fun _ _ h _ => h) fun _ _ h => h
  dsimp only [onOk]
  split
  · refine wp_bind.mpr (wp_reads rfl h₂ (hG _ _ _ h₂) (fun (sparse : List Text) s₃ h₃ _ => ?_) fun _ _ h => h)
    change wp _ G (if sparse.contains sparseVector then call (.setEnsured true)
      else throw Exn.oldLayout >>= fun _ => call (.setEnsured true)) _ s₃
    split
    · exact hlast _ h₃
    · exact h₃
  · next hmissing =>
    have hnone : w₀.collection = none := by
      have hc : s₁.1.collection.isSome = found := Except.ok.inj hfound
      rcases h₁.collection with hsame | ⟨hnone, _⟩
      · rw [← hsame]
        simpa [← hc] using hmissing
      · exact hnone
    refine wp_bind.mpr (wp_mono (wp_create hG (.inl ⟨_, _, rfl⟩) hnone h₂) fun r s₃ h₃ => ?_)
    cases r with
    | error e => exact h₃
    | ok _ =>
      refine wp_bind.mpr (wp_mono (wp_create hG (.inr ⟨_, _, rfl⟩) hnone h₃) fun r s₄ h₄ => ?_)
      cases r with
      | error e => exact h₄
      | ok _ =>
        refine wp_bind.mpr (wp_mono (wp_create hG (.inr ⟨_, _, rfl⟩) hnone h₄) fun r s₅ h₅ => ?_)
        cases r with
        | error e => exact h₅
        | ok _ => exact hlast _ h₅

theorem normalizePath_spec (hs : Idle w₀ n s) (path : PurePath) :
    wp ((services env).answers mayFail) G (normalizePath path)
      (fun r s' => Idle w₀ n s' ∧ ∀ p, r = .ok p → w₀.fs.normalize path = some p) s := by
  refine wp_reads rfl hs (hG _ _ _ hs) (fun p s' hs' hp => ⟨hs', ?_⟩) fun e s' hs' => ⟨hs', by simp⟩
  rintro p' ⟨⟩
  rw [← hs.fs]
  exact orRaise_eq_ok_iff.mp hp

/-- What is read is the text of a file that is not too large. -/
theorem readFile_spec (hs : Idle w₀ n s) (path : PurePath) :
    wp ((services env).answers mayFail) G (readFile path)
      (fun r s' => Idle w₀ n s' ∧ ∀ text, r = .ok (some text) → ∃ node,
        w₀.fs.fileAt path = some node ∧ node.bytes.length ≤ Settings.maxFileSize ∧
        text = env.decode node.bytes) s := by
  unfold readFile
  refine wp_bind.mpr (wp_reads rfl hs (hG _ _ _ hs) (fun (size : ℕ) s₁ h₁ hsize => ?_)
    fun _ _ h => ⟨h, by simp⟩)
  dsimp only [onOk]
  split
  · exact ⟨h₁, by simp⟩
  · next hsmall =>
    refine wp_tryCatch.mpr (wp_bind.mpr (wp_reads rfl h₁ (hG _ _ _ h₁)
      (fun (text : Text) s₂ h₂ htext => ⟨h₂, ?_⟩) fun _ _ h => ⟨h, by simp⟩))
    rintro _ ⟨⟩
    obtain ⟨node, hnode, rfl⟩ := Option.map_eq_some_iff.mp (orRaise_eq_ok_iff.mp hsize)
    obtain ⟨node', hnode', rfl⟩ := Option.map_eq_some_iff.mp (orRaise_eq_ok_iff.mp htext)
    rw [hs.fs] at hnode
    rw [h₁.fs, hnode] at hnode'
    cases hnode'
    exact ⟨node, hnode, not_lt.mp hsmall, rfl⟩

theorem embedBatch_spec (hs : Idle w₀ n s) {texts : List Text} (htexts : texts ≠ []) :
    wp ((services env).answers mayFail) G (embedBatch env texts)
      (fun r s' => Idle w₀ n s' ∧ ∀ vectors, r = .ok vectors → embedTexts env texts = .ok vectors)
      s := by
  unfold embedBatch embedTexts
  rw [if_neg htexts]
  refine wp_bind.mpr ?_
  cases hprep : texts.mapM prepareText with
  | error e => exact ⟨hs, by simp⟩
  | ok prepared =>
    refine wp_bind.mpr (wp_reads rfl hs (hG _ _ _ hs) (fun (response : EmbedResponse) s₁ h₁ hr => ?_)
      fun _ _ h => ⟨h, by simp⟩)
    obtain rfl : env.ollama prepared = response := Except.ok.inj hr
    exact ⟨h₁, fun vectors hv => hv⟩

theorem makePoints_spec (hs : Idle w₀ n s) (path filepath : PurePath) (documentId : Text) (total i : ℕ)
    (l : List (Text × List ℚ)) :
    wp ((services env).answers mayFail) G (makePoints env path filepath documentId total l i)
      (fun r s' => match r with
        | .ok points => Idle w₀ (n + l.length) s' ∧
            points = pointsFrom env path filepath documentId total l i (w₀.nextUuid + n)
        | .error _ => ∃ m, Idle w₀ m s') s := by
  induction l generalizing n i s with
  | nil => exact ⟨hs, rfl⟩
  | cons cv l ih =>
    unfold makePoints
    refine wp_bind.mpr (wp_uuid4 hs (hG _ _ _ hs) (fun s₁ h₁ => ?_)
      fun _ _ h => h.elim (fun h => ⟨_, h⟩) fun h => ⟨_, h⟩)
    refine wp_bind.mpr (wp_mono (ih h₁ (i + 1)) fun r s₂ h₂ => ?_)
    cases r with
    | error e => exact h₂
    | ok points =>
      obtain ⟨h₂, rfl⟩ := h₂
      refine ⟨?_, rfl⟩
      rwa [List.length_cons, Nat.add_comm l.length, ← Nat.add_assoc]

theorem embedChunks_spec (hs : Idle w₀ n s) (path filepath : PurePath) {chunks : List Text}
    (hchunks : chunks ≠ []) (documentId : Text) :
    wp ((services env).answers mayFail) G (embedChunks env path filepath chunks documentId)
      (fun r s' => match r with
        | .ok points => Idle w₀ (n + chunks.length) s' ∧ ∃ vectors,
            embedTexts env chunks = .ok vectors ∧ points = pointsFrom env path filepath documentId
              chunks.length (chunks.zip vectors) 0 (w₀.nextUuid + n)
        | .error _ => ∃ m, Idle w₀ m s') s := by
  unfold embedChunks
  refine wp_bind.mpr (wp_mono (embedBatch_spec hG hs hchunks) fun r s₁ h₁ => ?_)
  cases r with
  | error e => exact ⟨n, h₁.1⟩
  | ok vectors =>
    have hvec := h₁.2 vectors rfl
    have hzip : (chunks.zip vectors).length = chunks.length := by simp [embedTexts_length hvec]
    refine wp_mono (makePoints_spec hG h₁.1 path filepath documentId chunks.length 0
      (chunks.zip vectors)) fun r s₂ h₂ => ?_
    cases r with
    | error e => exact h₂
    | ok points => exact ⟨hzip ▸ h₂.1, vectors, hvec, h₂.2⟩

omit hG

/-! ## The upsert and the delete -/

/-- The upsert is carried out and adds the version, or raises and adds nothing. -/
theorem upsert_spec (hdrawn : w₀.UuidsDrawn) {new : List Point}
    (hv : Version env w₀ path filepath new) (hs : Idle w₀ n s)
    (hn : ∀ pt ∈ new, ∀ v ∈ pt.payload.indexVersion, v < w₀.nextUuid + n) :
    wp ((services env).answers mayFail) (fun _ s => Attempt env w₀ path s) (call (.upsert new))
      (fun r s' => match r with
        | .ok _ => Added w₀ new s' ∧ s'.1.collection.isSome
        | .error _ => ∃ m, Idle w₀ m s') s := by
  obtain ⟨k, hk, -, hnodup, hpoints⟩ := hv.complete
  refine wp_call.mpr ⟨.idle hs, ?_, fun _ => ⟨n, idle_fault (by simp) hs⟩⟩
  cases hcol : s.1.collection with
  | none =>
    simp only [serve, onCollection, hcol]
    exact ⟨n, hs.fs, hs.fingerprints, hs.collection, hs.nextUuid, hs.quiet.append rfl⟩
  | some c =>
    have hsome : s.1.collection.isSome := by rw [hcol]; rfl
    have hfold : (s.1.mapPoints fun stored => new.foldl storePoint stored).points =
        w₀.points ++ new := by
      rw [points_mapPoints hsome, hs.points]
      refine foldl_storePoint_of_fresh (fun pt hpt q hq heq => ?_) hnodup
      have hold := (hdrawn q hq).1
      have hnew := (hpoints pt hpt).2.2.2.1
      omega
    simp only [serve, onCollection, hcol]
    refine ⟨⟨⟨hs.fs, hs.fingerprints, ?_, ?_⟩, hfold, by simp [Except.toBool]⟩, ?_⟩
    · change w₀.nextUuid ≤ s.1.nextUuid
      rw [hs.nextUuid]
      omega
    · intro pt hpt
      change pt ∈ (s.1.mapPoints fun stored => new.foldl storePoint stored).points at hpt
      change pt.id < s.1.nextUuid ∧ ∀ v ∈ pt.payload.indexVersion, v < s.1.nextUuid
      rw [hfold] at hpt
      rw [hs.nextUuid]
      rcases List.mem_append.mp hpt with hold | hnew
      · obtain ⟨hid, hver⟩ := hdrawn pt hold
        exact ⟨by omega, fun v hv => by have := hver v hv; omega⟩
      · have hver := hn pt hnew
        have hpt := (hpoints pt hnew).2.2
        refine ⟨?_, hver⟩
        have := hver _ hpt.1
        omega
    · simpa [World.mapPoints] using hsome

/-- The stale vectors are deleted, or the call raises and they stay. -/
theorem delete_spec (hdrawn : w₀.UuidsDrawn) {new : List Point}
    (hv : Version env w₀ path filepath new) (hs : Added w₀ new s) (hcol : s.1.collection.isSome)
    {v : ℕ} (hver : ∀ pt ∈ new, pt.payload.indexVersion = some v) :
    wp ((services env).answers mayFail) (fun _ s => Attempt env w₀ path s)
      (call (.delete ⟨filepath, some v⟩))
      (fun r s' => match r with
        | .ok _ => Replaced w₀ filepath new s'
        | .error _ => Added w₀ new s' ∧
            (⟨Call.delete ⟨filepath, some v⟩, false⟩ : Event Services) ∈ s'.2 ∧
            mayFail (.delete ⟨filepath, some v⟩) s'.1) s := by
  obtain ⟨k, hk, hindices, -, hpoints⟩ := hv.complete
  have hfresh : w₀.nextUuid ≤ v := by
    obtain ⟨pt, hpt⟩ : ∃ pt, pt ∈ new := by
      refine List.exists_mem_of_ne_nil _ fun hnil => ?_
      have := congrArg List.length hindices
      simp [hnil] at this
      omega
    have h₁ := hver pt hpt
    rw [(hpoints pt hpt).2.2.1] at h₁
    cases h₁
    omega
  refine wp_call.mpr ⟨.added hv hs, ?_, fun hfail => ⟨⟨hs.toAround, hs.points, ?_⟩, ?_, hfail⟩⟩
  · obtain ⟨c, hc⟩ := Option.isSome_iff_exists.mp hcol
    simp only [serve, onCollection, hc]
    have hdel : (s.1.mapPoints fun stored =>
        stored.filter fun pt => !Filter.selects ⟨filepath, some v⟩ pt).points =
        w₀.points.filter (fun pt => pt.payload.filepath ≠ filepath) ++ new := by
      rw [points_mapPoints hcol, hs.points, filter_stale hdrawn hfresh hver]
    refine ⟨⟨hs.fs, hs.fingerprints, hs.nextUuid, fun pt hpt => ?_⟩, hdel, by simp [hs.upserted]⟩
    change pt ∈ (s.1.mapPoints fun stored =>
        stored.filter fun pt => !Filter.selects ⟨filepath, some v⟩ pt).points at hpt
    refine hs.drawn pt ?_
    rw [hdel] at hpt
    rw [hs.points]
    exact List.mem_append.mpr ((List.mem_append.mp hpt).imp List.mem_of_mem_filter id)
  · exact List.mem_append_left _ hs.upserted
  · simp

/-- `index_file`, in a world where all stored uuids were drawn. -/
theorem indexFile_spec (hdrawn : w₀.UuidsDrawn) (hs : Idle w₀ 0 s) (path : PurePath) :
    wp ((services env).answers mayFail) (fun _ s => Attempt env w₀ path s) (indexFile env path)
      (AttemptEnds env w₀ path mayFail) s := by
  have hG : ∀ (c : Call) s n, Idle w₀ n s → (fun _ s => Attempt env w₀ path s) c s :=
    fun _ _ _ h => .idle h
  unfold indexFile
  refine wp_bind.mpr (wp_mono (ensureCollection_spec hG hs) fun r s₁ h₁ => ?_)
  cases r with
  | error e => exact ⟨0, h₁⟩
  | ok _ =>
  refine wp_bind.mpr (wp_mono (normalizePath_spec hG h₁ path) fun r s₂ h₂ => ?_)
  cases r with
  | error e => exact ⟨0, h₂.1⟩
  | ok filepath =>
  have hnorm := h₂.2 filepath rfl
  refine wp_bind.mpr (wp_mono (readFile_spec hG h₂.1 path) fun r s₃ h₃ => ?_)
  cases r with
  | error e => exact ⟨0, h₃.1⟩
  | ok text =>
  cases text with
  | none => exact ⟨0, h₃.1⟩
  | some text =>
  obtain ⟨node, hfile, hsize, rfl⟩ := h₃.2 text rfl
  simp only [onOk]
  split
  · exact ⟨0, h₃.1⟩
  next hchunks =>
  refine wp_bind.mpr (wp_tryCatch.mpr (wp_map.mpr (wp_mono
    (embedChunks_spec hG h₃.1 path filepath hchunks _) fun r s₄ h₄ => ?_)))
  cases r with
  | error e => obtain ⟨m, h₄⟩ := h₄; exact .inl ⟨m, h₄⟩
  | ok points =>
  obtain ⟨h₄, vectors, hvec, hpoints⟩ := h₄
  have hv : Version env w₀ path filepath (versionPoints env path filepath (env.decode node.bytes)
      vectors w₀.nextUuid) :=
    ⟨hnorm, node, vectors, hfile, hsize, hchunks, hvec, rfl⟩
  simp only [onOk, upsertChunks]
  refine wp_bind.mpr (wp_uuid4 h₄ (.idle h₄) (fun s₅ h₅ => ?_)
    fun _ _ h => h.elim (fun h => ⟨_, h⟩) fun h => ⟨_, h⟩)
  simp only [onOk]
  obtain rfl := hpoints
  rw [Nat.zero_add]
  have hnew : (pointsFrom env path filepath (env.uuid5 filepath.str)
      (stripChunks (chunkDocument env path (env.decode node.bytes))).length
      ((stripChunks (chunkDocument env path (env.decode node.bytes))).zip vectors) 0
      (w₀.nextUuid + 0)).map (Point.withVersion (w₀.nextUuid +
        (stripChunks (chunkDocument env path (env.decode node.bytes))).length)) =
      versionPoints env path filepath (env.decode node.bytes) vectors w₀.nextUuid := rfl
  rw [hnew]
  have hver : ∀ pt ∈ versionPoints env path filepath (env.decode node.bytes) vectors w₀.nextUuid,
      pt.payload.indexVersion = some (w₀.nextUuid +
        (stripChunks (chunkDocument env path (env.decode node.bytes))).length) :=
    fun pt hpt => ((versionPoints_spec filepath _ hvec).2.2 pt hpt).2.2.1
  refine wp_bind.mpr (wp_tryCatch.mpr (wp_bind.mpr (wp_mono (upsert_spec hdrawn hv h₅ ?_)
    fun r s₆ h₆ => ?_)))
  · intro pt hpt v hpv
    rw [hver pt hpt] at hpv
    cases hpv
    omega
  cases r with
  | error e => exact .inl h₆
  | ok _ =>
  obtain ⟨h₆, hcol⟩ := h₆
  refine wp_tryCatch.mpr (wp_bind.mpr (wp_mono (delete_spec hdrawn hv h₆ hcol hver) fun r s₇ h₇ => ?_))
  cases r with
  | ok _ => exact ⟨filepath, _, hv, h₇⟩
  | error e => exact .inr ⟨filepath, _, _, hv, h₇⟩

end LocalRag
