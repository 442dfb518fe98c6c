-- SUMMARY: A job on an indexable file reaches INDEXED when nothing fails, whatever other threads do elsewhere; what a fresh index_file leaves.
import LocalRag.Indexer.Watcher
import LocalRag.Ingest.IndexSpec

/-!
# Progress of a job

While a job on a path runs, other threads and the user may change other files and
other documents (`Rely`). Nothing they do keeps the job from its end: if no call of
the job fails, an indexable file is indexed and its fingerprint is stored.
-/

namespace LocalRag

open PyText PyPath Effects Sql

/-! ## Undisturbed runs -/

/-- What others leave alone while a job on `p` runs. -/
structure Rely (p : PurePath) (w w₁ : World) : Prop where
  links : w.fs.SameLinks w₁.fs
  file : w₁.fs.files.lookup p.names = w.fs.files.lookup p.names
  hash : w₁.hashAt p = w.hashAt p
  table : w₁.fingerprints.isSome = w.fingerprints.isSome
  layout : w₁.collection.map Collection.sparseVectors = w.collection.map Collection.sparseVectors
  ensured : w₁.ensured = w.ensured

theorem Rely.refl (p : PurePath) (w : World) : Rely p w w :=
  ⟨.refl _, rfl, rfl, rfl, rfl, rfl⟩

/-- Every call of the job is carried out, after others did what they may. -/
def Undisturbed (env : Env) (p : PurePath) : Answers Services Exn World :=
  fun c w o w' => ∃ w₁, Rely p w w₁ ∧ o = (serve env c w₁).1 ∧ w' = (serve env c w₁).2

/-- The services are set up: the fingerprint table exists, and the collection has the
current layout and exists when `_collection_ensured` says so. -/
structure World.Ready (w : World) : Prop where
  table : w.fingerprints.isSome
  layout : ∀ c, w.collection = some c → sparseVector ∈ c.sparseVectors
  ensured : w.ensured = true → w.collection.isSome

/-- `p` is the real path of a file that is indexed: it is not too large, it has chunks, and
the embedding service answers for them. -/
structure Indexable (env : Env) (fs : FileSystem) (p : PurePath) (node : FileNode)
    (vectors : List (List ℚ)) : Prop where
  real : fs.Real p
  file : fs.files.lookup p.names = some node
  size : node.bytes.length ≤ Settings.maxFileSize
  chunks : documentChunks env p (env.decode node.bytes) ≠ []
  embed : embedTexts env (documentChunks env p (env.decode node.bytes)) = .ok vectors

/-- A job sees an indexable file and a stored fingerprint; `found` says whether there is a
collection. -/
structure Sees (env : Env) (p : PurePath) (node : FileNode) (vectors : List (List ℚ))
    (prev : Option Text) (found : Bool) (w : World) : Prop where
  indexable : Indexable env w.fs p node vectors
  hash : w.hashAt p = prev
  found : w.collection.isSome = found
  ready : w.Ready

variable {env : Env} {p : PurePath} {node : FileNode} {vectors : List (List ℚ)} {prev : Option Text}
  {found : Bool} {w w₁ : World}

theorem Indexable.sameLinks {fs fs' : FileSystem} (h : Indexable env fs p node vectors)
    (hlinks : fs.SameLinks fs') (hfile : fs'.files.lookup p.names = fs.files.lookup p.names) :
    Indexable env fs' p node vectors :=
  ⟨hlinks.real.mpr h.real, hfile.trans h.file, h.size, h.chunks, h.embed⟩

theorem Indexable.fileAt {fs : FileSystem} (h : Indexable env fs p node vectors) :
    fs.fileAt p = some node := by
  rw [fs.fileAt_of_real h.real, h.file]

theorem Rely.isSome (h : Rely p w w₁) : w₁.collection.isSome = w.collection.isSome := by
  simpa using congrArg Option.isSome h.layout

theorem Sees.rely (hs : Sees env p node vectors prev found w) (h : Rely p w w₁) :
    Sees env p node vectors prev found w₁ := by
  refine ⟨hs.indexable.sameLinks h.links h.file, h.hash.trans hs.hash, h.isSome.trans hs.found, ?_⟩
  refine ⟨?_, fun c hc => ?_, ?_⟩
  · rw [h.table]
    exact hs.ready.table
  · have hlayout := h.layout
    rw [hc] at hlayout
    obtain ⟨c', hc', hsparse⟩ := Option.map_eq_some_iff.mp hlayout.symm
    rw [← hsparse]
    exact hs.ready.layout c' hc'
  · rw [h.ensured, h.isSome]
    exact hs.ready.ensured

/-! ## Calls of a job -/

/-- Calls that keep the services set up, wherever they are made. -/
def Call.keepsReady : Call → Bool
  | .createCollection _ _ | .deleteCollection | .setEnsured _ => false
  | _ => true

theorem serve_ready {c : Call} (hc : c.keepsReady = true) (h : w.Ready) :
    (serve env c w).2.Ready ∧ (serve env c w).2.collection.isSome = w.collection.isSome := by
  obtain ⟨t, ht⟩ := Option.isSome_iff_exists.mp h.table
  cases c with
  | createCollection vectors sparse => cases hc
  | deleteCollection => cases hc
  | setEnsured value => cases hc
  | initDb => exact ⟨⟨rfl, h.layout, h.ensured⟩, rfl⟩
  | uuid4 => exact ⟨⟨h.table, h.layout, h.ensured⟩, rfl⟩
  | upsertHash q hash | deleteHash q | clearHashes =>
    simp only [serve, onTable, ht]
    exact ⟨⟨by simp [World.mapHashes, ht], h.layout, h.ensured⟩, rfl⟩
  | upsert points | delete f | createPayloadIndex field schema =>
    cases hcol : w.collection with
    | none =>
      simp only [serve, onCollection, hcol]
      exact ⟨h, trivial⟩
    | some col =>
      have hlayout := h.layout col hcol
      simp only [serve, onCollection, hcol, World.mapPoints, Option.map_some]
      refine ⟨⟨h.table, fun c hc => ?_, fun _ => rfl⟩, rfl⟩
      cases hc
      exact hlayout
  | _ =>
    simp only [serve, orRaise, onCollection, onTable]
    first
      | exact ⟨h, trivial⟩
      | (split <;> exact ⟨h, rfl⟩)

theorem Sees.serve {c : Call} (hs : Sees env p node vectors prev found w)
    (hc : c.keepsReady = true) (hh : c.setsHash p = false) :
    Sees env p node vectors prev found (serve env c w).2 := by
  obtain ⟨hready, hfound⟩ := serve_ready hc hs.ready
  refine ⟨?_, (serve_hashAt hh).trans hs.hash, hfound.trans hs.found, hready⟩
  rw [serve_fs]
  exact hs.indexable

/-- A call that changes nothing a job sees, with what is known of its reply. -/
theorem wp_sees {c : Call} {R : Services.Reply c → Prop}
    {Q : Except Exn (Services.Reply c) → World → Prop} (hs : Sees env p node vectors prev found w)
    (hc : c.keepsReady = true) (hh : c.setsHash p = false)
    (hreply : ∀ w₁, Rely p w w₁ → Sees env p node vectors prev found w₁ →
      ∃ a, (LocalRag.serve env c w₁).1 = .ok a ∧ R a)
    (hQ : ∀ a w', R a → Sees env p node vectors prev found w' → Q (.ok a) w') :
    wp (Undisturbed env p) (fun _ _ => True) (call c) Q w := by
  refine wp_lift.mpr ⟨trivial, ?_⟩
  rintro o w' ⟨w₁, hrely, rfl, rfl⟩
  have hs₁ := hs.rely hrely
  obtain ⟨a, ha, hR⟩ := hreply w₁ hrely hs₁
  rw [ha]
  exact hQ a _ hR (hs₁.serve hc hh)

/-- A call whose reply does not matter. -/
theorem wp_sees_any {c : Call} {Q : Except Exn (Services.Reply c) → World → Prop}
    (hs : Sees env p node vectors prev found w) (hc : c.keepsReady = true)
    (hh : c.setsHash p = false)
    (hreply : ∀ w₁, Sees env p node vectors prev found w₁ →
      ∃ a, (LocalRag.serve env c w₁).1 = .ok a)
    (hQ : ∀ a w', Sees env p node vectors prev found w' → Q (.ok a) w') :
    wp (Undisturbed env p) (fun _ _ => True) (call c) Q w :=
  wp_sees (R := fun _ => True) hs hc hh
    (fun w₁ _ hs₁ => (hreply w₁ hs₁).imp fun _ ha => ⟨ha, trivial⟩) (fun a w' _ hs' => hQ a w' hs')

/-! ## The functions of a job -/

theorem wp_setEnsured {Q : Except Exn Unit → World → Prop}
    (hs : Sees env p node vectors prev true w)
    (hQ : ∀ w', Sees env p node vectors prev true w' → Q (.ok ()) w') :
    wp (Undisturbed env p) (fun _ _ => True) (call (.setEnsured true)) Q w := by
  refine wp_lift.mpr ⟨trivial, ?_⟩
  rintro o w' ⟨w₁, hrely, rfl, rfl⟩
  have hs₁ := hs.rely hrely
  exact hQ _ ⟨hs₁.indexable, hs₁.hash, hs₁.found, hs₁.ready.table, hs₁.ready.layout,
    fun _ => hs₁.found⟩

theorem ensureCollection_progress (hs : Sees env p node vectors prev found w) :
    wp (Undisturbed env p) (fun _ _ => True) (ensureCollection env)
      (fun r w' => r = .ok () ∧ Sees env p node vectors prev true w') w := by
  unfold ensureCollection
  refine wp_bind.mpr (wp_sees (c := .getEnsured) (R := fun a : Bool => a = true → found = true) hs rfl rfl
    (fun w₁ _ hs₁ => ⟨_, rfl, fun ha => hs₁.found ▸ hs₁.ready.ensured ha⟩)
    fun (ensured : Bool) w₁ hensured hs₁ => ?_)
  dsimp only [onOk]
  split
  · next htrue =>
    obtain rfl := hensured htrue
    exact ⟨rfl, hs₁⟩
  refine wp_bind.mpr (wp_sees (c := .collectionExists) (R := fun a : Bool => a = found) hs₁ rfl rfl
    (fun w₂ _ hs₂ => ⟨_, rfl, hs₂.found⟩) fun (collectionExists : Bool) w₂ hfound hs₂ => ?_)
  obtain rfl : collectionExists = found := hfound
  have hlast : ∀ w', Sees env p node vectors prev true w' →
      wp (Undisturbed env p) (fun _ _ => True) (call (.setEnsured true))
        (fun r w' => r = .ok () ∧ Sees env p node vectors prev true w') w' :=
    fun w' hs' => wp_setEnsured hs' fun w'' hs'' => ⟨rfl, hs''⟩
  dsimp only [onOk]
  split
  · next htrue =>
    subst htrue
    refine wp_bind.mpr (wp_sees (c := .getCollection) (R := fun l : List Text => sparseVector ∈ l) hs₂ rfl rfl (fun w₃ _ hs₃ => ?_)
      fun (sparse : List Text) w₃ hsparse hs₃ => ?_)
    · obtain ⟨c, hc⟩ := Option.isSome_iff_exists.mp hs₃.found
      exact ⟨c.sparseVectors, by simp [serve, onCollection, hc], hs₃.ready.layout c hc⟩
    · have hcontains : sparse.contains sparseVector = true := by simpa using hsparse
      change wp _ _ (if sparse.contains sparseVector then call (.setEnsured true)
        else throw Exn.oldLayout >>= fun _ => call (.setEnsured true)) _ w₃
      rw [if_pos hcontains]
      exact hlast w₃ hs₃
  · next hmissing =>
    obtain rfl : collectionExists = false := by simpa using hmissing
    have hcreate : wp (Undisturbed env p) (fun _ _ => True)
        (call (.createCollection [(denseVector, ⟨env.settings.vectorSize, .cosine⟩)]
          [(sparseVector, .idf)]))
        (fun r w' => r = .ok () ∧ Sees env p node vectors prev true w') w₂ := by
      refine wp_lift.mpr ⟨trivial, ?_⟩
      rintro o w' ⟨w₃, hrely, rfl, rfl⟩
      have hs₃ := hs₂.rely hrely
      have hnone : w₃.collection = none := by simpa using hs₃.found
      simp only [serve, hnone]
      refine ⟨trivial, hs₃.indexable, hs₃.hash, rfl, hs₃.ready.table, ?_, fun _ => rfl⟩
      rintro c ⟨⟩
      exact List.mem_singleton_self _
    have hindex : ∀ field schema w', Sees env p node vectors prev true w' →
        wp (Undisturbed env p) (fun _ _ => True) (call (.createPayloadIndex field schema))
          (fun r w' => r = .ok () ∧ Sees env p node vectors prev true w') w' := by
      refine fun field schema w' hs' => wp_sees_any hs' rfl rfl (fun w₁ hs₁ => ?_) fun _ _ h => ⟨rfl, h⟩
      obtain ⟨c, hc⟩ := Option.isSome_iff_exists.mp hs₁.found
      exact ⟨(), by simp [serve, onCollection, hc]⟩
    refine wp_bind.mpr (wp_mono hcreate ?_)
    rintro _ w₃ ⟨rfl, hs₃⟩
    refine wp_bind.mpr (wp_mono (hindex _ _ w₃ hs₃) ?_)
    rintro _ w₄ ⟨rfl, hs₄⟩
    refine wp_bind.mpr (wp_mono (hindex _ _ w₄ hs₄) ?_)
    rintro _ w₅ ⟨rfl, hs₅⟩
    exact hlast w₅ hs₅

theorem normalizePath_progress (hs : Sees env p node vectors prev found w) :
    wp (Undisturbed env p) (fun _ _ => True) (normalizePath p)
      (fun r w' => r = .ok p ∧ Sees env p node vectors prev found w') w := by
  refine wp_sees (c := .normalizePath p) (R := fun a : PurePath => a = p) hs rfl rfl
    (fun w₁ _ hs₁ => ⟨p, orRaise_eq_ok_iff.mpr ?_, rfl⟩)
    fun a w' ha hs' => ⟨congrArg Except.ok ha, hs'⟩
  exact FileSystem.normalize_of_real hs₁.indexable.real

theorem readFile_progress (hs : Sees env p node vectors prev found w) :
    wp (Undisturbed env p) (fun _ _ => True) (readFile p)
      (fun r w' => r = .ok (some (env.decode node.bytes)) ∧
        Sees env p node vectors prev found w') w := by
  unfold readFile
  refine wp_bind.mpr (wp_sees (c := .fileSize p) (R := fun n : ℕ => n = node.bytes.length) hs rfl rfl
    (fun w₁ _ hs₁ => ⟨_, orRaise_eq_ok_iff.mpr ?_, rfl⟩) fun (size : ℕ) w₁ hsize hs₁ => ?_)
  · rw [hs₁.indexable.fileAt]; rfl
  have hsmall : ¬ size > Settings.maxFileSize := not_lt.mpr (hsize ▸ hs.indexable.size)
  simp only [onOk, if_neg hsmall]
  refine wp_tryCatch.mpr (wp_bind.mpr (wp_sees (c := .readText p)
    (R := fun t : Text => t = env.decode node.bytes) hs₁ rfl rfl
    (fun w₂ _ hs₂ => ⟨_, orRaise_eq_ok_iff.mpr ?_, rfl⟩) ?_))
  · rw [hs₂.indexable.fileAt]; rfl
  · rintro text w₂ rfl hs₂
    exact ⟨rfl, hs₂⟩

theorem makePoints_progress (hs : Sees env p node vectors prev found w) (documentId : Text)
    (total i : ℕ) (l : List (Text × List ℚ)) :
    wp (Undisturbed env p) (fun _ _ => True) (makePoints env p p documentId total l i)
      (fun r w' => ∃ points, r = .ok points ∧ Sees env p node vectors prev found w') w := by
  induction l generalizing i w with
  | nil => exact ⟨_, rfl, hs⟩
  | cons cv l ih =>
    unfold makePoints
    refine wp_bind.mpr (wp_sees_any hs rfl rfl (fun w₁ _ => ⟨_, rfl⟩) fun id w₁ hs₁ => ?_)
    refine wp_bind.mpr (wp_mono (ih hs₁ (i + 1)) ?_)
    rintro _ w₂ ⟨points, rfl, hs₂⟩
    exact ⟨_, rfl, hs₂⟩

theorem embedChunks_progress (hs : Sees env p node vectors prev found w) (documentId : Text) :
    wp (Undisturbed env p) (fun _ _ => True)
      (embedChunks env p p (documentChunks env p (env.decode node.bytes)) documentId)
      (fun r w' => ∃ points, r = .ok points ∧ Sees env p node vectors prev found w') w := by
  have hembed := hs.indexable.embed
  unfold embedTexts at hembed
  unfold embedChunks embedBatch
  rw [if_neg hs.indexable.chunks]
  refine wp_bind.mpr (wp_bind.mpr ?_)
  cases hprep : (documentChunks env p (env.decode node.bytes)).mapM prepareText with
  | error e => rw [hprep] at hembed; cases hembed
  | ok prepared =>
    rw [hprep] at hembed
    refine wp_bind.mpr (wp_sees (c := .embed prepared)
      (R := fun r : EmbedResponse => r = env.ollama prepared) hs rfl rfl
      (fun w₁ _ _ => ⟨_, rfl, rfl⟩) ?_)
    rintro _ w₁ rfl hs₁
    have hparse : parseEmbeddings env.settings prepared.length (env.ollama prepared) = .ok vectors :=
      hembed
    simp only [onOk, hparse]
    exact makePoints_progress hs₁ _ _ _ _

theorem upsertChunks_progress (hs : Sees env p node vectors prev true w) (points : List Point) :
    wp (Undisturbed env p) (fun _ _ => True) (upsertChunks p points)
      (fun r w' => r = .ok .indexed ∧ Sees env p node vectors prev true w') w := by
  have hcol : ∀ {w₁ : World}, Sees env p node vectors prev true w₁ → ∃ c, w₁.collection = some c :=
    fun hs₁ => Option.isSome_iff_exists.mp hs₁.found
  unfold upsertChunks
  refine wp_bind.mpr (wp_sees_any hs rfl rfl (fun w₁ _ => ⟨_, rfl⟩) fun version w₁ hs₁ => ?_)
  refine wp_bind.mpr (wp_tryCatch.mpr (wp_bind.mpr (wp_sees_any hs₁ rfl rfl (fun w₂ hs₂ => ?_)
    fun _ w₂ hs₂ => ?_)))
  · obtain ⟨c, hc⟩ := hcol hs₂
    exact ⟨(), by simp [serve, onCollection, hc]⟩
  refine wp_tryCatch.mpr (wp_bind.mpr (wp_sees_any hs₂ rfl rfl (fun w₃ hs₃ => ?_)
    fun _ w₃ hs₃ => ⟨rfl, hs₃⟩))
  obtain ⟨c, hc⟩ := hcol hs₃
  exact ⟨(), by simp [serve, onCollection, hc]⟩

/-- An undisturbed attempt on an indexable file succeeds. -/
theorem indexFile_progress (hs : Sees env p node vectors prev found w) :
    wp (Undisturbed env p) (fun _ _ => True) (indexFile env p)
      (fun r w' => r = .ok .indexed ∧ Sees env p node vectors prev true w') w := by
  unfold indexFile
  refine wp_bind.mpr (wp_mono (ensureCollection_progress hs) ?_)
  rintro _ w₁ ⟨rfl, hs₁⟩
  refine wp_bind.mpr (wp_mono (normalizePath_progress hs₁) ?_)
  rintro _ w₂ ⟨rfl, hs₂⟩
  refine wp_bind.mpr (wp_mono (readFile_progress hs₂) ?_)
  rintro _ w₃ ⟨rfl, hs₃⟩
  have hchunks : stripChunks (chunkDocument env p (env.decode node.bytes)) ≠ [] :=
    hs.indexable.chunks
  simp only [onOk, if_neg hchunks]
  refine wp_bind.mpr (wp_tryCatch.mpr (wp_map.mpr (wp_mono (embedChunks_progress hs₃ _) ?_)))
  rintro _ w₄ ⟨points, rfl, hs₄⟩
  exact upsertChunks_progress hs₄ points

theorem upsertHash_progress (hs : Sees env p node vectors prev found w) (h : Text) :
    wp (Undisturbed env p) (fun _ _ => True) (upsertHash p h)
      (fun r w' => r = .ok () ∧ Sees env p node vectors (some h) found w') w := by
  unfold upsertHash
  refine wp_bind.mpr (wp_mono (normalizePath_progress hs) ?_)
  rintro _ w₁ ⟨rfl, hs₁⟩
  dsimp only [onOk]
  refine wp_lift.mpr ⟨trivial, ?_⟩
  rintro o w' ⟨w₂, hrely, rfl, rfl⟩
  have hs₂ := hs₁.rely hrely
  obtain ⟨t, ht⟩ := Option.isSome_iff_exists.mp hs₂.ready.table
  obtain ⟨hready, hfound⟩ := serve_ready (c := .upsertHash p h) rfl hs₂.ready
  refine ⟨by simp only [serve, onTable, ht]; rfl, ?_, ?_, hfound.trans hs₂.found, hready⟩
  · rw [serve_fs]
    exact hs₂.indexable
  · simp only [serve, onTable, ht]
    exact hashAt_mapHashes_upsert_self hs₂.ready.table

/-- An undisturbed job on an indexable file leaves the fingerprint of its content. -/
theorem indexIfChanged_progress (hs : Sees env p node vectors prev found w) :
    wp (Undisturbed env p) (fun _ _ => True) (indexIfChanged env p)
      (fun _ w' => ∃ found, Sees env p node vectors (some (env.sha256 node.bytes)) found w') w := by
  unfold indexIfChanged
  refine wp_bind.mpr (wp_sees (c := .pathExists p) (R := fun b : Bool => b = true) hs rfl rfl
    (fun w₁ _ hs₁ => ⟨_, rfl, ?_⟩) ?_)
  · simp [FileSystem.pathExists, FileSystem.isFile, hs₁.indexable.fileAt]
  rintro _ w₁ rfl hs₁
  refine wp_tryCatch.mpr ?_
  unfold indexChanged sha256File
  refine wp_bind.mpr (wp_bind.mpr (wp_sees (c := .readBytes p) (R := fun b : Bytes => b = node.bytes)
    hs₁ rfl rfl (fun w₂ _ hs₂ => ⟨_, orRaise_eq_ok_iff.mpr ?_, rfl⟩) ?_))
  · rw [hs₂.indexable.fileAt]; rfl
  rintro _ w₂ rfl hs₂
  refine wp_bind.mpr (wp_bind.mpr (wp_mono (normalizePath_progress hs₂) ?_))
  rintro _ w₃ ⟨rfl, hs₃⟩
  refine wp_sees (c := .getHash p) (R := fun h : Option Text => h = prev) hs₃ rfl rfl
    (fun w₄ _ hs₄ => ⟨w₄.hashAt p, ?_, hs₄.hash⟩) ?_
  · obtain ⟨t, ht⟩ := Option.isSome_iff_exists.mp hs₄.ready.table
    simp [serve, onTable, ht, World.hashAt]
  rintro _ w₄ rfl hs₄
  dsimp only [onOk]
  split
  · next hsame => exact ⟨_, hsame ▸ hs₄⟩
  refine wp_bind.mpr (wp_mono (indexFile_progress hs₄) ?_)
  rintro _ w₅ ⟨rfl, hs₅⟩
  refine wp_bind.mpr (wp_mono (upsertHash_progress hs₅ _) ?_)
  rintro _ w₆ ⟨rfl, hs₆⟩
  exact ⟨true, hs₆⟩

end LocalRag
