-- SUMMARY: What a job leaves without failures: the points and the fingerprint of the content.
import LocalRag.Ingest.Fresh

/-! # A job without failures -/

namespace LocalRag

open PyText PyPath Effects

variable {env : Env} {p : PurePath} {w : World} {c : Call} {t : List (Event Services)}

/-- Nothing is stored of `p`, or the fingerprint and the points of its content are. -/
def Settled (env : Env) (p : PurePath) (w : World) : Prop :=
  (w.hashAt p = none ∧ w.pointsAt p = []) ∨
  ∃ node vectors id, Indexable env w.fs p node vectors ∧
    w.hashAt p = some (env.sha256 node.bytes) ∧
    w.pointsAt p = versionPoints env p p (env.decode node.bytes) vectors id

/-- The points of the content of `p` are stored. -/
def HasPoints (env : Env) (p : PurePath) (w : World) : Prop :=
  ∃ id, w.pointsAt p = freshPoints env w.fs p id

theorem Settled.hasPoints (hs : Settled env p w) (hreal : w.fs.Real p)
    (hnone : w.hashAt p = none → ∀ node vectors, ¬ Indexable env w.fs p node vectors) :
    HasPoints env p w := by
  rcases hs with ⟨hhash, hnil⟩ | ⟨node, vectors, id, hindexable, -, hpoints⟩
  · exact ⟨0, hnil.trans (freshPoints_of_not_indexable hreal (hnone hhash) 0).symm⟩
  · exact ⟨id, hpoints.trans (freshPoints_of_indexable hindexable id).symm⟩

/-- A call that changes nothing, without failures, with its reply. -/
theorem wp_replies {a : Services.Reply c} {Q : Except Exn (Services.Reply c) → Traced → Prop}
    (hc : c.looks = true) (hreply : (serve env c w).1 = .ok a)
    (hQ : ∀ t', (Quiet t → Quiet t') → Q (.ok a) (w, t')) :
    wp ((services env).answers fun _ _ => False) (fun _ _ => True) (call c) Q (w, t) := by
  refine wp_call.mpr ⟨trivial, ?_, fun h => h.elim⟩
  rw [serve_looks hc, hreply]
  refine hQ _ fun ht => ht.append ?_
  cases c <;> first | rfl | cases hc

theorem wp_replies_normalizePath {Q : Except Exn PurePath → Traced → Prop} {r : PurePath}
    (hr : w.fs.normalize p = some r) (hQ : ∀ t', (Quiet t → Quiet t') → Q (.ok r) (w, t')) :
    wp ((services env).answers fun _ _ => False) (fun _ _ => True) (normalizePath p) Q (w, t) :=
  wp_replies rfl (orRaise_eq_ok_iff.mpr hr) hQ

/-- A call that changes nothing, without failures. -/
theorem wp_looks {Q : Except Exn (Services.Reply c) → Traced → Prop} (hc : c.looks = true)
    (ht : Quiet t)
    (hok : ∀ a t', Quiet t' → (serve env c w).1 = .ok a → Q (.ok a) (w, t'))
    (herr : ∀ e t', (serve env c w).1 = .error e → Q (.error e) (w, t')) :
    wp ((services env).answers fun _ _ => False) (fun _ _ => True) (call c) Q (w, t) := by
  refine wp_call.mpr ⟨trivial, ?_, fun h => h.elim⟩
  rw [serve_looks hc]
  cases hreply : (serve env c w).1 with
  | ok a =>
    refine hok a _ (ht.append ?_) hreply
    cases c <;> first | rfl | cases hc
  | error e => exact herr e _ hreply

theorem looks_normalizePath {Q : Except Exn PurePath → Traced → Prop} (hreal : w.fs.Real p)
    (ht : Quiet t) (hok : ∀ t', Quiet t' → Q (.ok p) (w, t')) :
    wp ((services env).answers fun _ _ => False) (fun _ _ => True) (normalizePath p) Q (w, t) := by
  have hnormal := w.fs.normalize_of_real hreal
  refine wp_looks rfl ht (fun (a : PurePath) t' ht' ha => ?_) fun e t' he => ?_
  · obtain rfl : p = a := Option.some_inj.mp (hnormal.symm.trans (orRaise_eq_ok_iff.mp ha))
    exact hok t' ht'
  · simp only [serve, hnormal, orRaise] at he
    cases he

/-- What an attempt leaves where nothing was stored and nothing is indexed. -/
theorem CleanEnd.settled {r : Except Exn IndexDecision} {w' : World} (hend : CleanEnd env w p r w')
    (hr : r ≠ .ok .indexed) (hreal : w.fs.Real p) (hhash : w.hashAt p = none)
    (hnil : w.pointsAt p = []) : Settled env p w' ∧ HasPoints env p w' := by
  have hnot : ∀ node vectors, ¬ Indexable env w.fs p node vectors := fun node vectors hindexable =>
    hr (hend.indexed node vectors hindexable).1
  have hsettled : Settled env p w' := by
    refine .inl ⟨?_, ?_⟩
    · rw [World.hashAt, hend.fingerprints]
      exact hhash
    · rw [World.pointsAt, (hend.others hnot).2]
      exact hnil
  exact ⟨hsettled, hsettled.hasPoints (hend.fs ▸ hreal) fun _ => hend.fs ▸ hnot⟩

theorem upsertHash_clean (htable : w.fingerprints.isSome) (hreal : w.fs.Real p) (h : Text)
    (t : List (Event Services)) :
    wp ((services env).answers fun _ _ => False) (fun _ _ => True) (upsertHash p h)
      (fun r s' => r = .ok () ∧ s'.1 = w.mapHashes fun t => t.upsert ⟨p, h⟩) (w, t) := by
  obtain ⟨table, htable⟩ := Option.isSome_iff_exists.mp htable
  unfold upsertHash
  refine wp_bind.mpr (wp_replies_normalizePath (w.fs.normalize_of_real hreal) fun t₁ _ => ?_)
  dsimp only [onOk]
  refine wp_call.mpr ⟨trivial, ?_, fun h => h.elim⟩
  simp only [serve, onTable, htable]
  exact ⟨rfl, trivial⟩

/-- The fingerprint is stored beside the points of the content. -/
theorem upsertHash_settles {node : FileNode} {vectors : List (List ℚ)} {id : ℕ}
    (htable : w.fingerprints.isSome) (hindexable : Indexable env w.fs p node vectors)
    (hpoints : w.pointsAt p = versionPoints env p p (env.decode node.bytes) vectors id)
    (t : List (Event Services)) :
    wp ((services env).answers fun _ _ => False) (fun _ _ => True)
      (upsertHash p (env.sha256 node.bytes))
      (fun _ s' => Settled env p s'.1 ∧ HasPoints env p s'.1) (w, t) := by
  refine wp_mono (upsertHash_clean htable hindexable.real _ t) ?_
  rintro _ ⟨w', t'⟩ ⟨rfl, rfl⟩
  exact ⟨.inr ⟨node, vectors, id, hindexable, hashAt_mapHashes_upsert_self htable, hpoints⟩, id,
    hpoints.trans (freshPoints_of_indexable hindexable id).symm⟩

/-- A job without failures stores the points of the content. -/
theorem indexIfChanged_settles (hready : w.Ready) (hdrawn : w.UuidsDrawn) (hreal : w.fs.Real p)
    (hs : Settled env p w) :
    wp ((services env).answers fun _ _ => False) (fun _ _ => True) (indexIfChanged env p)
      (fun _ s' => Settled env p s'.1 ∧ HasPoints env p s'.1) (w, []) := by
  have hstays : (w.hashAt p = none → ∀ node vectors, ¬ Indexable env w.fs p node vectors) →
      Settled env p w ∧ HasPoints env p w := fun hnone => ⟨hs, hs.hasPoints hreal hnone⟩
  unfold indexIfChanged
  refine wp_bind.mpr (wp_looks rfl (Idle.start w).quiet (fun (found : Bool) t₁ ht₁ hfound => ?_)
    fun e t' he => by cases he)
  obtain rfl : w.fs.pathExists p = found := Except.ok.inj hfound
  dsimp only [onOk]
  split
  case isFalse hmissing =>
    refine hstays fun _ node vectors hindexable => hmissing ?_
    simp [FileSystem.pathExists, FileSystem.isFile, hindexable.fileAt]
  unfold indexChanged sha256File getHash
  refine wp_tryCatch.mpr (wp_bind.mpr (wp_bind.mpr (wp_looks rfl ht₁ (fun (bytes : Bytes) t₂ ht₂ hbytes => ?_)
    fun e t' he => hstays fun _ node vectors hindexable => ?_)))
  case refine_2 =>
    simp only [serve, hindexable.fileAt, orRaise] at he
    cases he
  obtain ⟨node, hnode, rfl⟩ := Option.map_eq_some_iff.mp (orRaise_eq_ok_iff.mp hbytes)
  refine wp_bind.mpr (wp_bind.mpr (looks_normalizePath hreal ht₂ fun t₃ ht₃ => ?_))
  dsimp only [onOk]
  obtain ⟨table, htable⟩ := Option.isSome_iff_exists.mp hready.table
  refine wp_looks (c := .getHash p) rfl ht₃ (fun (prev : Option Text) t₄ ht₄ hprev => ?_) fun e t' he => ?_
  case refine_2 =>
    simp only [serve, onTable, htable] at he
    cases he
  obtain rfl : w.hashAt p = prev := by
    simp only [serve, onTable, htable] at hprev
    rw [hashAt_of_table htable]
    exact Except.ok.inj hprev
  dsimp only [onOk]
  split
  · next hsame =>
    exact hstays fun hnone => by
      rw [hnone] at hsame
      cases hsame
  next hchanged =>
  rcases hs with ⟨hhash, hnil⟩ | ⟨node', vectors, id, hindexable, hhash, -⟩
  case inr =>
    obtain rfl : node' = node := Option.some_inj.mp (hindexable.fileAt.symm.trans hnode)
    exact absurd hhash hchanged
  have hidle : Idle w 0 (w, t₄) := ⟨rfl, rfl, .inl rfl, rfl, ht₄⟩
  refine wp_bind.mpr (wp_mono (indexFile_clean hdrawn hready hreal hidle rfl) fun r s₅ hend => ?_)
  cases r with
  | error e => exact hend.settled (by simp) hreal hhash hnil
  | ok outcome =>
    cases outcome with
    | indexed =>
      obtain ⟨node', vectors, hindexable⟩ : ∃ node vectors, Indexable env w.fs p node vectors := by
        by_contra hnot
        exact (hend.others fun node vectors hi => hnot ⟨node, vectors, hi⟩).1 rfl
      obtain rfl : node' = node := Option.some_inj.mp (hindexable.fileAt.symm.trans hnode)
      refine wp_bind.mpr (wp_mono (upsertHash_settles (hend.fingerprints ▸ hready.table)
        (hend.fs ▸ hindexable) (hend.indexed _ _ hindexable).2 _) fun r s₆ hdone => ?_)
      cases r <;> exact hdone
    | skipped =>
      rw [hhash]
      exact hend.settled (by simp) hreal hhash hnil
    | missing => exact hend.settled (by simp) hreal hhash hnil
    | unchanged => exact hend.settled (by simp) hreal hhash hnil
    | failed => exact hend.settled (by simp) hreal hhash hnil

/-! ## A job after a change -/

/-- The content of the file at `p`, if it has chunks and is not too large. -/
def chunkableContent (env : Env) (fs : FileSystem) (p : PurePath) : Option Bytes :=
  match fs.fileAt p with
  | none => none
  | some node =>
    if node.bytes.length ≤ Settings.maxFileSize ∧ documentChunks env p (env.decode node.bytes) ≠ [] then
      some node.bytes
    else none

/-- The fingerprint and the points of some content are stored, or nothing is. -/
def Stores (env : Env) (p : PurePath) (w : World) : Option Bytes → Prop
  | none => w.hashAt p = none ∧ w.pointsAt p = []
  | some bytes => w.hashAt p = some (env.sha256 bytes) ∧ w.pointsAt p ≠ [] ∧ ∃ vectors id,
      embedTexts env (documentChunks env p (env.decode bytes)) = .ok vectors ∧
      w.pointsAt p = versionPoints env p p (env.decode bytes) vectors id

variable {prev : Option Bytes} {bytes : Bytes} {node : FileNode} {w' : World} {q : PurePath}

theorem Stores.congr (h : Stores env p w prev) (hhash : w'.hashAt p = w.hashAt p)
    (hpoints : w'.pointsAt p = w.pointsAt p) : Stores env p w' prev := by
  cases prev with
  | none => exact ⟨hhash.trans h.1, hpoints.trans h.2⟩
  | some bytes =>
    obtain ⟨hh, hne, vectors, id, hembed, hp⟩ := h
    exact ⟨hhash.trans hh, hpoints ▸ hne, vectors, id, hembed, hpoints.trans hp⟩

theorem chunkableContent_of_missing {fs : FileSystem} (h : fs.fileAt p = none) :
    chunkableContent env fs p = none := by
  rw [chunkableContent, h]

/-- Chunkable content is the content of the file. -/
theorem exists_file_of_chunkable {fs : FileSystem} (h : chunkableContent env fs p = some bytes) :
    ∃ node, fs.fileAt p = some node ∧ node.bytes = bytes ∧ bytes.length ≤ Settings.maxFileSize ∧
      documentChunks env p (env.decode bytes) ≠ [] := by
  unfold chunkableContent at h
  split at h
  · cases h
  · next node hnode =>
    split at h
    · next hchunks =>
      cases h
      exact ⟨node, hnode, rfl, hchunks⟩
    · cases h

theorem indexable_of_chunkable {fs : FileSystem} (hworks : env.EmbeddingWorks) (hreal : fs.Real p)
    (h : chunkableContent env fs p = some bytes) :
    ∃ node vectors, Indexable env fs p node vectors ∧ node.bytes = bytes := by
  obtain ⟨node, hnode, rfl, hsize, hchunks⟩ := exists_file_of_chunkable h
  obtain ⟨vectors, hembed⟩ := embedTexts_of_works hworks p (env.decode node.bytes)
  exact ⟨node, vectors, ⟨hreal, fs.fileAt_of_real hreal ▸ hnode, hsize, hchunks, hembed⟩, rfl⟩

theorem Indexable.chunkable {fs : FileSystem} {vectors : List (List ℚ)}
    (h : Indexable env fs p node vectors) : chunkableContent env fs p = some node.bytes := by
  rw [chunkableContent, h.fileAt]
  exact if_pos ⟨h.size, h.chunks⟩

theorem Indexable.versionPoints_ne_nil {fs : FileSystem} {vectors : List (List ℚ)}
    (h : Indexable env fs p node vectors) (id : ℕ) :
    versionPoints env p p (env.decode node.bytes) vectors id ≠ [] := by
  rw [← List.length_pos_iff_ne_nil, versionPoints_length h]
  exact List.length_pos_iff_ne_nil.mpr h.chunks

/-! ### Removing what is stored -/

/-- Nothing is left of `p`, and no other points change. -/
theorem removeIndexedDocument_clean (htable : w.fingerprints.isSome) (hreal : w.fs.Real p)
    (hs : Stores env p w prev) :
    wp ((services env).answers fun _ _ => False) (fun _ _ => True) (removeIndexedDocument p)
      (fun _ s' => Stores env p s'.1 none ∧ ∀ q, q ≠ p → s'.1.pointsAt q = w.pointsAt q) (w, t) := by
  have hnormal := w.fs.normalize_of_real hreal
  unfold removeIndexedDocument deleteDocument deleteHash
  refine wp_bind.mpr (wp_replies_normalizePath hnormal fun t₁ _ => ?_)
  refine wp_bind.mpr (wp_bind.mpr (wp_replies_normalizePath hnormal fun t₂ _ => ?_))
  dsimp only [onOk]
  refine wp_call.mpr ⟨trivial, ?_, fun h => h.elim⟩
  cases hcol : w.collection with
  | none =>
    simp only [serve, onCollection, hcol, onOk]
    refine ⟨?_, fun _ _ => trivial⟩
    have hnil : w.pointsAt p = [] := by simp [World.pointsAt, World.points, hcol]
    cases prev with
    | none => exact hs
    | some bytes => exact absurd hnil hs.2.1
  | some col =>
    simp only [serve, onCollection, hcol, onOk]
    refine wp_bind.mpr (wp_replies_normalizePath hnormal fun t₃ _ => ?_)
    dsimp only [onOk]
    refine wp_call.mpr ⟨trivial, ?_, fun h => h.elim⟩
    obtain ⟨table, htable⟩ := Option.isSome_iff_exists.mp htable
    simp only [serve, onTable, World.mapPoints, htable]
    have hpoints : ∀ q, ((w.mapPoints fun stored => stored.filter fun pt =>
        !Filter.selects ⟨p, none⟩ pt).mapHashes fun t => t.deleteWhere fun r => r.filepath = p).pointsAt q =
        if q = p then [] else w.pointsAt q := fun q => pointsAt_mapPoints_delete
    refine ⟨⟨hashAt_mapHashes_delete.trans (if_pos rfl), (hpoints p).trans (if_pos rfl)⟩, ?_⟩
    intro q hq
    exact (hpoints q).trans (if_neg hq)

/-! ### Indexing what is there now -/

theorem ensureCollection_clean (hready : w.Ready) :
    wp ((services env).answers fun _ _ => False) (fun _ _ => True) (ensureCollection env)
      (fun r _ => r = .ok ()) (w, t) := by
  unfold ensureCollection
  refine wp_bind.mpr (wp_replies (c := .getEnsured) (a := w.ensured) rfl rfl fun t₁ _ => ?_)
  dsimp only [onOk]
  split
  · rfl
  refine wp_bind.mpr (wp_replies (c := .collectionExists) (a := w.collection.isSome) rfl rfl fun t₂ _ => ?_)
  dsimp only [onOk]
  cases hcol : w.collection with
  | some col =>
    have hlayout : col.sparseVectors.contains sparseVector = true := by
      simpa using hready.layout col hcol
    rw [Option.isSome_some, if_pos rfl]
    refine wp_bind.mpr (wp_replies (c := .getCollection) (a := col.sparseVectors) rfl ?_ fun t₃ _ => ?_)
    · simp only [serve, onCollection, hcol]
    change wp _ _ (if col.sparseVectors.contains sparseVector then call (.setEnsured true)
      else throw Exn.oldLayout >>= fun _ => call (.setEnsured true)) _ _
    rw [if_pos hlayout]
    exact wp_call.mpr ⟨trivial, rfl, fun h => h.elim⟩
  | none =>
    rw [Option.isSome_none, if_neg (by simp)]
    refine wp_bind.mpr (wp_call.mpr ⟨trivial, ?_, fun h => h.elim⟩)
    simp only [serve, hcol, onOk]
    refine wp_bind.mpr (wp_call.mpr ⟨trivial, ?_, fun h => h.elim⟩)
    simp only [serve, onCollection, onOk]
    refine wp_bind.mpr (wp_call.mpr ⟨trivial, ?_, fun h => h.elim⟩)
    simp only [serve, onCollection, onOk]
    exact wp_call.mpr ⟨trivial, rfl, fun h => h.elim⟩

/-- A file without chunkable content is skipped. -/
theorem indexFile_skips (hready : w.Ready) (hreal : w.fs.Real p) (hfile : w.fs.fileAt p = some node)
    (hnone : chunkableContent env w.fs p = none) (ht : Quiet t) :
    wp ((services env).answers fun _ _ => False) (fun _ _ => True) (indexFile env p)
      (fun r _ => r = .ok .skipped) (w, t) := by
  have hidle : Idle w 0 (w, t) := ⟨rfl, rfl, .inl rfl, rfl, ht⟩
  have hunchunked : ¬ (node.bytes.length ≤ Settings.maxFileSize ∧
      documentChunks env p (env.decode node.bytes) ≠ []) := fun h => by
    rw [chunkableContent, hfile] at hnone
    simp only [if_pos h] at hnone
    cases hnone
  unfold indexFile
  refine wp_bind.mpr (wp_conseq (wp_and (ensureCollection_spec (fun _ _ _ _ => trivial) hidle)
    (ensureCollection_clean hready)) (fun _ _ _ => trivial) ?_)
  rintro _ ⟨w₁, t₁⟩ ⟨h₁, rfl⟩
  have hfs : w₁.fs = w.fs := h₁.fs
  refine wp_bind.mpr (wp_replies_normalizePath (w₁.fs.normalize_of_real (hfs ▸ hreal)) fun t₂ _ => ?_)
  dsimp only [onOk]
  unfold readFile
  refine wp_bind.mpr (wp_bind.mpr (wp_replies (c := .fileSize p) (a := node.bytes.length) rfl
    (orRaise_eq_ok_iff.mpr ?_) fun t₃ _ => ?_))
  · rw [hfs, hfile]
    rfl
  dsimp only [onOk]
  split
  · rfl
  next hsize =>
  refine wp_tryCatch.mpr (wp_bind.mpr (wp_replies (c := .readText p) (a := env.decode node.bytes) rfl
    (orRaise_eq_ok_iff.mpr ?_) fun t₄ _ => ?_))
  · rw [hfs, hfile]
    rfl
  have hnil : stripChunks (chunkDocument env p (env.decode node.bytes)) = [] := by
    by_contra hne
    exact hunchunked ⟨not_lt.mp hsize, hne⟩
  change wp _ _ (if stripChunks (chunkDocument env p (env.decode node.bytes)) = [] then
    pure IndexDecision.skipped else _) _ _
  rw [if_pos hnil]
  rfl

/-- An attempt changes no other points. -/
theorem AttemptEnds.pointsAt_of_ne {mayFail : Call → World → Prop} {r : Except Exn IndexDecision}
    {s : Traced} (h : AttemptEnds env w p mayFail r s) (hreal : w.fs.Real p) (hq : q ≠ p) :
    s.1.pointsAt q = w.pointsAt q := by
  have hidle : ∀ {n}, Idle w n s → s.1.pointsAt q = w.pointsAt q := fun h => by
    rw [World.pointsAt, World.pointsAt, h.points]
  cases r with
  | error e => obtain ⟨n, h⟩ := h; exact hidle h
  | ok d =>
    cases d with
    | indexed =>
      obtain ⟨filepath, new, hv, hreplaced⟩ := h
      obtain ⟨rfl, -⟩ := hv.indexable hreal
      exact hreplaced.pointsAt_of_ne hv hq
    | failed =>
      rcases h with ⟨n, h⟩ | ⟨filepath, new, v, hv, hadded, -⟩
      · exact hidle h
      · obtain ⟨rfl, -⟩ := hv.indexable hreal
        exact hadded.pointsAt_of_ne hv hq
    | skipped => obtain ⟨n, h⟩ := h; exact hidle h
    | missing => exact h.elim
    | unchanged => exact h.elim

/-- A job stores the content that is there now, or removes what was stored, and changes no other
points. -/
theorem indexIfChanged_stores (hworks : env.EmbeddingWorks) (hready : w.Ready) (hdrawn : w.UuidsDrawn)
    (hreal : w.fs.Real p) (hfile : w.fs.fileAt p = some node) (hs : Stores env p w prev)
    (hsame : ∀ bytes, prev = some bytes → env.sha256 bytes = env.sha256 node.bytes →
      prev = chunkableContent env w.fs p) :
    wp ((services env).answers fun _ _ => False) (fun _ _ => True) (indexIfChanged env p)
      (fun _ s' => Stores env p s'.1 (chunkableContent env w.fs p) ∧
        ∀ q, q ≠ p → s'.1.pointsAt q = w.pointsAt q) (w, []) := by
  have hfound : w.fs.pathExists p = true := by simp [FileSystem.pathExists, FileSystem.isFile, hfile]
  obtain ⟨table, htable⟩ := Option.isSome_iff_exists.mp hready.table
  unfold indexIfChanged
  refine wp_bind.mpr (wp_replies (c := .pathExists p) (a := true) rfl (congrArg Except.ok hfound) fun t₁ ht₁ => ?_)
  dsimp only [onOk]
  rw [if_pos rfl]
  unfold indexChanged sha256File getHash
  refine wp_tryCatch.mpr (wp_bind.mpr (wp_bind.mpr (wp_replies (c := .readBytes p) (a := node.bytes) rfl
    (orRaise_eq_ok_iff.mpr ?_) fun t₂ ht₂ => ?_)))
  · rw [hfile]
    rfl
  refine wp_bind.mpr (wp_bind.mpr (wp_replies_normalizePath (w.fs.normalize_of_real hreal) fun t₃ ht₃ => ?_))
  dsimp only [onOk]
  refine wp_replies (c := .getHash p) (a := w.hashAt p) rfl ?_ fun t₄ ht₄ => ?_
  · simp only [serve, onTable, htable]
    rw [hashAt_of_table htable]
  dsimp only [onOk]
  have hquiet : Quiet t₄ := ht₄ (ht₃ (ht₂ (ht₁ (Idle.start w).quiet)))
  split
  · next hunchanged =>
    refine ⟨?_, fun _ _ => rfl⟩
    cases hprev : prev with
    | none =>
      rw [hprev] at hs
      rw [hs.1] at hunchanged
      cases hunchanged
    | some bytes =>
      have hhash : env.sha256 bytes = env.sha256 node.bytes := by
        rw [hprev] at hs
        exact Option.some_inj.mp (hs.1.symm.trans hunchanged)
      rw [← hsame bytes hprev hhash]
      exact hs
  next hchanged =>
  have hidle : Idle w 0 (w, t₄) := ⟨rfl, rfl, .inl rfl, rfl, hquiet⟩
  have hends : wp ((services env).answers fun _ _ => False) (fun _ _ => True) (indexFile env p)
      (AttemptEnds env w p fun _ _ => False) (w, t₄) :=
    wp_conseq (indexFile_spec hdrawn hidle p) (fun _ _ _ => trivial) fun _ _ h => h
  have hclean := wp_and hends (indexFile_clean hdrawn hready hreal hidle rfl)
  cases hcontent : chunkableContent env w.fs p with
  | some bytes =>
    obtain ⟨node', vectors, hindexable, rfl⟩ := indexable_of_chunkable hworks hreal hcontent
    obtain rfl : node' = node := Option.some_inj.mp (hindexable.fileAt.symm.trans hfile)
    refine wp_bind.mpr (wp_conseq hclean (fun _ _ _ => trivial) ?_)
    rintro r ⟨w₁, t₅⟩ ⟨hends, hend⟩
    obtain ⟨rfl, hpoints⟩ := hend.indexed node' vectors hindexable
    have hfs : w₁.fs = w.fs := hend.fs
    have htable₁ : w₁.fingerprints.isSome := hend.fingerprints.symm ▸ hready.table
    refine wp_bind.mpr (wp_mono (upsertHash_clean htable₁ (hfs ▸ hreal) _ t₅) ?_)
    rintro _ ⟨w₂, t₆⟩ ⟨rfl, rfl⟩
    refine ⟨⟨hashAt_mapHashes_upsert_self htable₁, ?_, vectors, w.nextUuid, hindexable.embed, hpoints⟩,
      fun q hq => ?_⟩
    · exact (hpoints ▸ hindexable.versionPoints_ne_nil w.nextUuid : w₁.pointsAt p ≠ [])
    · exact hends.pointsAt_of_ne hreal hq
  | none =>
    refine wp_bind.mpr (wp_conseq (wp_and hclean (indexFile_skips hready hreal hfile hcontent hquiet))
      (fun _ _ _ => trivial) ?_)
    rintro _ ⟨w₁, t₅⟩ ⟨⟨hends, hend⟩, rfl⟩
    have hothers : ∀ q, q ≠ p → w₁.pointsAt q = w.pointsAt q := fun q => hends.pointsAt_of_ne hreal
    have hnot : ∀ node vectors, ¬ Indexable env w.fs p node vectors := fun node vectors h => by
      rw [h.chunkable] at hcontent
      cases hcontent
    have hhash : w₁.hashAt p = w.hashAt p := by rw [World.hashAt, World.hashAt, hend.fingerprints]
    have hs₁ : Stores env p w₁ prev :=
      hs.congr hhash (by rw [World.pointsAt, World.pointsAt, (hend.others hnot).2])
    dsimp only [onOk]
    split
    · refine wp_bind.mpr (wp_mono (removeIndexedDocument_clean (hend.fingerprints ▸ hready.table)
        (hend.fs ▸ hreal) hs₁) fun r s' hdone => ?_)
      have hdone : Stores env p s'.1 none ∧ ∀ q, q ≠ p → s'.1.pointsAt q = w.pointsAt q :=
        ⟨hdone.1, fun q hq => (hdone.2 q hq).trans (hothers q hq)⟩
      cases r <;> exact hdone
    · next hnohash =>
      refine ⟨?_, hothers⟩
      cases prev with
      | none => exact hs₁
      | some bytes =>
        rw [hs.1] at hnohash
        exact absurd rfl hnohash

end LocalRag
