-- SUMMARY: Where the stored points come from: whatever runs on the stores at once, every point quotes a file.
import LocalRag.Base.Preserves
import LocalRag.Base.Threads
import LocalRag.Indexer.Startup

/-!
# Provenance

The watcher, its worker, the observer's handlers and the maintenance commands make their
calls on the same stores, the user changes files and links between any two of them, and
calls fail. Of each program it is noted what it has been told of the files: it stores
nothing else.
-/

namespace LocalRag

open PyText PyPath Effects

/-! ## Chunks quote their text -/

variable {env : Env}

/-- What runs on the stores. -/
inductive Activity where
  | main (config : WatcherConfig)
  | dispatch (h : WatchHandler) (event : WatchEvent)
  | job (p : PurePath)
  | cleanupStale (accessibleRoots : Option (List PurePath))
  | purgeIgnored (config : WatcherConfig) (apply : Bool)
  | resetCollection (vectorsOnly : Bool)

def Activity.program (env : Env) : Activity → App Unit
  | .main config => do
    let (_, pairs) ← startup env config
    let _ ← scheduleWatches pairs
  | .dispatch h event => h.dispatch env event
  | .job p => do let _ ← indexIfChanged env p
  | .cleanupStale roots => do let _ ← LocalRag.cleanupStale roots
  | .purgeIgnored config apply => do let _ ← LocalRag.purgeIgnored env config apply
  | .resetCollection vectorsOnly => LocalRag.resetCollection vectorsOnly

/-- The world, and the files as the calls so far have found them. -/
structure Recorded where
  world : World
  past : List FileSystem

/-- Before a call the user may have changed the files. The call is carried out, and what it is answered
may be lost; or it fails. -/
def recording (env : Env) : Answers Services Exn Recorded := fun c s o s' =>
  ∃ fs, s'.past = s.past ++ [fs] ∧
    ((s'.world = (serve env c { s.world with fs }).2 ∧
        (o = (serve env c { s.world with fs }).1 ∨ o = .error (serviceFault c))) ∨
      (s'.world = { s.world with fs } ∧ o = .error (serviceFault c)))

/-- What a program has been told of the files. -/
structure Told where
  resolved : List (PurePath × PurePath) := []
  texts : List (PurePath × Text) := []

def Told.noted (told : Told) : (c : Call) → Except Exn (Services.Reply c) → Told
  | .normalizePath p, .ok (r : PurePath) =>
    { told with resolved := told.resolved ++ [((p, r) : PurePath × PurePath)] }
  | .readText p, .ok (text : Text) => { told with texts := told.texts ++ [((p, text) : PurePath × Text)] }
  | _, _ => told

/-- Any number of programs, which run at the same time. -/
def indexing (env : Env) : Scheduler Services Exn Recorded Told where
  answers := recording env
  starts prog := ∃ activity : Activity, prog = activity.program env
  fresh := {}
  noted := Told.noted

/-! ## Points and files -/

/-- The point is one that `index_file` makes of a text under the path. -/
structure Point.MadeOf (env : Env) (path : PurePath) (text : Text) (pt : Point) : Prop where
  filename : pt.payload.filename = path.name
  documentId : pt.payload.documentId = env.uuid5 pt.payload.filepath.str
  chunk : (documentChunks env path text)[pt.payload.chunkIndex]? = some pt.payload.text
  chunkTotal : pt.payload.chunkTotal = (documentChunks env path text).length
  sparse : pt.sparse = bm25Document env (path.name ++ ' ' :: pt.payload.text)
  dense : ∃ vectors, embedTexts env (documentChunks env path text) = .ok vectors ∧
    vectors[pt.payload.chunkIndex]? = some pt.dense

/-- The point is made of what a file contained at some time, under what its path resolved to at
some time. -/
def Point.FromFile (env : Env) (past : List FileSystem) (pt : Point) : Prop :=
  ∃ path, (∃ fs ∈ past, fs.normalize path = some pt.payload.filepath) ∧
    ∃ fs ∈ past, ∃ node, fs.fileAt path = some node ∧
      pt.MadeOf env path (env.decode node.bytes)

theorem Point.FromFile.mono {past past' : List FileSystem} {pt : Point} (h : pt.FromFile env past)
    (hpast : past ⊆ past') : pt.FromFile env past' := by
  obtain ⟨path, ⟨fs, hfs, hresolves⟩, fs', hfs', hfile⟩ := h
  exact ⟨path, ⟨fs, hpast hfs, hresolves⟩, fs', hpast hfs', hfile⟩

/-- A program stores points only that it has made of a text it was told. -/
def Cites (env : Env) : Call → Told → Prop
  | .upsert points, told => ∀ pt ∈ points, ∃ path text, (path, pt.payload.filepath) ∈ told.resolved ∧
      (path, text) ∈ told.texts ∧ pt.MadeOf env path text
  | _, _ => True

/-- What a program has been told was so at some time. -/
structure Told.Truthful (env : Env) (past : List FileSystem) (told : Told) : Prop where
  resolved : ∀ e ∈ told.resolved, ∃ fs ∈ past, fs.normalize e.1 = some e.2
  texts : ∀ e ∈ told.texts, ∃ fs ∈ past, ∃ node, fs.fileAt e.1 = some node ∧ e.2 = env.decode node.bytes

/-- The programs have been told the truth, and the points come from files. -/
structure Sourced (env : Env) (s : Recorded) (notes : List Told) : Prop where
  truthful : ∀ told ∈ notes, told.Truthful env s.past
  points : ∀ pt ∈ s.world.points, pt.FromFile env s.past

/-! ## What a program is told -/

variable {told told' : Told} {α β : Type} {c : Call}

/-- What a program has been told is not forgotten. -/
structure Told.Le (told told' : Told) : Prop where
  resolved : told.resolved ⊆ told'.resolved
  texts : told.texts ⊆ told'.texts

theorem Told.Le.refl (told : Told) : told.Le told := ⟨List.Subset.refl _, List.Subset.refl _⟩

theorem Told.Le.trans {told'' : Told} (h : told.Le told') (h' : told'.Le told'') : told.Le told'' :=
  ⟨List.Subset.trans h.resolved h'.resolved, List.Subset.trans h.texts h'.texts⟩

theorem Told.le_noted (told : Told) (c : Call) (o : Except Exn (Services.Reply c)) :
    told.Le (told.noted c o) := by
  cases c <;> cases o <;> first
    | exact .refl told
    | exact ⟨List.subset_append_left _ _, List.Subset.refl _⟩
    | exact ⟨List.Subset.refl _, List.subset_append_left _ _⟩

/-- The program stores only what it may cite, forgets nothing, and a value it returns is as `Q` says. -/
abbrev Citing (env : Env) (prog : App α) (Q : α → Told → Prop) (told : Told) : Prop :=
  wp (indexing env).noting (Cites env) prog (fun r told' => told.Le told' ∧ ∀ a, r = .ok a → Q a told') told

namespace Citing

variable {prog : App α} {Q R : α → Told → Prop}

theorem ret {r : Except Exn α} (h : ∀ a, r = .ok a → Q a told) : Citing env (.ret r) Q told :=
  ⟨.refl told, h⟩

theorem pure {a : α} (h : Q a told) : Citing env (Pure.pure a) Q told := by
  refine .ret ?_
  rintro _ ⟨⟩
  exact h

theorem bind {f : α → App β} {R : β → Told → Prop} (h : Citing env prog Q told)
    (hf : ∀ a told', told.Le told' → Q a told' → Citing env (f a) R told') :
    Citing env (prog >>= f) R told := by
  refine wp_bind.mpr (wp_mono h fun r told₁ hr => ?_)
  cases r with
  | ok a => exact wp_mono (hf a told₁ hr.1 (hr.2 a rfl)) fun r' told₂ hr' => ⟨hr.1.trans hr'.1, hr'.2⟩
  | error e => exact ⟨hr.1, nofun⟩

theorem orElse {a : α} (h : Citing env prog Q told) (hQ : ∀ b told', Q b told' → R b told')
    (ha : ∀ told', R a told') : Citing env (LocalRag.orElse prog a) R told := by
  refine wp_tryCatch.mpr (wp_mono h fun r told₁ hr => ?_)
  cases r with
  | ok b =>
    refine ⟨hr.1, ?_⟩
    rintro _ ⟨⟩
    exact hQ b told₁ (hr.2 b rfl)
  | error e =>
    refine ⟨hr.1, ?_⟩
    rintro _ ⟨⟩
    exact ha told₁

theorem call {Q : Services.Reply c → Told → Prop} (hc : Cites env c told)
    (hQ : ∀ w a, (serve env c w).1 = .ok a → Q a (told.noted c (.ok a))) :
    Citing env (LocalRag.call c) Q told := by
  refine wp_lift.mpr ⟨hc, ?_⟩
  rintro o _ ⟨⟨s, s', fs, -, hserved⟩, rfl⟩
  refine ⟨told.le_noted c o, ?_⟩
  rintro a rfl
  rcases hserved with ⟨-, ho | ho⟩ | ⟨-, ho⟩
  · exact hQ _ a ho.symm
  · cases ho
  · cases ho

/-- A call whose answer does not matter. -/
theorem call_any (hc : Cites env c told) : Citing env (LocalRag.call c) (fun _ _ => True) told :=
  .call hc fun _ _ _ => trivial

theorem normalizePath {p : PurePath} :
    Citing env (LocalRag.normalizePath p) (fun q told' => (p, q) ∈ told'.resolved) told :=
  .call trivial fun _ _ _ => List.mem_append_right told.resolved (List.mem_singleton.mpr rfl)

theorem readText {p : PurePath} : Citing env (LocalRag.call (.readText p))
    (fun (text : Text) told' => (p, text) ∈ told'.texts) told :=
  .call trivial fun _ _ _ => List.mem_append_right told.texts (List.mem_singleton.mpr rfl)

theorem readFile {p : PurePath} :
    Citing env (LocalRag.readFile p) (fun text told' => ∀ t ∈ text, (p, t) ∈ told'.texts) told := by
  unfold LocalRag.readFile
  refine .bind (call_any trivial) fun (size : ℕ) told₁ _ _ => ?_
  split
  · exact .pure nofun
  · refine .orElse (.bind readText fun text told₂ _ htext => .pure ?_) (fun _ _ h => h) fun _ => nofun
    rintro _ ⟨⟩
    exact htext

/-! ### Points -/

theorem embedBatch {texts : List Text} (htexts : texts ≠ []) :
    Citing env (LocalRag.embedBatch env texts)
    (fun vectors _ => embedTexts env texts = .ok vectors) told := by
  unfold LocalRag.embedBatch embedTexts
  rw [if_neg htexts]
  cases hprepared : texts.mapM prepareText with
  | error e => exact .ret nofun
  | ok prepared =>
    refine .bind (Q := fun (response : EmbedResponse) _ => response = env.ollama prepared)
      (.call trivial fun w response hresponse => (Except.ok.inj hresponse).symm) ?_
    rintro _ told₁ - rfl
    exact .ret fun vectors hvectors => hvectors

/-- The points that `_embed_chunks` makes of chunks with their vectors, from the `i`-th on. -/
theorem makePoints {path filepath : PurePath} {documentId : Text} {total : ℕ}
    (l : List (Text × List ℚ)) (i : ℕ) :
    Citing env (LocalRag.makePoints env path filepath documentId total l i)
      (fun points _ => ∀ pt ∈ points, ∃ j chunk vec, l[j]? = some (chunk, vec) ∧ pt.dense = vec ∧
        pt.sparse = bm25Document env (path.name ++ ' ' :: chunk) ∧
        pt.payload =
          { text := chunk, documentId, filename := path.name, filepath, chunkIndex := i + j, chunkTotal := total })
      told := by
  induction l generalizing i told with
  | nil => exact .pure nofun
  | cons cv l ih =>
    refine .bind (call_any trivial) fun (id : ℕ) told₁ _ _ => .bind (ih (i + 1)) fun points told₂ _ hpoints =>
      .pure (List.forall_mem_cons.mpr ⟨⟨0, cv.1, cv.2, rfl, rfl, rfl, rfl⟩, fun pt hpt => ?_⟩)
    obtain ⟨j, chunk, vec, hj, hdense, hsparse, hpayload⟩ := hpoints pt hpt
    refine ⟨j + 1, chunk, vec, hj, hdense, hsparse, ?_⟩
    rw [hpayload, Nat.add_right_comm, Nat.add_assoc]

theorem embedChunks {path filepath : PurePath} {text : Text}
    (hchunks : documentChunks env path text ≠ []) :
    Citing env (LocalRag.embedChunks env path filepath (documentChunks env path text) (env.uuid5 filepath.str))
      (fun points _ => ∀ pt ∈ points, pt.payload.filepath = filepath ∧ pt.MadeOf env path text) told := by
  refine .bind (embedBatch hchunks) fun vectors told₁ _ hvectors => ?_
  refine wp_mono (makePoints _ 0) ?_
  rintro r told₂ ⟨hle, hpoints⟩
  refine ⟨hle, fun points hr pt hpt => ?_⟩
  obtain ⟨id, dense, sparse, payload⟩ := pt
  obtain ⟨j, chunk, vec, hj, rfl, rfl, rfl⟩ := hpoints points hr _ hpt
  obtain ⟨hchunk, hvec⟩ := List.getElem?_zip_eq_some.mp hj
  dsimp only
  rw [Nat.zero_add]
  exact ⟨rfl, rfl, rfl, hchunk, rfl, rfl, vectors, hvectors, hvec⟩

theorem upsertChunks {path filepath : PurePath} {text : Text} {points : List Point}
    (hresolved : (path, filepath) ∈ told.resolved) (htext : (path, text) ∈ told.texts)
    (hpoints : ∀ pt ∈ points, pt.payload.filepath = filepath ∧ pt.MadeOf env path text) :
    Citing env (LocalRag.upsertChunks filepath points) (fun _ _ => True) told := by
  refine .bind (call_any trivial) fun (version : ℕ) told₁ hle _ => .bind (.orElse (Q := fun _ _ => True)
    (.bind (call_any ?_) fun _ _ _ _ => .pure trivial) (fun _ _ _ => trivial) fun _ => trivial)
    fun upserted told₂ _ _ => ?_
  · intro pt hpt
    obtain ⟨stored, hstored, rfl⟩ := List.mem_map.mp hpt
    obtain ⟨rfl, hmade⟩ := hpoints stored hstored
    exact ⟨path, text, hle.resolved hresolved, hle.texts htext, hmade.filename, hmade.documentId, hmade.chunk,
      hmade.chunkTotal, hmade.sparse, hmade.dense⟩
  · split
    · exact .orElse (Q := fun _ _ => True) (.bind (call_any trivial) fun _ _ _ _ => .pure trivial)
        (fun _ _ _ => trivial) fun _ => trivial
    · exact .pure trivial

end Citing

/-! ## Programs that store no points -/

variable {past past' : List FileSystem}

theorem Told.Truthful.mono (h : told.Truthful env past) (hpast : past ⊆ past') :
    told.Truthful env past' :=
  ⟨fun e he => (h.resolved e he).imp fun _ hfs => ⟨hpast hfs.1, hfs.2⟩,
    fun e he => (h.texts e he).imp fun _ hfs => ⟨hpast hfs.1, hfs.2⟩⟩

/-- What a program is told of a file was so when the call was made. -/
theorem Told.Truthful.noted {w : World} {o : Except Exn (Services.Reply c)} (h : told.Truthful env past)
    (hfs : w.fs ∈ past) (ho : ∀ a, o = .ok a → (serve env c w).1 = .ok a) :
    (told.noted c o).Truthful env past := by
  cases o with
  | error e => cases c <;> exact h
  | ok a =>
    have ha := ho a rfl
    cases c with
    | normalizePath p =>
      refine ⟨fun e he => ?_, h.texts⟩
      rcases List.mem_append.mp he with he | he
      · exact h.resolved e he
      · rw [List.mem_singleton.mp he]
        exact ⟨w.fs, hfs, orRaise_eq_ok_iff.mp ha⟩
    | readText p =>
      refine ⟨h.resolved, fun e he => ?_⟩
      rcases List.mem_append.mp he with he | he
      · exact h.texts e he
      · obtain ⟨node, hnode, hdecoded⟩ := Option.map_eq_some_iff.mp (orRaise_eq_ok_iff.mp ha)
        rw [List.mem_singleton.mp he]
        exact ⟨w.fs, hfs, node, hnode, hdecoded.symm⟩
    | _ => exact h

/-- What a program cites comes from a file. -/
theorem Point.FromFile.of_cites {points : List Point} (h : told.Truthful env past)
    (hcites : Cites env (.upsert points) told) {pt : Point} (hpt : pt ∈ points) :
    pt.FromFile env past := by
  obtain ⟨path, text, hresolved, htext, hmade⟩ := hcites pt hpt
  obtain ⟨fs, hfs, node, hnode, rfl⟩ := h.texts _ htext
  exact ⟨path, h.resolved _ hresolved, fs, hfs, node, hnode, hmade⟩

theorem Sourced.call {s s' : Recorded} {before after : List Told} {o : Except Exn (Services.Reply c)}
    (h : Sourced env s (before ++ told :: after)) (hcites : Cites env c told)
    (hanswer : recording env c s o s') :
    Sourced env s' (before ++ told.noted c o :: after) := by
  obtain ⟨fs, hpast, hserved⟩ := hanswer
  have hfs : fs ∈ s'.past := by simp [hpast]
  have hgrows : s.past ⊆ s'.past := hpast ▸ List.subset_append_left _ _
  have htold : told.Truthful env s'.past := (h.truthful told (by simp)).mono hgrows
  have hanswers : ∀ a, o = .ok a → (serve env c { s.world with fs }).1 = .ok a := by
    rintro a rfl
    rcases hserved with ⟨-, ho | ho⟩ | ⟨-, ho⟩
    · exact ho.symm
    · cases ho
    · cases ho
  refine ⟨fun other hother => ?_, fun pt hpt => ?_⟩
  · rcases List.mem_append.mp hother with hother | hother
    · exact (h.truthful other (List.mem_append_left _ hother)).mono hgrows
    · rcases List.mem_cons.mp hother with rfl | hother
      · exact htold.noted (w := { s.world with fs }) hfs hanswers
      · exact (h.truthful other (List.mem_append_right _ (List.mem_cons_of_mem _ hother))).mono hgrows
  · have hold : pt ∈ s.world.points → pt.FromFile env s'.past :=
      fun hpt => (h.points pt hpt).mono hgrows
    rcases hserved with ⟨hworld, -⟩ | ⟨hworld, -⟩
    · rw [hworld] at hpt
      rcases mem_points_serve hpt with hstored | ⟨points, rfl, hnew⟩
      · exact hold hstored
      · exact .of_cites htold hcites hnew
    · rw [hworld] at hpt
      exact hold hpt

variable {start : Recorded} {s : Effects.Threads Services Exn Recorded Told}

end LocalRag
