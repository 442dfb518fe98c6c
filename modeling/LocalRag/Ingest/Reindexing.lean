-- SUMMARY: Re-indexing leaves exactly one version, fails atomically, and never leaves the document without a complete version.
import LocalRag.Ingest.IndexSpec

/-! # Re-indexing -/

namespace LocalRag

open PyText PyPath Effects

variable {env : Env} {path filepath : PurePath} {w₀ : World} {s : Traced} {new : List Point}

/-! ## Exactly one version -/

/-- The stale delete of an attempt raised. -/
def StaleDeleteRaised (trace : List (Event Services)) : Prop :=
  ∃ f, (⟨Call.delete f, false⟩ : Event Services) ∈ trace

theorem Idle.not_staleDeleteRaised {n : ℕ} (h : Idle w₀ n s) : ¬ StaleDeleteRaised s.2 := by
  rintro ⟨f, hf⟩
  have := h.quiet _ hf
  simp [quietCall] at this

/-- `points` is one version of a document: a point for each chunk in text order, all
with one version number, which no point of `stored` has. -/
def IsNewVersion (stored : List Point) (filepath : PurePath) (chunks : List Text)
    (points : List Point) : Prop :=
  points.map (fun pt => pt.payload.text) = chunks ∧
  points.map (fun pt => pt.payload.chunkIndex) = List.range chunks.length ∧
  ∃ v, (∀ pt ∈ points, pt.payload.filepath = filepath ∧ pt.payload.chunkTotal = chunks.length ∧
    pt.payload.indexVersion = some v) ∧ ∀ pt ∈ stored, pt.payload.indexVersion ≠ some v

theorem Version.isNewVersion (hdrawn : w₀.UuidsDrawn) (hv : Version env w₀ path filepath new) :
    ∃ node, w₀.fs.fileAt path = some node ∧ IsNewVersion w₀.points filepath
      (documentChunks env path (env.decode node.bytes)) new := by
  obtain ⟨node, vectors, hfile, -, -, hvec, rfl⟩ := hv.exists_content
  obtain ⟨htexts, hindices, hpoints⟩ :=
    versionPoints_spec filepath w₀.nextUuid hvec
  refine ⟨node, hfile, htexts, hindices,
    w₀.nextUuid + (documentChunks env path (env.decode node.bytes)).length, fun pt hpt => ?_, fun pt hpt hver => ?_⟩
  · obtain ⟨h₁, h₂, h₃, -⟩ := hpoints pt hpt
    exact ⟨h₁, h₂, h₃⟩
  · have := (hdrawn pt hpt).2 _ hver
    omega

theorem Replaced.pointsAt_self (hv : Version env w₀ path filepath new)
    (h : Replaced w₀ filepath new s) : s.1.pointsAt filepath = new := by
  obtain ⟨n, -, -, -, hpoints⟩ := hv.complete
  rw [World.pointsAt, h.points, List.filter_append, List.filter_filter]
  rw [List.filter_eq_nil_iff.mpr (by simp), List.nil_append]
  exact List.filter_eq_self.mpr fun pt hpt => by simpa using (hpoints pt hpt).1

/-- A version has no points of other documents. -/
theorem Version.filter_of_ne (hv : Version env w₀ path filepath new) {q : PurePath}
    (hq : q ≠ filepath) : new.filter (fun pt => pt.payload.filepath = q) = [] := by
  obtain ⟨n, -, -, -, hpoints⟩ := hv.complete
  refine List.filter_eq_nil_iff.mpr fun pt hpt => ?_
  rw [(hpoints pt hpt).1]
  simpa using Ne.symm hq

theorem Replaced.pointsAt_of_ne (hv : Version env w₀ path filepath new)
    (h : Replaced w₀ filepath new s) {q : PurePath} (hq : q ≠ filepath) :
    s.1.pointsAt q = w₀.pointsAt q := by
  rw [World.pointsAt, h.points, List.filter_append, List.filter_filter, hv.filter_of_ne hq,
    List.append_nil]
  refine List.filter_congr fun pt _ => ?_
  by_cases hpt : pt.payload.filepath = q <;> simp [hpt, hq]

theorem Added.pointsAt_of_ne (hv : Version env w₀ path filepath new) (h : Added w₀ new s)
    {q : PurePath} (hq : q ≠ filepath) : s.1.pointsAt q = w₀.pointsAt q := by
  rw [World.pointsAt, h.points, List.filter_append, hv.filter_of_ne hq, List.append_nil]
  rfl

/-- Whatever is stored and whichever calls raise: if `index_file` returns INDEXED the
points of the filepath are one new version of the file and no other point changed; if
it returns FAILED because the stale delete raised, the new version was added to what
was stored; otherwise the stored points are unchanged. -/
theorem indexFile_leaves_one_version (env : Env) (path : PurePath) (w w' : World)
    (trace : List (Event Services)) (r : Except Exn IndexDecision) (hdrawn : w.UuidsDrawn)
    (hrun : (indexFile env path).Steps ((services env).answers fun _ _ => True) (w, []) (.ret r)
      (w', trace)) :
    (r = .ok .indexed → ∃ filepath node, w.fs.normalize path = some filepath ∧
      w.fs.fileAt path = some node ∧
      IsNewVersion w.points filepath
        (stripChunks (chunkDocument env path (env.decode node.bytes))) (w'.pointsAt filepath) ∧
      ∀ q, q ≠ filepath → w'.pointsAt q = w.pointsAt q) ∧
    (r = .ok .skipped → w'.points = w.points) ∧
    (r = .ok .failed → ¬ StaleDeleteRaised trace → w'.points = w.points) ∧
    (r = .ok .failed → StaleDeleteRaised trace → ∃ filepath node new,
      w.fs.normalize path = some filepath ∧ w.fs.fileAt path = some node ∧
      IsNewVersion w.points filepath
        (stripChunks (chunkDocument env path (env.decode node.bytes))) new ∧
      w'.points = w.points ++ new) ∧
    (∀ e, r = .error e → w'.points = w.points) := by
  have hend := wp_steps_post (indexFile_spec hdrawn (.start w) path) hrun
  refine ⟨?_, ?_, ?_, ?_, ?_⟩
  · rintro rfl
    obtain ⟨filepath, new, hv, hrep⟩ := hend
    obtain ⟨node, hfile, hnew⟩ := hv.isNewVersion hdrawn
    have hself : w'.pointsAt filepath = new := hrep.pointsAt_self hv
    exact ⟨filepath, node, hv.normalized, hfile, hself ▸ hnew,
      fun q hq => hrep.pointsAt_of_ne hv hq⟩
  · rintro rfl
    obtain ⟨n, hidle⟩ := hend
    exact hidle.points
  · rintro rfl hraised
    rcases hend with ⟨n, hidle⟩ | ⟨filepath, new, v, -, -, hdelete, -⟩
    · exact hidle.points
    · exact absurd ⟨_, hdelete⟩ hraised
  · rintro rfl hraised
    rcases hend with ⟨n, hidle⟩ | ⟨filepath, new, v, hv, hadded, -, -⟩
    · exact absurd hraised hidle.not_staleDeleteRaised
    · obtain ⟨node, hfile, hnew⟩ := hv.isNewVersion hdrawn
      exact ⟨filepath, node, new, hv.normalized, hfile, hnew, hadded.points⟩
  · rintro e rfl
    obtain ⟨n, hidle⟩ := hend
    exact hidle.points

/-- The path of the file in the examples. -/
def samplePath : PurePath := PurePath.parse "/w/a.txt".toList

/-- A world with one file, `/w/a.txt`. -/
def sampleWorld (bytes : Bytes) : World :=
  World.sample [(samplePath.names, ⟨bytes, 1, 1⟩)] [["w".toList]]

theorem sampleWorld_real (bytes : Bytes) : (sampleWorld bytes).fs.Real samplePath :=
  ⟨by decide, by decide, fun _ _ => AList.lookup_empty _⟩

/-- A run of a program in a world: the flags say which calls raise. -/
def runIn {α : Type} (p : App α) (flags : List Bool) (w : World) :
    Except Exn α × World × List (Event Services) :=
  p.run (services Env.sample) (fun _ _ => True) flags (w, [])

/-- The calls of a run, each with whether it was carried out. -/
def callsMade (trace : List (Event Services)) : List (Call × Bool) :=
  trace.map fun e => (e.call, e.done)

/-- An environment with small chunks. -/
def Env.smallChunks : Env :=
  { Env.sample with
    settings := { vectorSize := 1, chunkSize := 4, chunkOverlap := 0 }
    accepted := by decide }

/-- An attempt in this environment, with the flags of the calls that raise. -/
def attemptIn (path : PurePath) (flags : List Bool) (w : World) :
    Except Exn IndexDecision × World × List (Event Services) :=
  (indexFile .smallChunks path).run (services .smallChunks) (fun _ _ => True) flags (w, [])

/-- The path of another document. -/
def otherPath : PurePath := PurePath.parse "/w/b.txt".toList

/-- Another document is stored, and what an attempt on the sample file left whose stale delete raised.
The file has changed since. -/
def leftoverWorld : World :=
  let w (text : String) := World.sample
    [(samplePath.names, ⟨text.toList.map fun c => c.toNat.toUInt8, 1, 1⟩), (otherPath.names, ⟨[120], 1, 2⟩)]
    [["w".toList]]
  let stored := (attemptIn otherPath [] (w "abc defg")).2.1
  let left := (attemptIn samplePath (List.replicate 9 false ++ [true]) stored).2.1
  { left with fs := (w "hij klmn op").fs }

/-- Leftovers of an attempt lie beside another document. An attempt whose stale delete raises adds the
version of three chunks to them, and one without failures leaves only that version. -/
theorem indexFile_leaves_one_version_sample :
    let w := leftoverWorld
    (∃ filepath node new, w.fs.normalize samplePath = some filepath ∧ w.fs.fileAt samplePath = some node ∧
      IsNewVersion w.points filepath
        (stripChunks (chunkDocument .smallChunks samplePath (Env.smallChunks.decode node.bytes))) new ∧
      (attemptIn samplePath (List.replicate 10 false ++ [true]) w).2.1.points = w.points ++ new) ∧
    ∃ filepath node, w.fs.normalize samplePath = some filepath ∧ w.fs.fileAt samplePath = some node ∧
      IsNewVersion w.points filepath
        (stripChunks (chunkDocument .smallChunks samplePath (Env.smallChunks.decode node.bytes)))
        ((attemptIn samplePath [] w).2.1.pointsAt filepath) ∧
      ∀ q, q ≠ filepath → (attemptIn samplePath [] w).2.1.pointsAt q = w.pointsAt q := by
  have hdrawn : leftoverWorld.UuidsDrawn := by
    unfold World.UuidsDrawn
    decide +kernel
  have hversions (flags : List Bool) :=
    indexFile_leaves_one_version .smallChunks samplePath leftoverWorld _ _ _ hdrawn
      (Prog.run_steps (services .smallChunks) (fun _ _ => True) _ flags _)
  have hdelete : (Call.delete ⟨samplePath, some 8⟩, false) ∈
      callsMade (attemptIn samplePath (List.replicate 10 false ++ [true]) leftoverWorld).2.2 := by
    decide +kernel
  obtain ⟨⟨call, carried⟩, hraised, hevent⟩ := List.mem_map.mp hdelete
  obtain ⟨rfl, rfl⟩ := Prod.mk.inj hevent
  exact ⟨(hversions (List.replicate 10 false ++ [true])).2.2.2.1 (by decide +kernel) ⟨_, hraised⟩,
    (hversions []).1 (by decide +kernel)⟩

/-! ## No empty window -/

/-- All points of a single version are stored. -/
def World.HasComplete (w : World) (filepath : PurePath) : Prop :=
  ∃ v n, 0 < n ∧
    let points := (w.pointsAt filepath).filter fun pt => pt.payload.indexVersion = some v
    points.map (fun pt => pt.payload.chunkIndex) = List.range n ∧
      ∀ pt ∈ points, pt.payload.chunkTotal = n

def isUpsert : Call → Bool
  | .upsert _ => true
  | _ => false

/-- An upsert was carried out. -/
def upsertDone (trace : List (Event Services)) : Bool :=
  trace.any fun e => isUpsert e.call && e.done

/-- Runs of attempts on a filepath, each started with any files and in a new process or
the same one, and each stopped anywhere. The flag says whether an upsert was completed. -/
inductive Attempts (env : Env) (filepath : PurePath) : World → Bool → Prop where
  | start {w : World} (hdrawn : w.UuidsDrawn) : Attempts env filepath w false
  | attempt {w w' : World} {upserted : Bool} {path : PurePath} {rest : App IndexDecision}
      {trace : List (Event Services)} (fs : FileSystem) (ensured : Bool)
      (h : Attempts env filepath w upserted) (hpath : fs.normalize path = some filepath)
      (hrun : (indexFile env path).Steps ((services env).answers fun _ _ => True)
        ({ w with fs, ensured }, []) rest (w', trace)) :
      Attempts env filepath w' (upserted || upsertDone trace)

theorem Quiet.upsertDone {trace : List (Event Services)} (h : Quiet trace) :
    upsertDone trace = false := by
  rw [LocalRag.upsertDone, List.any_eq_false]
  intro e he
  have hq := h e he
  cases hc : (e.call : Call) <;> simp_all [quietCall, isUpsert]

/-- Changing everything but the documents keeps complete versions. -/
theorem World.HasComplete.congr {w w' : World} (h : w.HasComplete filepath)
    (hpoints : w'.points = w.points) : w'.HasComplete filepath := by
  unfold World.HasComplete World.pointsAt at *
  rwa [hpoints]

/-- The points with a version number among old points and a new version of it. -/
theorem filter_version (hdrawn : w₀.UuidsDrawn) (hv : Version env w₀ path filepath new)
    {old : List Point} (hold : ∀ pt ∈ old, pt ∈ w₀.points) :
    ∃ v n, 0 < n ∧ w₀.nextUuid ≤ v ∧
      (((old ++ new).filter fun pt => pt.payload.filepath = filepath).filter
        fun pt => pt.payload.indexVersion = some v) = new ∧
      new.map (fun pt => pt.payload.chunkIndex) = List.range n ∧
      ∀ pt ∈ new, pt.payload.chunkTotal = n ∧ pt.payload.indexVersion = some v := by
  obtain ⟨n, hn, hindices, -, hpoints⟩ := hv.complete
  refine ⟨w₀.nextUuid + n, n, hn, by omega, ?_, hindices, fun pt hpt =>
    ⟨(hpoints pt hpt).2.1, (hpoints pt hpt).2.2.1⟩⟩
  rw [List.filter_filter, List.filter_append, List.filter_eq_nil_iff.mpr, List.nil_append]
  · exact List.filter_eq_self.mpr fun pt hpt => by
      simp [(hpoints pt hpt).1, (hpoints pt hpt).2.2.1]
  · intro pt hpt
    have hne : pt.payload.indexVersion ≠ some (w₀.nextUuid + n) := fun hver => by
      have := (hdrawn pt (hold pt hpt)).2 _ hver
      omega
    simp [hne]

/-- A new version beside old points is a complete version. -/
theorem hasComplete_of_new (hdrawn : w₀.UuidsDrawn) (hv : Version env w₀ path filepath new)
    {old : List Point} (hold : ∀ pt ∈ old, pt ∈ w₀.points) {w : World}
    (hw : w.points = old ++ new) : w.HasComplete filepath := by
  obtain ⟨v, n, hn, -, hfilter, hindices, hpoints⟩ := filter_version hdrawn hv hold
  refine ⟨v, n, hn, ?_⟩
  rw [World.pointsAt, hw, hfilter]
  exact ⟨hindices, fun pt hpt => (hpoints pt hpt).1⟩

/-- Wherever an attempt stops: nothing was upserted and the documents are unchanged, or
there is a complete version. The stored uuids are still all drawn. -/
theorem Attempt.cases (hdrawn : w₀.UuidsDrawn) (hpath : w₀.fs.normalize path = some filepath)
    (h : Attempt env w₀ path s) : s.1.UuidsDrawn ∧
      ((upsertDone s.2 = false ∧ s.1.points = w₀.points) ∨ s.1.HasComplete filepath) := by
  cases h with
  | idle h =>
    refine ⟨fun pt hpt => ?_, .inl ⟨h.quiet.upsertDone, h.points⟩⟩
    rw [h.points] at hpt
    obtain ⟨hid, hver⟩ := hdrawn pt hpt
    rw [h.nextUuid]
    exact ⟨by omega, fun v hv => by have := hver v hv; omega⟩
  | added hv h =>
    obtain rfl : _ = filepath := Option.some_inj.mp (hv.normalized.symm.trans hpath)
    exact ⟨h.drawn, .inr (hasComplete_of_new hdrawn hv (fun _ h => h) h.points)⟩
  | replaced hv h =>
    obtain rfl : _ = filepath := Option.some_inj.mp (hv.normalized.symm.trans hpath)
    exact ⟨h.drawn, .inr (hasComplete_of_new hdrawn hv (fun _ => List.mem_of_mem_filter) h.points)⟩

theorem attempt_of_steps {w : World} (hdrawn : w.UuidsDrawn) {rest : App IndexDecision} {s : Traced}
    (hrun : (indexFile env path).Steps ((services env).answers fun _ _ => True) (w, []) rest s) :
    Attempt env w path s := by
  refine wp_steps_inv (indexFile_spec hdrawn (.start w) path) hrun (fun _ _ h => h) fun r s h => ?_
  cases r with
  | error e => obtain ⟨n, h⟩ := h; exact .idle h
  | ok d =>
    cases d with
    | indexed => obtain ⟨p, new, hv, h⟩ := h; exact .replaced hv h
    | skipped => obtain ⟨n, h⟩ := h; exact .idle h
    | failed =>
      rcases h with ⟨n, h⟩ | ⟨p, new, v, hv, h, -⟩
      · exact .idle h
      · exact .added hv h
    | missing => exact h.elim
    | unchanged => exact h.elim

/-- What one attempt preserves carries over to runs of attempts. -/
theorem Attempts.invariant {w : World} {upserted : Bool} (h : Attempts env filepath w upserted) :
    w.UuidsDrawn ∧ (upserted = true → w.HasComplete filepath) := by
  induction h with
  | start hdrawn => exact ⟨hdrawn, by simp⟩
  | @attempt w w' _ _ _ _ fs ensured _ hpath hrun ih =>
    obtain ⟨hdrawn, hcomplete⟩ := ih
    have hdrawn : World.UuidsDrawn { w with fs, ensured } := hdrawn
    obtain ⟨hdrawn', hcases⟩ := (attempt_of_steps hdrawn hrun).cases hdrawn hpath
    refine ⟨hdrawn', fun hup => ?_⟩
    rcases hcases with ⟨hnone, hsame⟩ | hdone
    · rw [hnone, Bool.or_false] at hup
      exact (hcomplete hup).congr hsame
    · exact hdone

/-- Once an attempt has completed its upsert, every later state has a complete version
of the document, wherever attempts fail or the process is killed. -/
theorem indexFile_no_empty_window (env : Env) (filepath : PurePath) (w : World)
    (h : Attempts env filepath w true) : w.HasComplete filepath :=
  h.invariant.2 rfl

/-- The file is indexed, then it changes and the stale delete of the second attempt raises. -/
theorem indexFile_no_empty_window_sample :
    let w₁ := (runIn (indexFile Env.sample samplePath) [] (sampleWorld [104, 105])).2.1
    let w₂ := (runIn (indexFile Env.sample samplePath)
      [false, false, false, false, false, false, false, false, true]
      { w₁ with fs := (sampleWorld [104]).fs }).2.1
    w₂.HasComplete samplePath :=
  indexFile_no_empty_window Env.sample samplePath _
    (.attempt (sampleWorld [104]).fs true
      (.attempt (sampleWorld [104, 105]).fs false
        (.start (w := sampleWorld [104, 105])
          (by simp [World.UuidsDrawn, sampleWorld, World.sample, World.points]))
        (by decide) (Prog.run_steps (services Env.sample) (fun _ _ => True) _ [] _))
      (by decide) (Prog.run_steps (services Env.sample) (fun _ _ => True) _ _ _))

end LocalRag
