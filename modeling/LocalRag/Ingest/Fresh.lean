-- SUMMARY: What index_file leaves in an empty store without failures, and that undisturbed runs elsewhere leave the same.
import LocalRag.Ingest.Progress
import LocalRag.Ingest.Reindexing

/-! # Fresh points -/

namespace LocalRag

open PyText PyPath Effects

/-- A world with some files and nothing stored; the next uuid is `id`. -/
def World.fresh (fs : FileSystem) (id : ℕ) : World where
  fs
  collection := none
  fingerprints := some .empty
  ensured := false
  nextUuid := id

/-- The points that `index_file` leaves under a path in an empty store, without failures. -/
def freshPoints (env : Env) (fs : FileSystem) (p : PurePath) (id : ℕ) : List Point :=
  ((indexFile env p).run (services env) (fun _ _ => False) [] (World.fresh fs id, [])).2.1.pointsAt p

variable {env : Env} {p : PurePath} {fs : FileSystem} {node : FileNode} {vectors : List (List ℚ)}
  {w w₀ : World} {s : Traced}

theorem World.ready_fresh (fs : FileSystem) (id : ℕ) : (World.fresh fs id).Ready :=
  ⟨rfl, nofun, nofun⟩

theorem World.uuidsDrawn_fresh (fs : FileSystem) (id : ℕ) : (World.fresh fs id).UuidsDrawn :=
  fun _ hpt => (List.not_mem_nil hpt).elim

theorem Indexable.unique {node' : FileNode} {vectors' : List (List ℚ)}
    (h : Indexable env fs p node vectors) (h' : Indexable env fs p node' vectors') :
    node' = node ∧ vectors' = vectors := by
  have hnode : node' = node := Option.some_inj.mp (h'.file.symm.trans h.file)
  subst hnode
  exact ⟨rfl, Except.ok.inj (h'.embed.symm.trans h.embed)⟩

/-- A version of the file at a real path is the version of an indexable file. -/
theorem Version.indexable {filepath : PurePath} {new : List Point} (hreal : w.fs.Real p)
    (hv : Version env w p filepath new) : filepath = p ∧ ∃ node vectors,
      Indexable env w.fs p node vectors ∧
      new = versionPoints env p p (env.decode node.bytes) vectors w.nextUuid := by
  obtain rfl : p = filepath :=
    Option.some_inj.mp ((w.fs.normalize_of_real hreal).symm.trans hv.normalized)
  obtain ⟨node, vectors, hfile, hsize, hchunks, hembed, hnew⟩ := hv.exists_content
  exact ⟨rfl, node, vectors, ⟨hreal, w.fs.fileAt_of_real hreal ▸ hfile, hsize, hchunks, hembed⟩, hnew⟩

/-- What an attempt without failures leaves: the version of an indexable file, and otherwise
the points there were. -/
structure CleanEnd (env : Env) (w₀ : World) (p : PurePath) (r : Except Exn IndexDecision)
    (w : World) : Prop where
  fs : w.fs = w₀.fs
  fingerprints : w.fingerprints = w₀.fingerprints
  indexed : ∀ node vectors, Indexable env w₀.fs p node vectors → r = .ok .indexed ∧
    w.pointsAt p = versionPoints env p p (env.decode node.bytes) vectors w₀.nextUuid
  others : (∀ node vectors, ¬ Indexable env w₀.fs p node vectors) →
    r ≠ .ok .indexed ∧ w.points = w₀.points

/-- Without failures and without other threads an attempt is undisturbed. -/
theorem undisturbed_of_clean (c : Call) (s : Traced) (o : Except Exn (Services.Reply c)) (s' : Traced)
    (h : (services env).answers (fun _ _ => False) c s o s') : Undisturbed env p c s.1 o s'.1 := by
  obtain ⟨rfl, rfl⟩ | ⟨hfail, -⟩ := h
  · exact ⟨s.1, .refl p s.1, rfl, rfl⟩
  · exact hfail.elim

theorem indexFile_clean (hdrawn : w₀.UuidsDrawn) (hready : w₀.Ready) (hreal : w₀.fs.Real p)
    (hs : Idle w₀ 0 s) (hs₀ : s.1 = w₀) :
    wp ((services env).answers fun _ _ => False) (fun _ _ => True) (indexFile env p)
      (fun r s' => CleanEnd env w₀ p r s'.1) s := by
  have hends : wp ((services env).answers fun _ _ => False) (fun _ _ => True) (indexFile env p)
      (AttemptEnds env w₀ p fun _ _ => False) s :=
    wp_conseq (indexFile_spec hdrawn hs p) (fun _ _ _ => trivial) fun _ _ h => h
  by_cases hindexable : ∃ node vectors, Indexable env w₀.fs p node vectors
  · obtain ⟨node, vectors, hindexable⟩ := hindexable
    have hsees : Sees env p node vectors (w₀.hashAt p) w₀.collection.isSome s.1 := by
      rw [hs₀]
      exact ⟨hindexable, rfl, rfl, hready⟩
    have hprogress := wp_simulate (A := (services env).answers fun _ _ => False) (fun _ => True)
      (indexFile_progress hsees) trivial fun c s o s' _ _ ha =>
        ⟨trivial, undisturbed_of_clean c s o s' ha⟩
    refine wp_conseq (wp_and hends hprogress) (fun _ _ _ => trivial) ?_
    rintro _ s' ⟨hend, -, rfl, -⟩
    obtain ⟨filepath, new, hv, hrep⟩ := hend
    obtain ⟨rfl, node', vectors', hindexable', hnew⟩ := hv.indexable hreal
    refine ⟨hrep.fs, hrep.fingerprints, fun node'' vectors'' h => ⟨rfl, ?_⟩, fun hnone => ?_⟩
    · obtain ⟨rfl, rfl⟩ := h.unique hindexable'
      exact hnew ▸ hrep.pointsAt_self hv
    · exact absurd hindexable (hnone node vectors)
  · refine wp_mono hends fun r s' hend => ?_
    have hnone : ∀ filepath new, ¬ Version env w₀ p filepath new := fun filepath new hv => by
      obtain ⟨-, node, vectors, h, -⟩ := hv.indexable hreal
      exact hindexable ⟨node, vectors, h⟩
    have hidle : ∀ {n}, Idle w₀ n s' → r ≠ .ok .indexed → CleanEnd env w₀ p r s'.1 :=
      fun h hr => ⟨h.fs, h.fingerprints, fun node vectors h => absurd ⟨node, vectors, h⟩ hindexable,
        fun _ => ⟨hr, h.points⟩⟩
    cases r with
    | error e => obtain ⟨n, h⟩ := hend; exact hidle h nofun
    | ok d =>
      cases d with
      | indexed => obtain ⟨filepath, new, hv, -⟩ := hend; exact absurd hv (hnone filepath new)
      | skipped => obtain ⟨n, h⟩ := hend; exact hidle h nofun
      | failed =>
        rcases hend with ⟨n, h⟩ | ⟨filepath, new, v, hv, -⟩
        · exact hidle h nofun
        · exact absurd hv (hnone filepath new)
      | missing => exact hend.elim
      | unchanged => exact hend.elim

theorem freshPoints_clean (env : Env) {fs : FileSystem} (hreal : fs.Real p) (id : ℕ) :
    ∃ r w, CleanEnd env (World.fresh fs id) p r w ∧ freshPoints env fs p id = w.pointsAt p := by
  have hspec : wp ((services env).answers fun _ _ => False) (fun _ _ => True) (indexFile env p)
      (fun r s' => CleanEnd env (World.fresh fs id) p r s'.1) (World.fresh fs id, []) :=
    indexFile_clean (World.uuidsDrawn_fresh fs id) (World.ready_fresh fs id) hreal (.start _) rfl
  have hend := wp_steps_post hspec (Prog.run_steps (services env) (fun _ _ => False) _ [] _)
  exact ⟨_, _, hend, rfl⟩

theorem freshPoints_of_indexable (h : Indexable env fs p node vectors) (id : ℕ) :
    freshPoints env fs p id = versionPoints env p p (env.decode node.bytes) vectors id := by
  obtain ⟨r, w, hend, hfresh⟩ := freshPoints_clean env h.real id
  rw [hfresh]
  exact (hend.indexed node vectors h).2

theorem freshPoints_of_not_indexable (hreal : fs.Real p)
    (h : ∀ node vectors, ¬ Indexable env fs p node vectors) (id : ℕ) :
    freshPoints env fs p id = [] := by
  obtain ⟨r, w, hend, hfresh⟩ := freshPoints_clean env hreal id
  rw [hfresh, World.pointsAt, (hend.others h).2]
  rfl

theorem versionPoints_length (h : Indexable env fs p node vectors) (id : ℕ) :
    (versionPoints env p p (env.decode node.bytes) vectors id).length =
      (documentChunks env p (env.decode node.bytes)).length := by
  simp [versionPoints, pointsFrom_length, embedTexts_length h.embed]

end LocalRag
