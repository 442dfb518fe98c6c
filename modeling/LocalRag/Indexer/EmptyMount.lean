-- SUMMARY: What the startup cleanup removes below watch roots that are empty directories, and when that is nothing.
import LocalRag.Indexer.Removal

/-!
# Empty mounts at startup

A bind mount that is not there is an empty directory. `_iter_watch_paths` takes every root
that exists for accessible, so the cleanup finds all files below an empty root missing
and removes them from the index, unless the validation of the required mounts stopped
`main` before.
-/

namespace LocalRag

open PyText PyPath Effects Sql

/-! ## Roots -/

namespace WatcherConfig

variable (config : WatcherConfig) (fs : FileSystem)

/-- A watch root that exists and is an empty directory. -/
def EmptyRoot (root : PurePath) : Prop :=
  (∃ entry ∈ config.watchPaths, entry.root fs = some root) ∧ fs.iterdir root = some []

end WatcherConfig

/-- `main` stops at a required mount that does not exist, or is empty and must not be. -/
def RequiredMount.Broken (mount : RequiredMount) (fs : FileSystem) : Prop :=
  ∀ root, fs.normalize mount.path = some root →
    fs.pathExists root = false ∨ mount.requireNonEmpty = true ∧ fs.globStar root = []

/-- What is stored for the tracked paths under empty roots stays. -/
def SparesEmptyRoots (config : WatcherConfig) (w w' : World) : Prop :=
  ∀ root, config.EmptyRoot w.fs root → ∀ p, w.Tracks p → p.isRelativeTo root = true →
    w'.hashAt p = w.hashAt p ∧ w'.pointsAt p = w.pointsAt p

/-- No tracked path that is missing under the watch roots resolves to a tracked path under an empty
root. -/
def NoneMissing (config : WatcherConfig) (w : World) : Prop :=
  ∀ root, config.EmptyRoot w.fs root → ∀ p, w.Tracks p → p.isRelativeTo root = true →
    ∀ q, w.Tracks q → config.UnderRoot w.fs q → w.fs.pathExists q = false → w.fs.normalize q ≠ some p

variable {env : Env} {config : WatcherConfig} {w w₁ w' : World} {p q : PurePath} {α : Type}
  {gone : PurePath → Prop}

/-- The maintenance commands have their own loop over the roots that the watcher collects. -/
theorem accessibleRoots_eq (entries : List WatchEntry) :
    accessibleRoots entries = List.map Prod.snd <$> iterWatchPaths entries := by
  induction entries with
  | nil => rfl
  | cons entry rest ih =>
    refine congrArg (Prog.call (I := Services) (.expanduser entry.path)) (funext fun raw => ?_)
    cases raw with
    | error e => rfl
    | ok raw =>
    refine congrArg (Prog.call (I := Services) (.pathExists raw)) (funext fun found => ?_)
    rcases found with e | _ | _
    · rfl
    · exact ih
    refine congrArg (Prog.call (I := Services) (.normalizePath raw)) (funext fun root => ?_)
    cases root with
    | error e => rfl
    | ok root =>
      change accessibleRoots rest >>= (fun roots => pure (root :: roots)) =
        List.map Prod.snd <$> (iterWatchPaths rest >>= fun pairs => pure ((entry, root) :: pairs))
      rw [ih, map_bind, bind_map_left]
      rfl

theorem returns_iterWatchPaths (entries : List WatchEntry) :
    Returns env (iterWatchPaths entries) w fun pairs w' =>
      w' = w ∧ ∀ p, UnderRoots (some (pairs.map Prod.snd)) p ↔
        ∃ entry ∈ entries, ∃ root ∈ entry.root w.fs, p.isRelativeTo root := by
  have hroots : Returns env (accessibleRoots entries) w _ := returns_accessibleRoots entries
  rw [accessibleRoots_eq] at hroots
  refine fun trace => wp_mono (wp_map.mp (hroots trace)) fun r s hr pairs hpairs => ?_
  subst hpairs
  obtain ⟨hw, hunder⟩ := hr _ rfl
  exact ⟨hw, fun p => ⟨fun hp => (hunder p).mp (hp _ rfl), fun hp l hl =>
    Option.some_inj.mp hl ▸ (hunder p).mpr hp⟩⟩

/-! ## What is kept, whatever fails -/

/-- Nothing but the documents in `gone` has changed. -/
structure KeepsOthers (gone : PurePath → Prop) (w w' : World) : Prop where
  fs : w'.fs = w.fs
  tracks : ∀ p, w'.Tracks p → w.Tracks p
  kept : ∀ p, ¬ gone p → w'.hashAt p = w.hashAt p ∧ w'.pointsAt p = w.pointsAt p

abbrev KeepsOthersIn (env : Env) (gone : PurePath → Prop) (w : World) (prog : App α) : Prop :=
  Keeps env (fun _ _ => True) (fun _ _ => True) (KeepsOthers gone w) prog

theorem KeepsOthers.serve {c : Call} (h : KeepsOthers gone w w₁)
    (hhash : ∀ p, ¬ gone p → (serve env c w₁).2.hashAt p = w₁.hashAt p)
    (htracks : ∀ p, (LocalRag.serve env c w₁).2.Tracks p → w₁.Tracks p)
    (hpoints : ∀ p, ¬ gone p → (LocalRag.serve env c w₁).2.pointsAt p = w₁.pointsAt p) :
    KeepsOthers gone w (LocalRag.serve env c w₁).2 := by
  refine ⟨serve_fs.trans h.fs, fun p hp => h.tracks p (htracks p hp), fun p hp => ?_⟩
  rw [hhash p hp, hpoints p hp]
  exact h.kept p hp

theorem keepsOthers_leaves (c : Call) (hc : c.leavesStores = true) : KeepsOthersIn env gone w (call c) := by
  intro s hs
  have hhash : ∀ p, (serve env c s.1).2.hashAt p = s.1.hashAt p := fun p => serve_hashAt <| by
    cases c <;> first | rfl | cases hc
  have hpoints : (serve env c s.1).2.points = s.1.points := serve_points <| by
    cases c <;> first | rfl | cases hc
  refine wp_call.mpr ⟨trivial, hs.serve (fun p _ => hhash p) (fun p hp => ?_) (fun p _ => ?_), fun _ => hs⟩
  · rwa [World.Tracks, hhash] at hp
  · rw [World.pointsAt, World.pointsAt, hpoints]

theorem keepsOthers_normalizePath {s : Traced} (hs : KeepsOthers gone w s.1) (q : PurePath) :
    wp ((services env).answers fun _ _ => True) (fun _ _ => True) (normalizePath q)
      (fun r s' => KeepsOthers gone w s'.1 ∧ ∀ p, r = .ok p → w.fs.normalize q = some p) s := by
  refine wp_call.mpr ⟨trivial, ⟨?_, fun p hp => ?_⟩, fun _ => ⟨hs, nofun⟩⟩
  · rw [serve_looks rfl]
    exact hs
  · exact hs.fs ▸ orRaise_eq_ok_iff.mp hp

/-- The two calls that remove what is stored for a path. -/
theorem keepsOthers_delete (hp : gone p) : KeepsOthersIn env gone w (call (.delete ⟨p, none⟩)) := by
  intro s hs
  refine wp_call.mpr ⟨trivial, hs.serve (fun _ _ => serve_hashAt rfl) (fun q hq => ?_) ?_, fun _ => hs⟩
  · rwa [World.Tracks, serve_hashAt rfl] at hq
  intro q hq
  cases hcol : s.1.collection with
  | none => simp only [serve, onCollection, hcol]
  | some c =>
    simp only [serve, onCollection, hcol]
    rw [pointsAt_mapPoints_delete, if_neg]
    rintro rfl
    exact hq hp

theorem keepsOthers_deleteHash (hp : gone p) : KeepsOthersIn env gone w (call (.deleteHash p)) := by
  intro s hs
  refine wp_call.mpr ⟨trivial, hs.serve (fun q hq => ?_) (fun q hq => ?_) (fun _ _ => ?_), fun _ => hs⟩
  · refine serve_hashAt (decide_eq_false ?_)
    rintro rfl
    exact hq hp
  · exact (tracks_serve hq).resolve_right (by simp)
  · rw [World.pointsAt, World.pointsAt, serve_points rfl]

/-- Removing a document, also where it stops half-way. -/
theorem keepsOthers_removeIndexedDocument (hgone : ∀ p, w.fs.normalize q = some p → gone p) :
    KeepsOthersIn env gone w (removeIndexedDocument q) := by
  intro s hs
  unfold removeIndexedDocument deleteDocument deleteHash
  refine wp_bind.mpr (wp_mono (keepsOthers_normalizePath hs q) ?_)
  rintro (e | p) s₁ ⟨hs₁, hp⟩
  · exact hs₁
  have hp := hp p rfl
  have hself : w.fs.normalize p = some p := w.fs.normalize_of_real (w.fs.real_of_normalize hp)
  refine wp_bind.mpr (wp_bind.mpr (wp_mono (keepsOthers_normalizePath hs₁ p) ?_))
  rintro (e | p') s₂ ⟨hs₂, hp'⟩
  · exact hs₂
  obtain rfl : p = p' := Option.some_inj.mp (hself.symm.trans (hp' p' rfl))
  refine wp_mono (keepsOthers_delete (hgone p hp) s₂ hs₂) ?_
  rintro (e | _) s₃ hs₃
  · exact hs₃
  refine wp_bind.mpr (wp_mono (keepsOthers_normalizePath hs₃ p) ?_)
  rintro (e | p') s₄ ⟨hs₄, hp'⟩
  · exact hs₄
  obtain rfl : p = p' := Option.some_inj.mp (hself.symm.trans (hp' p' rfl))
  exact keepsOthers_deleteHash (hgone p hp) s₄ hs₄

/-! ## The cleanup -/

theorem keepsOthers_cleanupPaths (roots : Option (List PurePath)) (paths : List PurePath)
    (hgone : ∀ q ∈ paths, UnderRoots roots q → w.fs.pathExists q = false →
      ∀ p, w.fs.normalize q = some p → gone p) :
    KeepsOthersIn env gone w (cleanupPaths roots paths) := by
  induction paths with
  | nil => exact .pure _
  | cons filepath rest ih =>
    have ih := ih fun q hq => hgone q (List.mem_cons_of_mem _ hq)
    unfold cleanupPaths
    split
    · exact ih
    rename_i hinside
    have hunder : UnderRoots roots filepath := by
      rintro l rfl
      simpa using hinside
    intro s hs
    refine wp_bind.mpr (wp_call.mpr ⟨trivial, ?_, fun _ => hs⟩)
    dsimp only [serve, onOk]
    split
    · exact ih _ hs
    · next hmissing =>
      -- missing and under the roots, so `gone` has what it resolves to
      rw [Bool.not_eq_true, hs.fs] at hmissing
      have hremove : KeepsOthersIn env gone w (removeIndexedDocument filepath) :=
        keepsOthers_removeIndexedDocument (hgone filepath List.mem_cons_self hunder hmissing)
      exact (hremove.bind fun _ => .bind ih fun _ => .pure _) _ hs

/-- What the startup cleanup removes: what the missing paths under the watch roots resolve to. -/
def WatcherConfig.Cleans (config : WatcherConfig) (w : World) (p : PurePath) : Prop :=
  ∃ q, w.Tracks q ∧ config.UnderRoot w.fs q ∧ w.fs.pathExists q = false ∧ w.fs.normalize q = some p

theorem keepsOthers_cleanupStale {roots : Option (List PurePath)}
    (hroots : ∀ q, UnderRoots roots q → config.UnderRoot w.fs q) :
    KeepsOthersIn env (config.Cleans w) w (cleanupStale roots) := by
  intro s hs
  refine wp_bind.mpr (wp_conseq (wp_and (keepsOthers_leaves .listAllPaths rfl s hs)
    (returns_listAllPaths s.2)) (fun _ _ _ => trivial) ?_)
  rintro (e | paths) s₁ ⟨hs₁, hpaths⟩
  · exact hs₁
  obtain ⟨-, hpaths⟩ := hpaths paths rfl
  refine keepsOthers_cleanupPaths roots paths (fun q hq hunder hmissing p hp => ?_) s₁ hs₁
  exact ⟨q, hs.tracks q ((hpaths q).mp hq), hroots q hunder, hmissing, hp⟩

/-- Whatever fails, the startup removes nothing else. -/
theorem keepsOthers_startup : KeepsOthersIn env (config.Cleans w) w (startup env config) := by
  unfold startup
  refine .bind (.validateRequiredMounts keepsOthers_leaves _) fun roots => ?_
  refine .bind (keepsOthers_leaves .initDb rfl) fun _ s hs => ?_
  refine wp_bind.mpr (wp_conseq (wp_and (Keeps.iterWatchPaths keepsOthers_leaves config.watchPaths s hs)
    (returns_iterWatchPaths config.watchPaths s.2)) (fun _ _ _ => trivial) ?_)
  rintro (e | pairs) s₁ ⟨hs₁, hpairs⟩
  · exact hs₁
  obtain ⟨-, hunder⟩ := hpairs pairs rfl
  rw [hs.fs] at hunder
  exact (Keeps.bind (keepsOthers_cleanupStale fun q => (hunder q).mp) fun _ =>
    .bind (.initialScan keepsOthers_leaves _ pairs) fun _ => .pure _) s₁ hs₁

/-! ## Startups that complete -/

theorem returns_validateRequiredMounts (mounts : List RequiredMount) :
    Returns env (validateRequiredMounts mounts) w fun _ w' =>
      w' = w ∧ ∀ mount ∈ mounts, ¬ mount.Broken w.fs := by
  induction mounts with
  | nil => exact .pure ⟨rfl, by simp⟩
  | cons mount rest ih =>
    unfold validateRequiredMounts
    refine .bind (f := fun root w' => w' = w ∧ w.fs.normalize mount.path = some root)
      (.normalizePath fun root hroot => ⟨rfl, hroot⟩) ?_
    rintro root w ⟨rfl, hroot⟩
    refine .bind (f := fun (found : Bool) w' => w' = w ∧ w.fs.pathExists root = found)
      (.call fun found hfound => ⟨rfl, Except.ok.inj hfound⟩) ?_
    rintro found w ⟨rfl, rfl⟩
    split
    · exact .throw
    rename_i hfound
    rw [Bool.not_eq_true', Bool.not_eq_false] at hfound
    -- what comes after the look into the directory, which is made only where one is wanted
    have hrest : ∀ empty : Bool, (empty = false → ¬ mount.Broken w.fs) →
        Returns env (if empty then MonadExcept.throw (Exn.mountEmpty root)
          else validateRequiredMounts rest >>= fun roots => pure (root :: roots)) w
          fun _ w' => w' = w ∧ ∀ m ∈ mount :: rest, ¬ m.Broken w.fs := by
      intro empty hempty
      split
      · exact .throw
      · next hfull =>
        refine .bind ih ?_
        rintro roots w ⟨rfl, hroots⟩
        exact .pure ⟨rfl, List.forall_mem_cons.mpr ⟨hempty (Bool.eq_false_iff.mpr hfull), hroots⟩⟩
    split
    · refine .bind (f := fun (children : List PurePath) w' => w' = w ∧ w.fs.iterdir root = some children)
        (.call fun children hlist => ⟨?_, orRaise_eq_ok_iff.mp hlist⟩) ?_
      · exact serve_looks rfl w
      rintro children w ⟨rfl, hlist⟩
      refine hrest children.isEmpty fun hfull hbroken => ?_
      rcases hbroken root hroot with hmissing | ⟨-, hempty⟩
      · rw [hfound] at hmissing
        cases hmissing
      · rw [FileSystem.globStar, hlist, Option.getD_some] at hempty
        subst hempty
        cases hfull
    · next hany =>
      refine hrest false fun _ hbroken => ?_
      rcases hbroken root hroot with hmissing | ⟨hsome, -⟩
      · rw [hfound] at hmissing
        cases hmissing
      · exact hany hsome

theorem returns_initialScan (h : WatchHandler) (pairs : List (WatchEntry × PurePath)) :
    Returns env (initialScan h env pairs) w fun _ w' => Removes (fun _ => False) w w' := by
  intro trace
  have hnone : Removes (fun _ => False) w w := .none_of_same rfl (fun _ => rfl) rfl
  exact wp_conseq (Keeps.initialScan Removal.keeps_removes h pairs (w, trace) hnone)
    (fun _ _ _ => trivial) fun _ _ hs _ _ => hs

theorem returns_startup : Returns env (startup env config) w fun _ w' =>
    (∀ mount ∈ config.requiredMounts, ¬ mount.Broken w.fs) ∧ Removes (fun q =>
      w.Tracks q ∧ config.UnderRoot w.fs q ∧ w.fs.pathExists q = false) w w' := by
  unfold startup
  refine .bind (returns_validateRequiredMounts _) ?_
  rintro roots w ⟨rfl, hmounts⟩
  refine .bind (f := fun _ w₁ => Removes (fun _ => False) w w₁)
    (.call fun _ _ => .none_of_same serve_fs (fun _ => serve_hashAt rfl) (serve_points rfl)) ?_
  intro _ w₁ hinit
  refine .bind (returns_iterWatchPaths _) ?_
  rintro pairs w₁ ⟨rfl, hunder⟩
  refine .bind (Removal.returns_program (.cleanupStale _)) fun _ w₂ hcleanup => ?_
  refine .bind (returns_initialScan _ pairs) fun _ w₃ hscan => .pure ⟨hmounts, ?_⟩
  refine ((hinit.trans hcleanup).trans hscan).congr fun q => ?_
  have htracks : w₁.Tracks q ↔ w.Tracks q := by simp [hinit.exactly.tracks]
  rw [false_or, or_false, Removal.Selects, htracks, hunder, hinit.fs]
  rfl

/-- A required mount that is not there stops the startup before it removes anything. -/
theorem keeps_startup_broken (hbroken : ∃ mount ∈ config.requiredMounts, mount.Broken w.fs) :
    wp ((services env).answers fun _ _ => True) (fun _ _ => True) (startup env config)
      (fun _ s => KeepsOthers (fun _ => False) w s.1) (w, []) := by
  unfold startup
  have hrefl : KeepsOthers (fun _ => False) w w := ⟨rfl, fun _ => id, fun _ _ => ⟨rfl, rfl⟩⟩
  refine wp_bind.mpr (wp_conseq (wp_and
    (Keeps.validateRequiredMounts keepsOthers_leaves config.requiredMounts (w, []) hrefl)
    (returns_validateRequiredMounts config.requiredMounts [])) (fun _ _ _ => trivial) ?_)
  rintro (e | roots) s ⟨hs, hmounts⟩
  · exact hs
  · obtain ⟨mount, hmount, hbroken⟩ := hbroken
    exact ((hmounts roots rfl).2 mount hmount hbroken).elim

/-- Whatever fails, a startup that a required mount stops, or that finds no missing file whose document
is below an empty root, removes nothing below the empty roots. One that completes spares these only if
it finds none. -/
theorem startup_spares_emptyRoots_iff (env : Env) (config : WatcherConfig) (w w' : World)
    (trace : List (Event Services)) (r : Except Exn (WatchHandler × List (WatchEntry × PurePath)))
    (hrun : (startup env config).Steps ((services env).answers fun _ _ => True) (w, []) (.ret r)
      (w', trace)) :
    ((∃ mount ∈ config.requiredMounts, mount.Broken w.fs) ∨ NoneMissing config w →
      SparesEmptyRoots config w w') ∧
    ∀ a, r = .ok a → (SparesEmptyRoots config w w' ↔
      (∃ mount ∈ config.requiredMounts, mount.Broken w.fs) ∨ NoneMissing config w) := by
  have hspares : (∃ mount ∈ config.requiredMounts, mount.Broken w.fs) ∨ NoneMissing config w →
      SparesEmptyRoots config w w' := by
    intro h root hroot p htracked hp
    rcases h with hbroken | hnone
    · exact (wp_steps_post (keeps_startup_broken hbroken) hrun).kept p id
    · have hrefl : KeepsOthers (config.Cleans w) w w := ⟨rfl, fun _ => id, fun _ _ => ⟨rfl, rfl⟩⟩
      refine (wp_steps_post (keepsOthers_startup (w, []) hrefl) hrun).kept p ?_
      rintro ⟨q, hq, hunder, hmissing, hnorm⟩
      exact hnone root hroot p htracked hp q hq hunder hmissing hnorm
  refine ⟨hspares, fun a ha => ⟨fun hkept => .inr ?_, hspares⟩⟩
  -- a document that was selected for removal lost its fingerprint, so it was not spared
  obtain ⟨-, hremoves⟩ := wp_steps_post (returns_startup []) hrun a ha
  intro root hroot p htracked hp q hq hunder hmissing hnorm
  have hlost := (hremoves.exactly.removed p ⟨q, ⟨hq, hunder, hmissing⟩, hnorm⟩).1
  rw [World.Tracks, ← (hkept root hroot p htracked hp).1, hlost] at htracked
  cases htracked

/-! ## Examples -/

/-- A configuration with one watch root, which is a required mount if `required` says so. -/
def mountConfig (required : Bool) : WatcherConfig where
  watchPaths := [{ path := PurePath.parse "/w".toList }]
  requiredMounts := if required then [⟨PurePath.parse "/w".toList, true⟩] else []

/-- The watch root is empty, and a file in it is tracked. -/
def unmountedWorld : World :=
  { World.sample [] [["w".toList]] with
    collection := some ⟨[(denseVector, ⟨1, .cosine⟩)], [(sparseVector, .idf)], [], []⟩
    fingerprints := some (Table.empty.upsert ⟨samplePath, []⟩) }

/-- A startup without failures. -/
def started (config : WatcherConfig) : Except Exn (WatchHandler × List (WatchEntry × PurePath)) × Traced :=
  (startup Env.sample config).run (services Env.sample) (fun _ _ => True) [] (unmountedWorld, [])

theorem started_steps (config : WatcherConfig) : (startup Env.sample config).Steps
    ((services Env.sample).answers fun _ _ => True) (unmountedWorld, []) (.ret (started config).1)
    (started config).2 :=
  Prog.run_steps (services Env.sample) (fun _ _ => True) _ [] (unmountedWorld, [])

theorem normalize_watchRoot : unmountedWorld.fs.normalize (PurePath.parse "/w".toList) =
    some (PurePath.parse "/w".toList) := by decide +kernel

theorem emptyRoot_unmountedWorld (required : Bool) :
    (mountConfig required).EmptyRoot unmountedWorld.fs (PurePath.parse "/w".toList) := by
  refine ⟨⟨{ path := PurePath.parse "/w".toList }, List.mem_singleton.mpr rfl, ?_⟩, by decide +kernel⟩
  have hfound : unmountedWorld.fs.pathExists (PurePath.parse "/w".toList) = true := by decide +kernel
  have hexp : unmountedWorld.fs.expanduser (PurePath.parse "/w".toList) =
    some (PurePath.parse "/w".toList) := by decide +kernel
  rw [WatchEntry.root, hexp, Option.bind_some, if_pos hfound, normalize_watchRoot]

/-- The required mount is empty, so `main` stops. -/
theorem startup_spares_emptyRoots_iff_sample :
    (started (mountConfig true)).1.toBool = false ∧
      SparesEmptyRoots (mountConfig true) unmountedWorld (started (mountConfig true)).2.1 := by
  have hempty : unmountedWorld.fs.globStar (PurePath.parse "/w".toList) = [] := by decide +kernel
  have hbroken : RequiredMount.Broken ⟨PurePath.parse "/w".toList, true⟩ unmountedWorld.fs := by
    intro root hroot
    obtain rfl := Option.some_inj.mp (normalize_watchRoot.symm.trans hroot)
    exact .inr ⟨rfl, hempty⟩
  refine ⟨by decide +kernel, (startup_spares_emptyRoots_iff Env.sample (mountConfig true) unmountedWorld
    _ _ _ (started_steps _)).1 (.inl ⟨_, List.mem_singleton.mpr rfl, hbroken⟩)⟩

/-- The fingerprint of the file in the empty watch root is removed. -/
theorem startup_removes_below_emptyRoot : ¬ ∀ (config : WatcherConfig) (w w' : World)
    (trace : List (Event Services)) (r : Except Exn (WatchHandler × List (WatchEntry × PurePath))),
    (startup Env.sample config).Steps ((services Env.sample).answers fun _ _ => True) (w, []) (.ret r)
      (w', trace) → SparesEmptyRoots config w w' := by
  intro hspares
  have hlost : (started (mountConfig false)).2.1.hashAt samplePath = none := by decide +kernel
  have htracked : unmountedWorld.hashAt samplePath = some [] := by decide +kernel
  have htracks : unmountedWorld.Tracks samplePath := Option.isSome_of_eq_some htracked
  obtain ⟨hkept, -⟩ := hspares (mountConfig false) unmountedWorld _ _ _ (started_steps (mountConfig false)) _
    (emptyRoot_unmountedWorld false) samplePath htracks (by decide)
  exact Option.some_ne_none _ (htracked.symm.trans (hkept.symm.trans hlost))

end LocalRag
