-- SUMMARY: What the removing maintenance commands remove: exactly the paths they selected, as long as these resolve to themselves.
import LocalRag.Indexer.ScanScope
import LocalRag.Indexer.StaleCleanup

/-!
# Removal by the maintenance commands

`purge_ignored` and `cleanup_stale` select tracked paths as they were stored, and
`remove_indexed_document` resolves each of them again before it deletes anything. A
path that has become a symbolic link, or come to lie behind one, is selected under its
own name and removed under another.
-/

namespace LocalRag

open PyText PyPath Effects Sql

/-- The root of a watch entry, where it is accessible. -/
def WatchEntry.root (entry : WatchEntry) (fs : FileSystem) : Option PurePath :=
  (fs.expanduser entry.path).bind fun raw => if fs.pathExists raw then fs.normalize raw else none

/-- The path lies under an accessible watch root. -/
def WatcherConfig.UnderRoot (config : WatcherConfig) (fs : FileSystem) (p : PurePath) : Prop :=
  ∃ entry ∈ config.watchPaths, ∃ root ∈ entry.root fs, p.isRelativeTo root

variable {env : Env} {config : WatcherConfig} {w w₁ w' : World} {p q : PurePath} {α β : Type}

/-! ## What a program returns -/

/-- Whenever the program returns a value, it and the final world are as `f` says, whichever
calls fail. -/
def Returns (env : Env) (prog : App α) (w : World) (f : α → World → Prop) : Prop :=
  ∀ trace, wp ((services env).answers fun _ _ => True) (fun _ _ => True) prog
    (fun r s => ∀ a, r = .ok a → f a s.1) (w, trace)

theorem Returns.pure {a : α} {f : α → World → Prop} (h : f a w) :
    Returns env (Pure.pure a) w f := by
  rintro trace _ ⟨⟩
  exact h

theorem Returns.throw {e : Exn} {f : α → World → Prop} :
    Returns env (MonadExcept.throw e : App α) w f := fun _ _ => nofun

theorem Returns.mono {prog : App α} {f f' : α → World → Prop} (h : Returns env prog w f)
    (hf : ∀ a w', f a w' → f' a w') : Returns env prog w f' :=
  fun trace => wp_mono (h trace) fun _ s hr a ha => hf a s.1 (hr a ha)

theorem Returns.bind {prog : App α} {g : α → App β} {f : α → World → Prop}
    {f' : β → World → Prop} (h : Returns env prog w f)
    (hg : ∀ a w', f a w' → Returns env (g a) w' f') : Returns env (prog >>= g) w f' := by
  refine fun trace => wp_bind.mpr (wp_mono (h trace) fun r s hr => ?_)
  cases r with
  | ok a => exact hg a s.1 (hr a rfl) s.2
  | error e => exact nofun

theorem Returns.call {c : Call} {f : Services.Reply c → World → Prop}
    (h : ∀ a, (serve env c w).1 = .ok a → f a (serve env c w).2) :
    Returns env (LocalRag.call c) w f :=
  fun _ => wp_call.mpr ⟨trivial, fun a ha => h a ha, fun _ => nofun⟩

theorem Returns.normalizePath {f : PurePath → World → Prop}
    (h : ∀ p, w.fs.normalize q = some p → f p w) : Returns env (LocalRag.normalizePath q) w f := by
  refine .call fun p hp => ?_
  have hnorm := orRaise_eq_ok_iff.mp hp
  simp only [serve, hnorm, orRaise]
  exact h p hnorm

/-! ## Selecting -/

theorem returns_accessibleRoots (entries : List WatchEntry) :
    Returns env (accessibleRoots entries) w fun roots w' =>
      w' = w ∧ ∀ p, isUnderAnyRoot p roots = true ↔
        ∃ entry ∈ entries, ∃ root ∈ entry.root w.fs, p.isRelativeTo root := by
  induction entries with
  | nil => exact .pure ⟨rfl, by simp [isUnderAnyRoot]⟩
  | cons entry rest ih =>
    unfold accessibleRoots
    refine .bind (f := fun raw w' => w' = w ∧ w.fs.expanduser entry.path = some raw) (.call ?_) ?_
    · intro raw hraw
      have hexp := orRaise_eq_ok_iff.mp hraw
      simp only [serve, hexp, orRaise]
      exact ⟨trivial, rfl⟩
    rintro raw w ⟨rfl, hraw⟩
    refine .bind (f := fun (found : Bool) w' => w' = w ∧ w.fs.pathExists raw = found)
      (.call fun found hfound => ⟨rfl, Except.ok.inj hfound⟩) ?_
    rintro found w ⟨rfl, rfl⟩
    split
    · next hfound =>
      refine .bind (f := fun root w' => w' = w ∧ w.fs.normalize raw = some root)
        (.normalizePath fun root hroot => ⟨rfl, hroot⟩) ?_
      rintro root w ⟨rfl, hroot⟩
      have hentry : entry.root w.fs = some root := by
        simp [WatchEntry.root, hraw, hfound, hroot]
      refine .bind ih ?_
      rintro roots w ⟨rfl, hroots⟩
      refine .pure ⟨rfl, fun p => ?_⟩
      simp only [isUnderAnyRoot, List.any_cons, Bool.or_eq_true, List.mem_cons, exists_eq_or_imp,
        hentry, Option.mem_def, Option.some_inj, exists_eq_left'] at hroots ⊢
      rw [hroots]
    · next hmissing =>
      -- a root that is not there adds no path
      have hentry : entry.root w.fs = none := by simp [WatchEntry.root, hraw, hmissing]
      simpa [hentry] using ih

theorem returns_listAllPaths :
    Returns env listAllPaths w fun paths w' => w' = w ∧ ∀ p, p ∈ paths ↔ w.Tracks p := by
  refine .call fun (paths : List PurePath) hpaths => ?_
  cases ht : w.fingerprints with
  | none =>
    simp only [serve, onTable, ht] at hpaths
    cases hpaths
  | some t =>
    simp only [serve, onTable, ht] at hpaths ⊢
    obtain rfl : (t.rows.map Fingerprint.filepath).insertionSort pathLe = paths := Except.ok.inj hpaths
    exact ⟨trivial, fun p => (List.mem_insertionSort _).trans (tracks_iff_mem ht).symm⟩

theorem returns_findIgnoredPaths :
    Returns env (findIgnoredPaths env config) w fun ignored w' =>
      w' = w ∧ ∀ q, q ∈ ignored ↔
        w.Tracks q ∧ config.UnderRoot w.fs q ∧ config.accepts env q = false := by
  unfold findIgnoredPaths
  split
  · exact .throw
  refine .bind (returns_accessibleRoots _) ?_
  rintro roots w ⟨rfl, hroots⟩
  split
  · exact .throw
  refine .bind returns_listAllPaths ?_
  rintro paths w ⟨rfl, hpaths⟩
  refine .pure ⟨rfl, fun q => ?_⟩
  rw [List.mem_insertionSort, List.mem_filter, hpaths, Bool.and_eq_true, Bool.not_eq_true', hroots]
  rfl

/-! ## Removing -/

/-- The fingerprints and points of the paths in `gone` are no more, and all others are as before. -/
structure RemovesExactly (gone : PurePath → Prop) (w w' : World) : Prop where
  removed : ∀ p, gone p → w'.hashAt p = none ∧ w'.pointsAt p = []
  kept : ∀ p, ¬ gone p → w'.hashAt p = w.hashAt p ∧ w'.pointsAt p = w.pointsAt p

/-- The documents that the paths in `sel` resolve to are removed. -/
structure Removes (sel : PurePath → Prop) (w w' : World) : Prop where
  fs : w'.fs = w.fs
  resolves : ∀ q, sel q → ∃ p, w.fs.normalize q = some p
  exactly : RemovesExactly (fun p => ∃ q, sel q ∧ w.fs.normalize q = some p) w w'

variable {gone gone' sel sel' : PurePath → Prop}

namespace RemovesExactly

theorem congr (h : RemovesExactly gone w w') (hgone : ∀ p, gone p ↔ gone' p) :
    RemovesExactly gone' w w' := by
  obtain rfl : gone = gone' := funext fun p => propext (hgone p)
  exact h

theorem trans (h : RemovesExactly gone w w₁) (h' : RemovesExactly gone' w₁ w') :
    RemovesExactly (fun p => gone p ∨ gone' p) w w' := by
  refine ⟨fun p hp => ?_, fun p hp => ?_⟩
  · by_cases hp' : gone' p
    · exact h'.removed p hp'
    · obtain ⟨hhash, hpoints⟩ := h'.kept p hp'
      rw [hhash, hpoints]
      exact h.removed p (hp.resolve_right hp')
  · obtain ⟨hp, hp'⟩ := not_or.mp hp
    obtain ⟨hhash, hpoints⟩ := h'.kept p hp'
    rw [hhash, hpoints]
    exact h.kept p hp

theorem tracks (h : RemovesExactly gone w w') (p : PurePath) : w'.Tracks p ↔ w.Tracks p ∧ ¬ gone p := by
  by_cases hp : gone p
  · simp [World.Tracks, (h.removed p hp).1, hp]
  · simp [World.Tracks, (h.kept p hp).1, hp]

end RemovesExactly

namespace Removes

theorem none_of_same (hfs : w'.fs = w.fs) (hhash : ∀ p, w'.hashAt p = w.hashAt p)
    (hpoints : w'.points = w.points) : Removes (fun _ => False) w w' := by
  refine ⟨hfs, fun _ hq => hq.elim, fun _ hp => ?_, fun p _ => ⟨hhash p, ?_⟩⟩
  · obtain ⟨_, hq, -⟩ := hp
    exact hq.elim
  · rw [World.pointsAt, World.pointsAt, hpoints]

theorem congr (h : Removes sel w w') (hsel : ∀ q, sel q ↔ sel' q) : Removes sel' w w' := by
  obtain rfl : sel = sel' := funext fun q => propext (hsel q)
  exact h

theorem trans (h : Removes sel w w₁) (h' : Removes sel' w₁ w') :
    Removes (fun q => sel q ∨ sel' q) w w' := by
  refine ⟨h'.fs.trans h.fs, fun q hq => ?_, (h.exactly.trans h'.exactly).congr fun p => ?_⟩
  · rcases hq with hq | hq
    · exact h.resolves q hq
    · exact h.fs ▸ h'.resolves q hq
  · simp only [h.fs, or_and_right, exists_or]

/-- Exactly the paths that were to be removed are, when all of these resolve to themselves. -/
theorem exactly_iff (h : Removes sel w w') (htracked : ∀ q, sel q → w.Tracks q) :
    RemovesExactly sel w w' ↔ ∀ q, sel q → w.fs.Real q := by
  constructor
  · intro hexactly q hq
    by_contra hreal
    have hmissed : ¬ ∃ q', sel q' ∧ w.fs.normalize q' = some q := by
      rintro ⟨q', -, hnorm⟩
      exact hreal (w.fs.real_of_normalize hnorm)
    have hhash : w.hashAt q = none := (h.exactly.kept q hmissed).1 ▸ (hexactly.removed q hq).1
    have htracks := htracked q hq
    rw [World.Tracks, hhash] at htracks
    cases htracks
  · intro hreal
    refine h.exactly.congr fun p => ⟨?_, fun hp => ⟨p, hp, w.fs.normalize_of_real (hreal p hp)⟩⟩
    rintro ⟨q, hq, hnorm⟩
    rw [w.fs.normalize_of_real (hreal q hq)] at hnorm
    exact Option.some_inj.mp hnorm ▸ hq

end Removes

theorem returns_removeIndexedDocument :
    Returns env (removeIndexedDocument q) w fun _ w' => Removes (· = q) w w' := by
  unfold removeIndexedDocument deleteDocument deleteHash
  refine .bind (f := fun p w' => w' = w ∧ w.fs.normalize q = some p)
    (.normalizePath fun p hp => ⟨rfl, hp⟩) ?_
  rintro p w ⟨rfl, hp⟩
  have hself : w.fs.normalize p = some p := w.fs.normalize_of_real (w.fs.real_of_normalize hp)
  refine .bind (f := fun _ w₁ => w₁.fs = w.fs ∧ (∀ p', w₁.hashAt p' = w.hashAt p') ∧
    ∀ p', w₁.pointsAt p' = if p' = p then [] else w.pointsAt p') (.bind
    (f := fun p' w₁ => p' = p ∧ w₁ = w) (.normalizePath fun p' hp' => ?_) ?_) ?_
  · exact ⟨Option.some_inj.mp (hp'.symm.trans hself), rfl⟩
  · -- the points go first; without a collection the delete raises
    rintro p' w ⟨rfl, rfl⟩
    refine .call fun _ hreply => ⟨serve_fs, fun _ => serve_hashAt rfl, fun p'' => ?_⟩
    cases hcol : w.collection with
    | none =>
      simp only [serve, onCollection, hcol] at hreply
      cases hreply
    | some c =>
      simp only [serve, onCollection, hcol]
      exact pointsAt_mapPoints_delete
  rintro _ w₁ ⟨hfs, hhash, hpoints⟩
  refine .bind (f := fun p' w₂ => p' = p ∧ w₂ = w₁) (.normalizePath fun p' hp' => ?_) ?_
  · rw [hfs, hself] at hp'
    exact ⟨(Option.some_inj.mp hp').symm, rfl⟩
  rintro p' w₁ ⟨rfl, rfl⟩
  refine .call fun _ hreply => ?_
  have hpoints' : (serve env (.deleteHash p') w₁).2.points = w₁.points := serve_points rfl
  have hhash' : ∀ p'', (serve env (.deleteHash p') w₁).2.hashAt p'' =
      if p'' = p' then none else w₁.hashAt p'' := by
    intro p''
    cases ht : w₁.fingerprints with
    | none =>
      simp only [serve, onTable, ht] at hreply
      cases hreply
    | some t =>
      simp only [serve, onTable, ht]
      exact hashAt_mapHashes_delete
  refine ⟨serve_fs.trans hfs, fun _ hq => ⟨p', hq ▸ hp⟩, fun p'' hgone => ?_, fun p'' hkept => ?_⟩
  · obtain ⟨_, rfl, hp''⟩ := hgone
    obtain rfl : p' = p'' := Option.some_inj.mp (hp.symm.trans hp'')
    rw [World.pointsAt, hpoints', hhash', if_pos rfl]
    exact ⟨rfl, (hpoints p').trans (if_pos rfl)⟩
  · have hne : p'' ≠ p' := fun heq => hkept ⟨q, rfl, heq ▸ hp⟩
    rw [World.pointsAt, hpoints', hhash', if_neg hne]
    exact ⟨hhash p'', (hpoints p'').trans (if_neg hne)⟩

theorem returns_removeAll (l : List PurePath) :
    Returns env (removeAll l) w fun _ w' => Removes (· ∈ l) w w' := by
  induction l generalizing w with
  | nil =>
    refine .pure ((Removes.none_of_same rfl (fun _ => rfl) rfl).congr fun q => ?_)
    simp
  | cons q l ih =>
    refine .bind returns_removeIndexedDocument fun _ w₁ hfirst => ih.mono fun _ w₂ hrest => ?_
    refine (hfirst.trans hrest).congr fun q' => ?_
    rw [List.mem_cons]

theorem returns_cleanupPaths (roots : Option (List PurePath)) (paths : List PurePath) :
    Returns env (cleanupPaths roots paths) w fun _ w' =>
      Removes (fun q => q ∈ paths ∧ UnderRoots roots q ∧ w.fs.pathExists q = false) w w' := by
  induction paths generalizing w with
  | nil =>
    refine .pure ((Removes.none_of_same rfl (fun _ => rfl) rfl).congr fun q => ?_)
    simp
  | cons filepath rest ih =>
    unfold cleanupPaths
    split
    case isTrue houtside =>
      -- not under the roots, so neither selected nor looked at
      refine ih.mono fun _ w' hrest => hrest.congr fun q => ?_
      have hnot : ¬ UnderRoots roots filepath := by
        intro hunder
        cases roots with
        | none => cases houtside
        | some l => simp [hunder l rfl] at houtside
      rw [List.mem_cons]
      refine ⟨fun hq => ⟨.inr hq.1, hq.2⟩, fun hq => ⟨hq.1.resolve_left fun heq => ?_, hq.2⟩⟩
      exact hnot (heq ▸ hq.2.1)
    rename_i hinside
    refine .bind (f := fun (found : Bool) w₁ => w₁ = w ∧ w.fs.pathExists filepath = found)
      (.call fun found hfound => ⟨rfl, Except.ok.inj hfound⟩) ?_
    rintro found w ⟨rfl, hfound⟩
    split
    case isTrue htrue =>
      -- still there
      refine ih.mono fun _ w' hrest => hrest.congr fun q => ?_
      rw [List.mem_cons]
      refine ⟨fun hq => ⟨.inr hq.1, hq.2⟩, fun hq => ⟨hq.1.resolve_left fun heq => ?_, hq.2⟩⟩
      rw [← heq, hq.2.2] at hfound
      exact Bool.false_ne_true (hfound.trans htrue)
    case isFalse hfalse =>
      -- selected: the removal leaves the files alone, so the rest selects the same
      refine .bind returns_removeIndexedDocument fun _ w₁ hfirst => ?_
      refine .bind (ih.mono fun _ w₂ hrest => hfirst.trans hrest) ?_
      refine fun n w₂ hremoves => .pure (hremoves.congr fun q => ?_)
      have hmissing : w.fs.pathExists filepath = false := hfound.trans (Bool.eq_false_iff.mpr hfalse)
      have hunder : UnderRoots roots filepath := by
        rintro l rfl
        simpa using hinside
      rw [hfirst.fs, List.mem_cons]
      refine ⟨fun hq => ?_, fun hq => hq.1.imp id fun hrest => ⟨hrest, hq.2⟩⟩
      rcases hq with rfl | hq
      · exact ⟨.inl rfl, hunder, hmissing⟩
      · exact ⟨.inr hq.1, hq.2⟩

/-! ## The commands -/

/-- The maintenance commands that remove tracked paths. -/
inductive Removal where
  /-- `purge_ignored(config, apply=True)` -/
  | purgeIgnored (config : WatcherConfig)
  | cleanupStale (accessibleRoots : Option (List PurePath))

namespace Removal

def program (env : Env) : Removal → App ℕ
  | .purgeIgnored config => LocalRag.purgeIgnored env config true
  | .cleanupStale roots => LocalRag.cleanupStale roots

/-- The tracked paths under an accessible watch root that are not indexable, or do not exist. -/
def Selects (env : Env) (w : World) : Removal → PurePath → Prop
  | .purgeIgnored config, p => w.Tracks p ∧ config.UnderRoot w.fs p ∧ config.accepts env p = false
  | .cleanupStale roots, p => w.Tracks p ∧ UnderRoots roots p ∧ w.fs.pathExists p = false

/-- No watch root is accessible. -/
def NoRoots (fs : FileSystem) : Removal → Prop
  | .purgeIgnored config => ∀ entry ∈ config.watchPaths, entry.root fs = none
  | .cleanupStale roots => roots = some []

variable {m : Removal}

theorem Selects.tracks (h : m.Selects env w p) : w.Tracks p := by
  cases m with
  | purgeIgnored config => exact h.1
  | cleanupStale roots => exact h.1

theorem returns_program (m : Removal) :
    Returns env (m.program env) w fun _ w' => Removes (m.Selects env w) w w' := by
  cases m with
  | purgeIgnored config =>
    unfold program LocalRag.purgeIgnored
    refine .bind (f := fun _ w₁ => Removes (fun _ => False) w w₁)
      (.call fun _ _ => .none_of_same serve_fs (fun _ => serve_hashAt rfl) (serve_points rfl)) ?_
    intro _ w₁ hinit
    have htracks : ∀ p, w₁.Tracks p ↔ w.Tracks p := fun p => by
      simp [hinit.exactly.tracks]
    refine .bind returns_findIgnoredPaths ?_
    rintro ignored w₁ ⟨rfl, hignored⟩
    refine .bind (returns_removeAll ignored) fun _ w₂ hremoves => ?_
    refine .pure ((hinit.trans hremoves).congr fun q => ?_)
    rw [false_or, hignored, htracks, hinit.fs]
    rfl
  | cleanupStale roots =>
    unfold program LocalRag.cleanupStale
    refine .bind returns_listAllPaths ?_
    rintro paths w ⟨rfl, hpaths⟩
    refine (returns_cleanupPaths roots paths).mono fun _ w' hremoves => hremoves.congr fun q => ?_
    rw [hpaths]
    rfl

/-! ### Without an accessible root -/

theorem keeps_removes (c : Call) (hc : c.leavesStores = true) :
    Keeps env (fun _ _ => True) (fun _ _ => True) (Removes (fun _ => False) w) (call c) := by
  intro s hs
  have hserved : Removes (fun _ => False) s.1 (serve env c s.1).2 := by
    refine .none_of_same serve_fs (fun p => serve_hashAt ?_) (serve_points ?_) <;>
      cases c <;> first | rfl | cases hc
  exact wp_call.mpr ⟨trivial, (hs.trans hserved).congr fun _ => or_self_iff, fun _ => hs⟩

theorem returns_findIgnoredPaths_noRoots (hnone : ∀ entry ∈ config.watchPaths, entry.root w.fs = none) :
    Returns env (findIgnoredPaths env config) w fun _ _ => False := by
  unfold findIgnoredPaths
  split
  · exact .throw
  refine .bind (returns_accessibleRoots _) ?_
  rintro roots w ⟨rfl, hroots⟩
  split
  · exact .throw
  · next hsome =>
    obtain ⟨root, hroot⟩ := List.exists_mem_of_ne_nil roots hsome
    have hself : root.isRelativeTo root = true := PurePath.isRelativeTo_iff.mpr ⟨rfl, List.prefix_rfl⟩
    obtain ⟨entry, hentry, root', hroot', -⟩ := (hroots root).mp (List.any_eq_true.mpr ⟨root, hroot, hself⟩)
    rw [hnone entry hentry] at hroot'
    cases hroot'

/-- Without an accessible root nothing is removed, also where a call fails. -/
theorem program_noRoots (hnone : m.NoRoots w.fs) (trace : List (Event Services)) :
    wp ((services env).answers fun _ _ => True) (fun _ _ => True) (m.program env)
      (fun _ s => Removes (fun _ => False) w s.1) (w, trace) := by
  have hrefl : Removes (fun _ => False) w w := .none_of_same rfl (fun _ => rfl) rfl
  cases m with
  | purgeIgnored config =>
    unfold program LocalRag.purgeIgnored
    refine wp_bind.mpr (wp_mono (keeps_removes .initDb rfl (w, trace) hrefl) ?_)
    rintro (e | _) s hs
    · exact hs
    have hnone' : ∀ entry ∈ config.watchPaths, entry.root s.1.fs = none := hs.fs ▸ hnone
    refine wp_bind.mpr (wp_conseq (wp_and (Keeps.findIgnoredPaths keeps_removes config s hs)
      (returns_findIgnoredPaths_noRoots hnone' s.2)) (fun _ _ _ => trivial) ?_)
    rintro (e | ignored) s' ⟨hs', hreturns⟩
    · exact hs'
    · exact (hreturns ignored rfl).elim
  | cleanupStale roots =>
    obtain rfl : roots = some [] := hnone
    -- no path lies under no root
    have hskips : ∀ paths, LocalRag.cleanupPaths (some []) paths = pure 0 := by
      intro paths
      induction paths with
      | nil => rfl
      | cons path rest ih => exact ih
    unfold program LocalRag.cleanupStale
    refine wp_bind.mpr (wp_mono (keeps_removes .listAllPaths rfl (w, trace) hrefl) ?_)
    rintro (e | paths) s hs
    · exact hs
    · rw [onOk, hskips]
      exact hs

end Removal

/-- Whatever calls fail, a command without an accessible root removes nothing, and one that completes
removes exactly the paths that it selected if and only if all of these resolve to themselves. -/
theorem maintenance_removes_selected_iff (env : Env) (m : Removal) (w w' : World)
    (trace : List (Event Services)) (r : Except Exn ℕ)
    (hrun : (m.program env).Steps ((services env).answers fun _ _ => True) (w, []) (.ret r) (w', trace)) :
    (m.NoRoots w.fs → RemovesExactly (fun _ => False) w w') ∧
    ∀ n, r = .ok n → (RemovesExactly (m.Selects env w) w w' ↔ ∀ p, m.Selects env w p → w.fs.Real p) := by
  refine ⟨fun hnone => ?_, fun n hn => ?_⟩
  · refine (wp_steps_post (m.program_noRoots hnone []) hrun).exactly.congr fun p => ?_
    simp
  · exact (wp_steps_post (m.returns_program []) hrun n hn).exactly_iff fun p hp => hp.tracks

/-! ## Examples -/

theorem tracks_two {first second : PurePath} (ht : w.fingerprints =
    some ((Table.empty.upsert ⟨first, []⟩).upsert ⟨second, []⟩)) (hp : w.Tracks p) :
    p = first ∨ p = second := by
  rw [tracks_iff_mem ht] at hp
  obtain ⟨r, hr, rfl⟩ := List.mem_map.mp hp
  rcases Table.mem_upsert.mp hr with rfl | ⟨hr, -⟩
  · exact .inr rfl
  · rcases Table.mem_upsert.mp hr with rfl | ⟨hr, -⟩
    · exact .inl rfl
    · cases hr

/-- A file on a mount that is not there. -/
def unmountedPath : PurePath := PurePath.parse "/v/b.txt".toList

/-- A file under the watch root and one outside are tracked, and neither exists any more. -/
def staleWorld : World :=
  { World.sample [] [["w".toList]] with
    collection := some ⟨[(denseVector, ⟨1, .cosine⟩)], [(sparseVector, .idf)], [], []⟩
    fingerprints := some ((Table.empty.upsert ⟨samplePath, []⟩).upsert ⟨unmountedPath, []⟩) }

/-- The file under the watch root was replaced by a link to the other. -/
def relinkedWorld : World :=
  { staleWorld with fs := { staleWorld.fs with
    links := AList.singleton ["w".toList, "a.txt".toList] unmountedPath
    cwd_linkFree := by
      refine ⟨by simp [staleWorld, World.sample], fun q hq => ?_⟩
      obtain rfl : q = [] := List.prefix_nil.mp hq
      decide } }

def sampleCleanup : Removal := .cleanupStale (some [PurePath.parse "/w".toList])

theorem maintenance_removes_selected_iff_sample :
    (cleanedUp staleWorld).1 = .ok 1 ∧
      RemovesExactly (sampleCleanup.Selects Env.sample staleWorld) staleWorld (cleanedUp staleWorld).2.1 := by
  have hremoved : (cleanedUp staleWorld).1 = .ok 1 := by decide +kernel
  have hrun : (sampleCleanup.program Env.sample).Steps ((services Env.sample).answers fun _ _ => True)
      (staleWorld, []) (.ret (.ok 1)) (cleanedUp staleWorld).2 := cleanedUp_steps hremoved
  refine ⟨hremoved, ((maintenance_removes_selected_iff Env.sample sampleCleanup _ _ _ _ hrun).2 1 rfl).mpr ?_⟩
  intro p hp
  rcases tracks_two rfl hp.tracks with rfl | rfl
  · exact ⟨rfl, by decide, fun _ _ => rfl⟩
  · exact ⟨rfl, by decide, fun _ _ => rfl⟩

/-- The cleanup finds the dangling link, and removes what is stored for the file on the other mount. -/
theorem maintenance_removes_unselected : ¬ ∀ (m : Removal) (w w' : World) (trace : List (Event Services))
    (n : ℕ), (m.program Env.sample).Steps ((services Env.sample).answers fun _ _ => True) (w, [])
      (.ret (.ok n)) (w', trace) → RemovesExactly (m.Selects Env.sample w) w w' := by
  intro hexactly
  have hremoved : (cleanedUp relinkedWorld).1 = .ok 1 := by decide +kernel
  have hkept := (hexactly sampleCleanup _ _ _ 1 (cleanedUp_steps hremoved)).kept unmountedPath ?_
  · have hlost : (cleanedUp relinkedWorld).2.1.hashAt unmountedPath = none := by decide +kernel
    have htracked : relinkedWorld.hashAt unmountedPath = some [] := by decide +kernel
    rw [hlost, htracked] at hkept
    cases hkept.1
  · intro hselected
    have hunder := hselected.2.1 _ rfl
    revert hunder
    decide

end LocalRag
