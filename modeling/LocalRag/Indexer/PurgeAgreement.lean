-- SUMMARY: Exactly when the paths that purge_ignored leaves under the watch roots are paths that the watcher would scan.
import LocalRag.Indexer.Removal

/-!
# Agreement of purge and watcher

`purge_ignored` removes the tracked paths under the accessible watch roots that do
not pass the extension and ignore filters. The scan also leaves out what lies
outside the scope of every watch entry, which the purge does not look at.
-/

namespace LocalRag

open PyText PyPath Effects Sql

/-! ## Scope of a configuration -/

namespace WatcherConfig

variable (config : WatcherConfig) (env : Env) (fs : FileSystem) (p : PurePath)

/-- The path lies in the scope of an accessible watch entry. -/
def InScope : Prop := ∃ entry ∈ config.watchPaths, ∃ root ∈ entry.root fs, entry.Covers root p

/-- The watcher scans the path: it passes the filters and lies in the scope of an entry. -/
def Scans : Prop := config.accepts env p = true ∧ config.InScope fs p

end WatcherConfig

/-- The tracked paths under the watch roots are paths the watcher scans. -/
def AgreesWithWatcher (env : Env) (config : WatcherConfig) (w : World) : Prop :=
  ∀ p, w.Tracks p → config.UnderRoot w.fs p → config.Scans env w.fs p

/-- A tracked path under a watch root fails the filters and resolves to `p`. -/
def Purged (env : Env) (config : WatcherConfig) (w : World) (p : PurePath) : Prop :=
  ∃ q, w.Tracks q ∧ config.UnderRoot w.fs q ∧ config.accepts env q = false ∧
    w.fs.normalize q = some p

variable {env : Env} {config : WatcherConfig} {w w' : World} {p q : PurePath} {α β : Type}

/-! ## The purge -/

/-- A purge that completes removes what rejected paths resolve to. -/
theorem returns_purgeIgnored :
    Returns env (purgeIgnored env config true) w fun _ w' => w'.fs = w.fs ∧
      ∀ p, w'.Tracks p ↔ w.Tracks p ∧ ¬ Purged env config w p := by
  refine (Removal.returns_program (.purgeIgnored config)).mono fun _ w' hremoves => ?_
  have hpurged : ∀ p, (∃ q, (Removal.purgeIgnored config).Selects env w q ∧ w.fs.normalize q = some p) ↔
      Purged env config w p := by
    intro p
    simp only [Removal.Selects, Purged, and_assoc]
  refine ⟨hremoves.fs, fun p => ?_⟩
  rw [hremoves.exactly.tracks, hpurged]

/-! ## Agreement -/

/-- A tracked path under a watch root that the purge leaves and the watcher does not scan. -/
inductive Overlooked (env : Env) (config : WatcherConfig) (w : World) (p : PurePath) : Prop where
  /-- It passes the filters, but lies in a pruned directory or below a root that is not recursive. -/
  | outOfScope (htracked : w.Tracks p) (hroot : config.UnderRoot w.fs p)
    (haccepted : config.accepts env p = true) (hscope : ¬ config.InScope w.fs p)
    (hkept : ¬ Purged env config w p)
  /-- It fails the filters, but neither it nor another such path resolves to it any more. -/
  | resolvesElsewhere (htracked : w.Tracks p) (hroot : config.UnderRoot w.fs p)
    (hrejected : config.accepts env p = false) (hkept : ¬ Purged env config w p)

/-- After every purge that completes, purge and watcher agree. -/
def PurgeAgrees (env : Env) : Prop :=
  ∀ config w w' trace n, (purgeIgnored env config true).Steps
    ((services env).answers fun _ _ => True) (w, []) (.ret (.ok n)) (w', trace) →
    AgreesWithWatcher env config w'

/-- After a purge that completes, purge and watcher agree exactly when no path was overlooked. -/
theorem purgeIgnored_agrees_iff (env : Env) (config : WatcherConfig) (w w' : World)
    (trace : List (Event Services)) (n : ℕ)
    (hrun : (purgeIgnored env config true).Steps ((services env).answers fun _ _ => True) (w, [])
      (.ret (.ok n)) (w', trace)) :
    AgreesWithWatcher env config w' ↔ ∀ p, ¬ Overlooked env config w p := by
  obtain ⟨hfs, htracks⟩ := wp_steps_post (returns_purgeIgnored []) hrun n rfl
  constructor
  · rintro hagrees p (⟨htracked, hroot, -, hscope, hkept⟩ | ⟨htracked, hroot, hrejected, hkept⟩)
    · exact hscope (hfs ▸ (hagrees p ((htracks p).mpr ⟨htracked, hkept⟩) (hfs ▸ hroot)).2)
    · have haccepted := (hagrees p ((htracks p).mpr ⟨htracked, hkept⟩) (hfs ▸ hroot)).1
      simp [hrejected] at haccepted
  · intro hnone p htracked hroot
    obtain ⟨htracked, hkept⟩ := (htracks p).mp htracked
    rw [hfs] at hroot ⊢
    cases haccepted : config.accepts env p with
    | false => exact (hnone p (.resolvesElsewhere htracked hroot haccepted hkept)).elim
    | true =>
      refine ⟨haccepted, ?_⟩
      by_contra hscope
      exact hnone p (.outOfScope htracked hroot haccepted hscope hkept)

/-! ## Examples -/

/-- The watch root of the examples. -/
def sampleEntry : WatchEntry := { path := PurePath.parse "/w".toList, excludeDirs := ["keys".toList] }

/-- A configuration that keeps a directory out. -/
def sampleConfig : WatcherConfig where
  watchPaths := [sampleEntry]
  allowedExtensions := some [".txt".toList]

/-- A world where two files are tracked. -/
def trackedWorld (first second : PurePath) : World :=
  { World.sample [(first.names, ⟨[104], 1, 1⟩), (second.names, ⟨[105], 2, 1⟩)]
      [["w".toList], ["w".toList, "keys".toList]] with
    collection := some ⟨[(denseVector, ⟨1, .cosine⟩)], [(sparseVector, .idf)], [], []⟩
    fingerprints := some ((Table.empty.upsert ⟨first, []⟩).upsert ⟨second, []⟩) }

/-- The number of purged paths, and the world after a purge without failures. -/
def afterPurge (w : World) : Except Exn ℕ × World × List (Event Services) :=
  (purgeIgnored Env.sample sampleConfig true).run (services Env.sample) (fun _ _ => True) [] (w, [])

theorem afterPurge_steps (w : World) : (purgeIgnored Env.sample sampleConfig true).Steps
    ((services Env.sample).answers fun _ _ => True) (w, []) (.ret (afterPurge w).1)
    (afterPurge w).2 :=
  Prog.run_steps (services Env.sample) (fun _ _ => True) _ [] (w, [])

theorem afterPurge_fs (w : World) : (afterPurge w).2.1.fs = w.fs := steps_fs (afterPurge_steps w)

theorem sampleEntry_root (first second : PurePath) :
    sampleEntry.root (trackedWorld first second).fs = some ⟨true, ["w".toList]⟩ := by
  have hfound : (trackedWorld first second).fs.pathExists (PurePath.parse "/w".toList) = true := by
    rw [FileSystem.pathExists, Bool.or_eq_true]
    exact .inr rfl
  have hexp : (trackedWorld first second).fs.expanduser sampleEntry.path =
    some (PurePath.parse "/w".toList) := rfl
  rw [WatchEntry.root, hexp, Option.bind_some, if_pos hfound]
  rfl

theorem tracked_of_trackedWorld {first second p : PurePath}
    (h : (trackedWorld first second).Tracks p) : p = first ∨ p = second :=
  tracks_two rfl h

def rejectedPath : PurePath := PurePath.parse "/w/a.key".toList

/-- A file that fails the filters is purged, and one that is scanned stays. -/
theorem purgeIgnored_agrees_iff_sample :
    (afterPurge (trackedWorld samplePath rejectedPath)).1 = .ok 1 ∧
      AgreesWithWatcher Env.sample sampleConfig
        (afterPurge (trackedWorld samplePath rejectedPath)).2.1 := by
  have hrun := afterPurge_steps (trackedWorld samplePath rejectedPath)
  have hok : (afterPurge (trackedWorld samplePath rejectedPath)).1 = .ok 1 := by decide +kernel
  rw [hok] at hrun
  refine ⟨hok, (purgeIgnored_agrees_iff Env.sample sampleConfig _ _ _ 1 hrun).mpr ?_⟩
  rintro p (⟨htracked, -, haccepted, hscope, -⟩ | ⟨htracked, hroot, hrejected, hkept⟩)
  · rcases tracked_of_trackedWorld htracked with rfl | rfl
    · exact hscope ⟨sampleEntry, by simp [sampleConfig], _, sampleEntry_root _ _, [], "a.txt".toList,
        by decide, WatchEntry.reaches_root⟩
    · revert haccepted
      decide
  · rcases tracked_of_trackedWorld htracked with rfl | rfl
    · revert hrejected
      decide
    · exact hkept ⟨rejectedPath, htracked, hroot, hrejected, by decide⟩

def keyPath : PurePath := PurePath.parse "/w/keys/a.txt".toList

theorem keyPath_not_covered : ¬ sampleEntry.Covers ⟨true, ["w".toList]⟩ keyPath := by
  rintro ⟨dirs, name, hpath, hreaches⟩
  have hnames : ["keys".toList] ++ ["a.txt".toList] = dirs ++ [name] :=
    List.tail_eq_of_cons_eq (congrArg PurePath.names hpath)
  obtain ⟨rfl, -⟩ := List.append_inj' hnames rfl
  have hkept := hreaches.2 ["keys".toList] (by simp) List.prefix_rfl
  revert hkept
  decide

/-- A file in a pruned directory that was indexed before stays in the index. -/
theorem purgeIgnored_disagrees : ¬ PurgeAgrees Env.sample := by
  intro hagrees
  have hrun := afterPurge_steps (trackedWorld samplePath keyPath)
  have hok : (afterPurge (trackedWorld samplePath keyPath)).1 = .ok 0 := by decide +kernel
  have htracked : (afterPurge (trackedWorld samplePath keyPath)).2.1.Tracks keyPath := by
    unfold World.Tracks
    decide +kernel
  rw [hok] at hrun
  have hagree : AgreesWithWatcher Env.sample sampleConfig
      (afterPurge (trackedWorld samplePath keyPath)).2.1 := hagrees sampleConfig _ _ _ 0 hrun
  have hscans := hagree keyPath htracked
  rw [afterPurge_fs] at hscans
  obtain ⟨-, entry, hentry, root, hroot, hcovers⟩ :=
    hscans ⟨sampleEntry, by simp [sampleConfig], _, sampleEntry_root _ _, by decide⟩
  obtain rfl : entry = sampleEntry := by simpa [sampleConfig] using hentry
  obtain rfl := Option.some_inj.mp ((sampleEntry_root _ _).symm.trans hroot)
  exact keyPath_not_covered hcovers

end LocalRag
