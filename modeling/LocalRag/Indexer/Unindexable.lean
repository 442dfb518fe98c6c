-- SUMMARY: When a file that has become unindexable disappears from the index: runs of jobs and deletions with failing calls.
import LocalRag.Indexer.Removal

/-!
# Files that become unindexable

A job that skips a file removes what is stored for it if the file has a fingerprint. After
a failure between the points and the first fingerprint of a path there are points that
the job does not look for.
-/

namespace LocalRag

open PyText PyPath Effects Sql

/-! ## Runs -/

/-- Whole jobs of the worker and deletion events, one after the other, with changes to the contents
of the files in between; the watcher may be started again. -/
inductive JobRun (env : Env) (mayFail : Call → World → Prop) : World → Prop where
  | start {w : World} (hpoints : w.points = []) (hhashes : ∀ p, w.hashAt p = none) :
    JobRun env mayFail w
  | edit {w : World} (fs : FileSystem) (h : JobRun env mayFail w) (hlinks : w.fs.SameLinks fs) :
    JobRun env mayFail { w with fs }
  | restart {w : World} (h : JobRun env mayFail w) : JobRun env mayFail { w with ensured := false }
  | job {w w' : World} {p q : PurePath} {r : Except Exn IndexDecision} {trace : List (Event Services)}
    (h : JobRun env mayFail w) (hsubmitted : w.fs.normalize q = some p)
    (hrun : (indexIfChanged env p).Steps ((services env).answers mayFail) (w, []) (.ret r) (w', trace)) :
    JobRun env mayFail w'
  | deleted {w w' : World} {h : WatchHandler} {event : WatchHandler.FileEvent} {r : Except Exn Unit}
    {trace : List (Event Services)} (hw : JobRun env mayFail w)
    (hrun : (h.onDeleted env event).Steps ((services env).answers mayFail) (w, []) (.ret r) (w', trace)) :
    JobRun env mayFail w'

/-- Larger than `MAX_FILE_SIZE`, or without a chunk that is not blank. -/
def Unindexable (env : Env) (path : PurePath) (node : FileNode) : Prop :=
  Settings.maxFileSize < node.bytes.length ∨ documentChunks env path (env.decode node.bytes) = []

/-- Where a job finds an unindexable file and skips it, nothing stays behind. -/
def SkippedDisappears (env : Env) (mayFail : Call → World → Prop) : Prop :=
  ∀ w, JobRun env mayFail w → ∀ p q node s, w.fs.normalize q = some p → w.fs.fileAt p = some node →
    Unindexable env p node →
    (indexIfChanged env p).Steps ((services env).answers mayFail) (w, []) (.ret (.ok .skipped)) s →
    s.1.pointsAt p = [] ∧ s.1.hashAt p = none

variable {env : Env} {w w₀ : World} {s : Traced} {p : PurePath}

/-! ## Skipping -/

/-- Where the fingerprints account for the points, a job that skips a path leaves nothing of it. -/
theorem indexChanged_skipped (h : Accounted w₀) (hreal : w₀.fs.Real p) (hidle : Idle w₀ 0 s) :
    wp ((services env).answers fun _ _ => True) (fun _ _ => True) (indexChanged env p)
      (fun r s' => r = .ok .skipped → s'.1.pointsAt p = [] ∧ s'.1.hashAt p = none) s := by
  unfold indexChanged sha256File
  refine wp_bind.mpr (wp_bind.mpr (wp_reads rfl hidle trivial (fun (bytes : Bytes) s₁ h₁ _ => ?_)
    fun _ _ _ hskipped => by cases hskipped))
  refine wp_bind.mpr (wp_getHash h₁ (fun _ _ _ => trivial) (fun r s₃ h₃ hnorm _ => ?_)
    fun _ _ _ hskipped => by cases hskipped)
  rw [w₀.fs.normalize_of_real hreal] at hnorm
  obtain rfl : p = r := Option.some_inj.mp hnorm
  dsimp only [onOk]
  split
  · exact fun hskipped => by cases hskipped
  refine wp_bind.mpr (wp_conseq (indexFile_spec h.drawn h₃ p) (fun _ _ _ => trivial) fun r s₄ h₄ => ?_)
  -- every end but SKIPPED reports something else
  cases r with
  | error e => exact fun hskipped => by cases hskipped
  | ok outcome =>
    cases outcome with
    | missing => exact fun hskipped => by cases hskipped
    | unchanged => exact fun hskipped => by cases hskipped
    | failed => exact fun hskipped => by cases hskipped
    | indexed =>
      refine wp_bind.mpr (wp_mono (wp_true _) fun r s₅ _ => ?_)
      cases r <;> exact fun hskipped => by cases hskipped
    | skipped =>
      obtain ⟨n, h₄⟩ := h₄
      dsimp only [onOk]
      split
      · refine wp_bind.mpr (wp_mono (returns_removeIndexedDocument s₄.2) fun r s₅ h₅ => ?_)
        cases r with
        | error e => exact fun hskipped => by cases hskipped
        | ok _ =>
          refine fun _ => ((h₅ () rfl).exactly.removed p ⟨p, rfl, ?_⟩).symm
          exact h₄.fs ▸ w₀.fs.normalize_of_real hreal
      · next huntracked =>
        -- nothing is removed, and without a fingerprint there is nothing to remove
        intro _
        have hnone : w₀.hashAt p = none := by simpa using huntracked
        refine ⟨pointsAt_eq_nil_iff.mpr fun pt hpt heq => ?_, ?_⟩
        · have htracks := h.tracks pt (h₄.points ▸ hpt)
          rw [heq, World.Tracks, hnone] at htracks
          cases htracks
        · rw [World.hashAt, h₄.fingerprints]
          exact hnone

theorem indexIfChanged_skipped (h : Accounted w) (hreal : w.fs.Real p) :
    wp ((services env).answers fun _ _ => True) (fun _ _ => True) (indexIfChanged env p)
      (fun r s' => r = .ok .skipped → s'.1.pointsAt p = [] ∧ s'.1.hashAt p = none) (w, []) := by
  unfold indexIfChanged
  refine wp_bind.mpr (wp_reads rfl (.start w) trivial (fun (found : Bool) s₁ h₁ _ => ?_)
    fun _ _ _ => nofun)
  dsimp only [onOk]
  split
  · refine wp_tryCatch.mpr (wp_mono (indexChanged_skipped h hreal h₁) fun r s₂ h₂ => ?_)
    cases r with
    | ok outcome => exact h₂
    | error e => exact nofun
  · exact nofun

/-- In every run the fingerprints account for the points, as long as nothing fails between the points
and the fingerprint of a path that has none. -/
theorem JobRun.accounted (h : JobRun env failsSafely w) : Accounted w := by
  induction h with
  | start hpoints => exact .of_points_nil hpoints
  | edit fs _ hlinks ih => exact ⟨ih.drawn, fun pt hpt => hlinks.real.mpr (ih.real pt hpt), ih.tracks⟩
  | restart _ ih => exact ⟨ih.drawn, ih.real, ih.tracks⟩
  | job _ _ hrun ih => exact wp_steps_post (indexIfChanged_accounted ih _) hrun
  | deleted _ hrun ih => exact wp_steps_post (Keeps.onDeleted accounted_storeInvariant _ _ (_, []) ih) hrun

/-- As long as no failure leaves new points of a path without a fingerprint, skipped files disappear. -/
theorem skipped_disappears (env : Env) : SkippedDisappears env failsSafely := by
  intro w hrun p q node s hq _ _ hjob
  have hreal : w.fs.Real p := w.fs.real_of_normalize hq
  have hanswers := hjob.mono (Machine.answers_mono fun _ _ _ => trivial)
  exact wp_steps_post (indexIfChanged_skipped hrun.accounted hreal) hanswers rfl

/-! ## Examples -/

/-- A job on the sample file, where remote calls fail at the flags. -/
def sampleJob (flags : List Bool) (w : World) : Except Exn IndexDecision × Traced :=
  (indexIfChanged Env.sample samplePath).run (services Env.sample) (fun c _ => c.remote = true) flags (w, [])

theorem sampleJob_steps (flags : List Bool) (w : World) : (indexIfChanged Env.sample samplePath).Steps
    ((services Env.sample).answers fun c _ => c.remote = true) (w, []) (.ret (sampleJob flags w).1)
      (sampleJob flags w).2 :=
  Prog.run_steps (services Env.sample) (fun c _ => c.remote = true) _ flags _

/-- The stale vectors of the new file were not deleted, and then the file was emptied. -/
def emptiedWorld : World :=
  { (sampleJob (List.replicate 17 false ++ [true]) (sampleWorld [104, 105])).2.1 with
    fs := (sampleWorld []).fs }

theorem run_emptiedWorld : JobRun Env.sample (fun c _ => c.remote = true) emptiedWorld := by
  have hnorm : (sampleWorld [104, 105]).fs.normalize samplePath = some samplePath :=
    FileSystem.normalize_of_real (sampleWorld_real _)
  have hsteps := sampleJob_steps (List.replicate 17 false ++ [true]) (sampleWorld [104, 105])
  refine .edit _ (.job (.start rfl fun _ => rfl) hnorm hsteps) ?_
  rw [steps_fs hsteps]
  exact ⟨rfl, rfl, rfl⟩

/-- The emptied file is skipped, and its points stay. -/
theorem skipped_stays : ¬ SkippedDisappears Env.sample fun c _ => c.remote = true := by
  intro hdisappears
  have hstays : ∀ w r (s : Traced), w.fs = (sampleWorld []).fs → JobRun Env.sample (fun c _ => c.remote = true) w →
      r = .ok .skipped → (s.1.pointsAt samplePath).length = 1 →
      ¬ (indexIfChanged Env.sample samplePath).Steps
        ((services Env.sample).answers fun c _ => c.remote = true) (w, []) (.ret r) s := by
    rintro w _ s hfs hrun rfl hpoints hsteps
    have hnorm : w.fs.normalize samplePath = some samplePath :=
      hfs ▸ FileSystem.normalize_of_real (sampleWorld_real _)
    have hfile : w.fs.fileAt samplePath = some ⟨[], 1, 1⟩ := by
      rw [hfs]
      decide +kernel
    have hnone := (hdisappears w hrun _ _ _ s hnorm hfile (.inr (by decide +kernel)) hsteps).1
    rw [hnone] at hpoints
    cases hpoints
  exact hstays emptiedWorld _ _ rfl run_emptiedWorld (by decide +kernel) (by decide +kernel)
    (sampleJob_steps [] emptiedWorld)

end LocalRag
