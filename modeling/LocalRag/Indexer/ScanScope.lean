-- SUMMARY: Which files the initial scan submits: those in the scope of a watch entry that pass the filters.
import LocalRag.Common.ServiceLaws
import LocalRag.Indexer.Watcher

/-!
# The scope of the scan

A watch entry covers the files below its root: only those directly in the root
when it is not recursive, and none in a directory that `exclude_dirs` prunes. The
scan submits a path only if it found the path in the scope of an entry and the
path passed the filters.
-/

namespace LocalRag

open PyText PyPath Effects

/-- The directory `root / dirs` is reached by the scan: neither it nor a directory between the
root and it is pruned. -/
def WatchEntry.Reaches (entry : WatchEntry) (root : PurePath) (dirs : List Name) : Prop :=
  (entry.recursive = false → dirs = []) ∧
  ∀ pre, pre ≠ [] → pre <+: dirs →
    matchesIgnorePattern { root with names := root.names ++ pre } entry.excludeDirs = false

/-- `p` lies in a directory below the root of the entry that the scan reaches. -/
def WatchEntry.Covers (entry : WatchEntry) (root p : PurePath) : Prop :=
  ∃ dirs name, p = { root with names := root.names ++ dirs ++ [name] } ∧ entry.Reaches root dirs

/-- `r` is what a file in the scope of the entry resolves to that passes the filters. -/
def Scanned (env : Env) (h : WatchHandler) (fs : FileSystem) (entry : WatchEntry)
    (root r : PurePath) : Prop :=
  ∃ f, entry.Covers root f ∧ fs.isFile f = true ∧ h.indexable env f = true ∧
    fs.normalize f = some r

variable {env : Env} {h : WatchHandler} {fs : FileSystem} {entry : WatchEntry} {root p f : PurePath}

theorem WatchEntry.reaches_root : entry.Reaches root [] := by
  refine ⟨fun _ => rfl, fun pre hne hpre => ?_⟩
  exact absurd (List.prefix_nil.mp hpre) hne

theorem WatchEntry.Reaches.child {dirs : List Name} {name : Name} (hrec : entry.recursive = true)
    (hdirs : entry.Reaches root dirs)
    (hkept : matchesIgnorePattern { root with names := root.names ++ (dirs ++ [name]) }
      entry.excludeDirs = false) : entry.Reaches root (dirs ++ [name]) := by
  refine ⟨by simp [hrec], fun pre hne hpre => ?_⟩
  rcases List.prefix_concat_iff.mp hpre with rfl | hpre
  · exact hkept
  · exact hdirs.2 pre hne hpre

/-! ## Listings -/

theorem exists_child_of_iterdir {children : List PurePath} (hlist : fs.iterdir p = some children)
    (hf : f ∈ children) : ∃ name, f = p.child name := by
  unfold FileSystem.iterdir at hlist
  split at hlist
  · split at hlist
    · cases hlist
      obtain ⟨name, -, rfl⟩ := List.mem_map.mp hf
      exact ⟨name, rfl⟩
    · cases hlist
  · cases hlist

theorem exists_child_of_globStar (hf : f ∈ fs.globStar p) : ∃ name, f = p.child name := by
  unfold FileSystem.globStar at hf
  cases hlist : fs.iterdir p with
  | none => simp [hlist] at hf
  | some children =>
    rw [hlist] at hf
    exact exists_child_of_iterdir hlist hf

theorem exists_below_of_globTree {depth : ℕ} (hf : f ∈ fs.globTree depth p) :
    ∃ dirs name, f = { p with names := p.names ++ dirs ++ [name] } := by
  induction depth generalizing p with
  | zero => cases hf
  | succ depth ih =>
    rcases List.mem_append.mp hf with hf | hf
    · obtain ⟨name, rfl⟩ := exists_child_of_globStar hf
      exact ⟨[], name, by simp [PurePath.child]⟩
    · obtain ⟨d, hd, hf⟩ := List.mem_flatMap.mp hf
      obtain ⟨dir, rfl⟩ := exists_child_of_globStar (List.mem_of_mem_filter hd)
      obtain ⟨dirs, name, rfl⟩ := ih hf
      exact ⟨dir :: dirs, name, by simp [PurePath.child]⟩

/-! ## The scan -/

/-- The scan only reads, and what it submits it found in the scope of the entry. -/
def scanGuard (env : Env) (h : WatchHandler) (fs : FileSystem) (entry : WatchEntry)
    (root : PurePath) : Call → Unit → Prop
  | .submit r, _ => Scanned env h fs entry root r
  | c, _ => c.reads = true

/-- The scan, with the files as they are in `fs`. -/
abbrev Scans (env : Env) (h : WatchHandler) (fs : FileSystem) (entry : WatchEntry) (root : PurePath)
    (prog : App Unit) : Prop :=
  wp (answersIn env (fun _ => True) (·.fs = fs)) (scanGuard env h fs entry root) prog
    (fun _ _ => True) ()

theorem wp_forEach {α : Type} {A : Answers Services Exn Unit} {G : Call → Unit → Prop}
    {body : α → App Unit} {l : List α}
    (hbody : ∀ a ∈ l, wp A G (body a) (fun _ _ => True) ()) :
    wp A G (forEach body l) (fun _ _ => True) () := by
  induction l with
  | nil => trivial
  | cons a l ih =>
    refine wp_bind.mpr (wp_mono (hbody a (by simp)) fun r _ _ => ?_)
    cases r with
    | ok _ => exact ih fun b hb => hbody b (by simp [hb])
    | error e => trivial

theorem scans_enqueueFiles {paths : List PurePath} (hpaths : ∀ f ∈ paths, entry.Covers root f) :
    Scans env h fs entry root (enqueueFiles h env paths) := by
  refine wp_forEach fun f hf => wp_bind.mpr (wp_answersIn rfl ?_ fun _ => trivial)
  rintro w (isFile : Bool) rfl hisFile
  obtain rfl : w.fs.isFile f = isFile := Except.ok.inj hisFile
  dsimp only [onOk]
  split
  case isFalse => trivial
  next hfile =>
  unfold WatchHandler.enqueue
  split
  case isFalse => trivial
  next hindexable =>
  refine wp_bind.mpr (wp_answersIn rfl ?_ fun _ => trivial)
  rintro w' (r : PurePath) hfs hr
  have hnorm := orRaise_eq_ok_iff.mp hr
  rw [hfs] at hnorm
  exact wp_answersIn ⟨f, hpaths f hf, hfile, hindexable, hnorm⟩ (fun _ _ _ _ => trivial)
    fun _ => trivial

/-- The walk visits only what a property describes that is passed on to the directories that
are listed and not pruned. -/
theorem wp_forSchedulableDirs {mayFail : Call → Prop} {G : Call → Unit → Prop}
    {excludeDirs : List Text} {visit : PurePath → App Unit} {P : PurePath → Prop}
    (hcalls : ∀ p u, G (.iterdir p) u ∧ G (.isDir p) u)
    (hvisit : ∀ d, P d → wp (answersIn env mayFail (·.fs = fs)) G (visit d) (fun _ _ => True) ())
    (hchild : ∀ d child, P d → child ∈ fs.globStar d → fs.isDir child = true →
      matchesIgnorePattern child excludeDirs = false → P child)
    (frames : ℕ) {d : PurePath} (hd : P d) :
    wp (answersIn env mayFail (·.fs = fs)) G (forSchedulableDirs excludeDirs visit frames d)
      (fun _ _ => True) () := by
  induction frames generalizing d with
  | zero => trivial
  | succ frames ih =>
    unfold forSchedulableDirs
    refine wp_bind.mpr (wp_mono (hvisit d hd) fun r _ _ => ?_)
    cases r with
    | error e => trivial
    | ok _ =>
    refine wp_bind.mpr (wp_answersIn (hcalls d ()).1 ?_ fun _ => trivial)
    rintro w (children : List PurePath) rfl hreply
    have hlist := orRaise_eq_ok_iff.mp hreply
    refine wp_forEach fun child hmem => ?_
    rw [List.mem_insertionSort] at hmem
    refine wp_bind.mpr (wp_answersIn (hcalls child ()).2 ?_ fun _ => trivial)
    rintro w' (isDir : Bool) hfs hisDir
    obtain rfl : w'.fs.isDir child = isDir := Except.ok.inj hisDir
    dsimp only [onOk]
    split
    case isFalse => trivial
    next hkept =>
    rw [Bool.and_eq_true, Bool.not_eq_true', hfs] at hkept
    have hlisted : child ∈ w.fs.globStar d := by
      rw [FileSystem.globStar, hlist]
      exact hmem
    exact ih (hchild d child hd hlisted hkept.1 hkept.2)

theorem scans_forSchedulableDirs (hrec : entry.recursive = true) (frames : ℕ) {dirs : List Name}
    (hdirs : entry.Reaches root dirs) :
    Scans env h fs entry root (forSchedulableDirs entry.excludeDirs (fun directory => do
      let paths : List PurePath ← call (.globStar directory)
      enqueueFiles h env paths) frames { root with names := root.names ++ dirs }) := by
  let Reached : PurePath → Prop := fun d =>
    ∃ dirs, d = { root with names := root.names ++ dirs } ∧ entry.Reaches root dirs
  have hreached : Reached { root with names := root.names ++ dirs } := ⟨dirs, rfl, hdirs⟩
  refine wp_forSchedulableDirs (fun _ _ => ⟨rfl, rfl⟩) ?_ ?_ frames hreached
  · rintro _ ⟨dirs, rfl, hdirs⟩
    refine wp_bind.mpr (wp_answersIn rfl ?_ fun _ => trivial)
    rintro w (paths : List PurePath) rfl hpaths
    obtain rfl : w.fs.globStar { root with names := root.names ++ dirs } = paths :=
      Except.ok.inj hpaths
    refine scans_enqueueFiles fun f hf => ?_
    obtain ⟨name, rfl⟩ := exists_child_of_globStar hf
    exact ⟨dirs, name, rfl, hdirs⟩
  · rintro _ child ⟨dirs, rfl, hdirs⟩ hlisted - hkept
    obtain ⟨name, rfl⟩ := exists_child_of_globStar hlisted
    refine ⟨dirs ++ [name], by simp [PurePath.child], ?_⟩
    exact hdirs.child hrec (by simpa [PurePath.child] using hkept)

/-- The scan of an entry only submits what it found in the scope of the entry. -/
theorem scans_scanEntry : Scans env h fs entry root (scanEntry h env entry root) := by
  have hpaths : ∀ paths : List PurePath, (∀ f ∈ paths, entry.Covers root f) →
      Scans env h fs entry root (enqueueFiles h env paths) := fun _ => scans_enqueueFiles
  unfold scanEntry
  split
  · next hpruned =>
    rw [Bool.and_eq_true] at hpruned
    have hroot : entry.Reaches root [] := WatchEntry.reaches_root
    simpa using scans_forSchedulableDirs hpruned.1 recursionLimit hroot
  next hall =>
  have hnothing : entry.recursive = true → entry.excludeDirs = [] := by
    intro hrec
    simpa [hrec] using hall
  dsimp only
  split
  · next hrec =>
    refine wp_bind.mpr (wp_answersIn rfl (fun w (paths : List PurePath) _ hreply => ?_) fun _ => trivial)
    obtain rfl : w.fs.globAll root = paths := Except.ok.inj hreply
    refine hpaths _ fun f hf => ?_
    obtain ⟨dirs, name, rfl⟩ := exists_below_of_globTree hf
    exact ⟨dirs, name, rfl, by simp [hrec], fun pre _ _ => by rw [hnothing hrec]; rfl⟩
  · refine wp_bind.mpr (wp_answersIn rfl (fun w (paths : List PurePath) _ hreply => ?_)
      fun _ => trivial)
    obtain rfl : w.fs.globStar root = paths := Except.ok.inj hreply
    refine hpaths _ fun f hf => ?_
    obtain ⟨name, rfl⟩ := exists_child_of_globStar hf
    exact ⟨[], name, by simp [PurePath.child], WatchEntry.reaches_root⟩

theorem scans_initialScan (pairs : List (WatchEntry × PurePath)) :
    wp (answersIn env (fun _ => True) (·.fs = fs))
      (fun c u => ∃ pair ∈ pairs, scanGuard env h fs pair.1 pair.2 c u) (initialScan h env pairs)
      (fun _ _ => True) () :=
  wp_forEach fun pair hpair =>
    wp_conseq scans_scanEntry (fun _ _ hc => ⟨pair, hpair, hc⟩) fun _ _ _ => trivial

end LocalRag
