-- SUMMARY: When the directories that the observer watches are those that a scan would look into: files and directories created after startup.
import LocalRag.Indexer.Handlers
import LocalRag.Indexer.ScanScope

/-!
# The scope of the observer

The observer watches the directories that `main` scheduled at startup; a scan walks the
tree as it is. Below a recursive entry without `exclude_dirs` both are everything
below the root. With `exclude_dirs` `main` schedules one directory after the other,
and a directory that comes later is walked by the scan only.
-/

namespace LocalRag

open PyText PyPath Effects

/-! ## What is watched and what is scanned -/

/-- A change of the file is reported: it lies in the directory, or anywhere below it. -/
def Watch.Reports (watch : Watch) (f : PurePath) : Prop :=
  if watch.recursive then
    ∃ dirs name, f = { watch.path with names := watch.path.names ++ dirs ++ [name] }
  else ∃ name, f = watch.path.child name

/-- `e` is `d` or a directory below it that is reached without entering a pruned one. -/
inductive InTree (fs : FileSystem) (excludeDirs : List Text) : PurePath → PurePath → Prop where
  | refl {d : PurePath} : InTree fs excludeDirs d d
  | child {d child e : PurePath} (hlisted : child ∈ fs.globStar d) (hdir : fs.isDir child = true)
    (hkept : matchesIgnorePattern child excludeDirs = false) (h : InTree fs excludeDirs child e) :
    InTree fs excludeDirs d e

/-- The scan comes to the file and passes it to `enqueue`, and it passes the filters there. -/
structure Enqueues (env : Env) (h : WatchHandler) (fs : FileSystem) (trace : List (Event Services))
    (f : PurePath) : Prop where
  comes : ∃ e ∈ trace, e.call = Call.isFile f
  isFile : fs.isFile f = true
  indexable : h.indexable env f = true

/-- A directory or a file is created. -/
inductive Creates : FileSystem → FileSystem → Prop where
  | file {fs : FileSystem} {loc : Loc} (node : FileNode) (hnew : fs.files.lookup loc = none) :
    Creates fs (fs.write loc node)
  | directory {fs : FileSystem} (loc : Loc) : Creates fs (fs.mkdir loc)

/-- Wherever directories and files are created after startup, every file that a scan of an entry
enqueues is one whose changes are reported. `allowed` restricts the steps, with the entry, its root
and the tree at startup. -/
def WatchingCovers (env : Env) (h : WatchHandler)
    (allowed : WatchEntry → PurePath → FileSystem → FileSystem → FileSystem → Prop) : Prop :=
  ∀ pairs watches w₀ s₀, (scheduleWatches pairs).Steps ((services env).answers fun _ _ => True)
    (w₀, []) (.ret (.ok watches)) s₀ →
  ∀ pair ∈ pairs, ∀ fs, Relation.ReflTransGen
    (fun fs₁ fs₂ => Creates fs₁ fs₂ ∧ allowed pair.1 pair.2 w₀.fs fs₁ fs₂) w₀.fs fs →
  ∀ w rest s, w.fs = fs → (initialScan h env [pair]).Steps ((services env).answers fun _ _ => True)
    (w, []) rest s →
  ∀ f, Enqueues env h fs s.2 f → ∃ watch ∈ watches, watch.Reports f

/-- The scan of a pruned entry finds the file in `d`. -/
structure Wanted (env : Env) (h : WatchHandler) (fs : FileSystem) (entry : WatchEntry)
    (root d f : PurePath) : Prop where
  inTree : InTree fs entry.excludeDirs root d
  listed : f ∈ fs.globStar d
  isFile : fs.isFile f = true
  indexable : h.indexable env f = true

/-- Below a recursive entry with `exclude_dirs`, no file that passes the filters appears in a
directory that is not pruned and was not there at startup. -/
def StaysInOldDirs (env : Env) (h : WatchHandler) (entry : WatchEntry) (root : PurePath)
    (fs₀ fs₁ fs₂ : FileSystem) : Prop :=
  entry.recursive = true → entry.excludeDirs ≠ [] → ∀ d f, Wanted env h fs₂ entry root d f →
    Wanted env h fs₁ entry root d f ∨ InTree fs₀ entry.excludeDirs root d

variable {env : Env} {h : WatchHandler} {fs fs₀ : FileSystem} {entry : WatchEntry}
  {root d e f : PurePath} {excludeDirs : List Text} {mayFail : Call → Prop}

theorem InTree.trans (h : InTree fs excludeDirs root d) (h' : InTree fs excludeDirs d e) :
    InTree fs excludeDirs root e := by
  induction h with
  | refl => exact h'
  | child hlisted hdir hkept _ ih => exact .child hlisted hdir hkept (ih h')

/-! ## The scan -/

/-- What the scan of the entry comes to. -/
def ScanFinds (fs : FileSystem) (entry : WatchEntry) (root f : PurePath) : Prop :=
  if entry.recursive && !entry.excludeDirs.isEmpty then
    ∃ d, InTree fs entry.excludeDirs root d ∧ f ∈ fs.globStar d
  else if entry.recursive then f ∈ fs.globAll root else f ∈ fs.globStar root

/-- The scan asks only of what it finds whether it is a file. -/
def asksOfFound (fs : FileSystem) (entry : WatchEntry) (root : PurePath) : Call → Prop
  | .isFile f => ScanFinds fs entry root f
  | _ => True

theorem enqueueFiles_asks {paths : List PurePath} (hpaths : ∀ f ∈ paths, ScanFinds fs entry root f) :
    wp (answersIn env mayFail (·.fs = fs)) (fun c _ => asksOfFound fs entry root c)
      (enqueueFiles h env paths) (fun _ _ => True) () := by
  refine wp_forEach fun f hf => wp_bind.mpr (wp_answersIn (hpaths f hf) ?_ fun _ => trivial)
  rintro w (isFile : Bool) - -
  dsimp only [onOk]
  split
  case isFalse => trivial
  unfold WatchHandler.enqueue
  split
  case isFalse => trivial
  refine wp_bind.mpr (wp_answersIn trivial ?_ fun _ => trivial)
  rintro w' (r : PurePath) - -
  have hsubmit : asksOfFound fs entry root (.submit r) := trivial
  dsimp only [onOk]
  apply wp_answersIn hsubmit
  · intro _ _ _ _
    trivial
  · intro _
    trivial

theorem scanEntry_asks : wp (answersIn env mayFail (·.fs = fs))
    (fun c _ => asksOfFound fs entry root c) (scanEntry h env entry root) (fun _ _ => True) () := by
  unfold scanEntry
  split
  · next hpruned =>
    -- every directory that is visited is in the tree
    have hchild : ∀ d child, InTree fs entry.excludeDirs root d → child ∈ fs.globStar d →
        fs.isDir child = true → matchesIgnorePattern child entry.excludeDirs = false →
        InTree fs entry.excludeDirs root child :=
      fun d child hd hlisted hdir hkept => hd.trans (.child hlisted hdir hkept .refl)
    refine wp_forSchedulableDirs (fun _ _ => ⟨trivial, trivial⟩) (fun d hd => ?_) hchild _ .refl
    refine wp_bind.mpr (wp_answersIn trivial ?_ fun _ => trivial)
    rintro w (paths : List PurePath) rfl hreply
    obtain rfl : w.fs.globStar d = paths := Except.ok.inj hreply
    refine enqueueFiles_asks fun f hf => ?_
    rw [ScanFinds, if_pos hpruned]
    exact ⟨d, hd, hf⟩
  · next hall =>
    dsimp only
    split
    · next hrec =>
      refine wp_bind.mpr (wp_answersIn trivial ?_ fun _ => trivial)
      rintro w (paths : List PurePath) rfl hreply
      obtain rfl : w.fs.globAll root = paths := Except.ok.inj hreply
      refine enqueueFiles_asks fun f hf => ?_
      rwa [ScanFinds, if_neg hall, if_pos hrec]
    · next hrec =>
      refine wp_bind.mpr (wp_answersIn trivial ?_ fun _ => trivial)
      rintro w (paths : List PurePath) rfl hreply
      obtain rfl : w.fs.globStar root = paths := Except.ok.inj hreply
      refine enqueueFiles_asks fun f hf => ?_
      rwa [ScanFinds, if_neg hall, if_neg hrec]

/-- What a scan enqueues it found. -/
theorem Enqueues.scanFinds {w : World} {rest : App Unit} {s : Traced} {pair : WatchEntry × PurePath}
    (henqueues : Enqueues env h w.fs s.2 f)
    (hrun : (initialScan h env [pair]).Steps ((services env).answers fun _ _ => True) (w, []) rest s) :
    ScanFinds w.fs pair.1 pair.2 f := by
  have hscan : wp (answersIn env (fun _ => True) (·.fs = w.fs))
      (fun c _ => asksOfFound w.fs pair.1 pair.2 c) (initialScan h env [pair]) (fun _ _ => True) () :=
    wp_forEach fun p hp => List.mem_singleton.mp hp ▸ scanEntry_asks
  obtain ⟨e, he, hcall⟩ := henqueues.comes
  have hasked := mem_trace_of_wp (wp_of_answersIn (fun _ hw => hw) hscan) hrun e he
  rw [hcall] at hasked
  exact hasked

/-! ## The schedule -/

theorem wp_collect {α β : Type} {A : Answers Services Exn Unit} {G : Call → Unit → Prop}
    {body : α → App (List β)} {P : α → List β → Prop} {l : List α}
    (hbody : ∀ a ∈ l, wp A G (body a) (fun r _ => ∀ bs, r = .ok bs → P a bs) ()) :
    wp A G (collect body l)
      (fun r _ => ∀ bs, r = .ok bs → ∀ a ∈ l, ∃ part, P a part ∧ part ⊆ bs) () := by
  induction l with
  | nil => exact fun _ _ a ha => by cases ha
  | cons a l ih =>
    refine wp_bind.mpr (wp_mono (hbody a (by simp)) ?_)
    rintro (e | part) - hpart
    · exact nofun
    refine wp_bind.mpr (wp_mono (ih fun b hb => hbody b (by simp [hb])) ?_)
    rintro (e | more) - hmore
    · exact nofun
    rintro _ ⟨⟩ b hb
    rcases List.mem_cons.mp hb with rfl | hb
    · exact ⟨part, hpart part rfl, by simp⟩
    · obtain ⟨part', hP, hsub⟩ := hmore more rfl b hb
      exact ⟨part', hP, fun x hx => by simp [hsub hx]⟩

/-- Every directory of the tree is scheduled. -/
theorem iterSchedulableDirs_complete (frames : ℕ) (d : PurePath) :
    wp (answersIn env mayFail (·.fs = fs)) (fun _ _ => True) (iterSchedulableDirs excludeDirs frames d)
      (fun r _ => ∀ l, r = .ok l → ∀ e, InTree fs excludeDirs d e → e ∈ l) () := by
  induction frames generalizing d with
  | zero => exact nofun
  | succ frames ih =>
    unfold iterSchedulableDirs
    refine wp_bind.mpr (wp_answersIn trivial ?_ fun _ => nofun)
    rintro w (children : List PurePath) rfl hreply
    have hlist := orRaise_eq_ok_iff.mp hreply
    refine wp_bind.mpr (wp_mono (wp_collect (P := fun child part => w.fs.isDir child = true →
      matchesIgnorePattern child excludeDirs = false →
      ∀ e, InTree w.fs excludeDirs child e → e ∈ part) fun child _ => ?_) ?_)
    · refine wp_bind.mpr (wp_answersIn trivial ?_ fun _ => nofun)
      rintro w' (isDir : Bool) hfs hisDir
      obtain rfl : w'.fs.isDir child = isDir := Except.ok.inj hisDir
      rw [hfs]
      dsimp only [onOk]
      split
      · exact wp_mono (ih child) fun _ _ hall part hpart _ _ => hall part hpart
      · next hskip =>
        rintro _ ⟨⟩ hdir hkept
        simp [hdir, hkept] at hskip
    · rintro (e | below) - hbelow
      · exact nofun
      rintro _ ⟨⟩ e he
      cases he with
      | refl => exact List.mem_cons_self
      | @child _ child _ hlisted hdir hkept hin =>
        have hchild : child ∈ children := by
          rw [FileSystem.globStar, hlist] at hlisted
          exact hlisted
        obtain ⟨part, hpart, hsub⟩ := hbelow below rfl child ((List.mem_insertionSort _).mpr hchild)
        exact List.mem_cons_of_mem _ (hsub (hpart hdir hkept e hin))

/-- The watches of an entry: the directories of the tree, or the root. -/
def Scheduled (fs : FileSystem) (entry : WatchEntry) (root : PurePath) (watches : List Watch) : Prop :=
  if entry.recursive && !entry.excludeDirs.isEmpty then
    ∀ d, InTree fs entry.excludeDirs root d → ⟨d, false⟩ ∈ watches
  else ⟨root, entry.recursive⟩ ∈ watches

theorem Scheduled.mono {watches watches' : List Watch} (h : Scheduled fs entry root watches)
    (hsub : watches ⊆ watches') : Scheduled fs entry root watches' := by
  unfold Scheduled at h ⊢
  split at h
  · next hpruned =>
    rw [if_pos hpruned]
    exact fun d hd => hsub (h d hd)
  · next hall =>
    rw [if_neg hall]
    exact hsub h

theorem scheduleEntry_scheduled :
    wp (answersIn env mayFail (·.fs = fs)) (fun _ _ => True) (scheduleEntry entry root)
      (fun r _ => ∀ watches, r = .ok watches → Scheduled fs entry root watches) () := by
  unfold scheduleEntry
  rw [Bool.and_comm]
  split
  · next hpruned =>
    refine wp_bind.mpr (wp_mono (iterSchedulableDirs_complete recursionLimit root) ?_)
    rintro (e | dirs) - hdirs
    · exact nofun
    rintro _ ⟨⟩
    rw [Scheduled, if_pos hpruned]
    exact fun d hd => List.mem_map.mpr ⟨d, hdirs dirs rfl d hd, rfl⟩
  · next hall =>
    rintro _ ⟨⟩
    rw [Scheduled, if_neg hall]
    exact List.mem_singleton_self _

/-- Once `main` has scheduled all entries, each is. -/
theorem scheduleWatches_scheduled {pairs : List (WatchEntry × PurePath)} {watches : List Watch}
    {w₀ : World} {s₀ : Traced} (hrun : (scheduleWatches pairs).Steps
      ((services env).answers fun _ _ => True) (w₀, []) (.ret (.ok watches)) s₀) :
    ∀ pair ∈ pairs, Scheduled w₀.fs pair.1 pair.2 watches := by
  intro pair hpair
  have hschedule : wp (answersIn env (fun _ => True) (·.fs = w₀.fs)) (fun _ _ => True)
      (scheduleWatches pairs) (fun r _ => ∀ watches, r = .ok watches → ∀ pair ∈ pairs,
        ∃ part, Scheduled w₀.fs pair.1 pair.2 part ∧ part ⊆ watches) () :=
    wp_collect fun _ _ => scheduleEntry_scheduled
  have hall := wp_steps_post (wp_of_answersIn (s := (w₀, [])) (fun _ hw => hw) hschedule) hrun
  obtain ⟨part, hpart, hsub⟩ := hall watches rfl pair hpair
  exact hpart.mono hsub

/-! ## Coverage -/

/-- As long as files appear only in directories that were there at startup, those are the
directories in which a scan finds files. -/
theorem inTree_of_wanted (hgrow : Relation.ReflTransGen
    (fun fs₁ fs₂ => Creates fs₁ fs₂ ∧ StaysInOldDirs env h entry root fs₀ fs₁ fs₂) fs₀ fs)
    (hrec : entry.recursive = true) (hexclude : entry.excludeDirs ≠ [])
    (hwanted : Wanted env h fs entry root d f) : InTree fs₀ entry.excludeDirs root d := by
  induction hgrow with
  | refl => exact hwanted.inTree
  | tail _ hstep ih =>
    rcases hstep.2 hrec hexclude d f hwanted with hold | hin
    · exact ih hold
    · exact hin

/-- The watches of an entry report all that a scan of it finds, if the directories with files are
those of the startup. -/
theorem Scheduled.exists_reports {watches : List Watch} (hscheduled : Scheduled fs₀ entry root watches)
    (hfinds : ScanFinds fs entry root f) (hold : entry.recursive = true → entry.excludeDirs ≠ [] →
      ∀ d, InTree fs entry.excludeDirs root d → f ∈ fs.globStar d →
        InTree fs₀ entry.excludeDirs root d) : ∃ watch ∈ watches, watch.Reports f := by
  unfold ScanFinds at hfinds
  unfold Scheduled at hscheduled
  split at hfinds
  · next hpruned =>
    obtain ⟨d, hd, hf⟩ := hfinds
    rw [if_pos hpruned] at hscheduled
    simp only [Bool.and_eq_true, Bool.not_eq_true', List.isEmpty_eq_false_iff] at hpruned
    exact ⟨⟨d, false⟩, hscheduled d (hold hpruned.1 hpruned.2 d hd hf), exists_child_of_globStar hf⟩
  · next hall =>
    rw [if_neg hall] at hscheduled
    refine ⟨_, hscheduled, ?_⟩
    unfold Watch.Reports
    split at hfinds
    · next hrec =>
      rw [if_pos hrec]
      exact exists_below_of_globTree hfinds
    · next hrec =>
      rw [if_neg hrec]
      exact exists_child_of_globStar hfinds

/-- Watching covers what a scan would enqueue, as long as no file that passes the filters appears in
a directory that came after startup below a recursive entry with `exclude_dirs`. -/
theorem watching_covers (env : Env) (h : WatchHandler) :
    WatchingCovers env h (StaysInOldDirs env h) := by
  rintro pairs watches w₀ s₀ hschedule pair hpair _ hgrow w rest s rfl hscan f henqueues
  refine (scheduleWatches_scheduled hschedule pair hpair).exists_reports (henqueues.scanFinds hscan) ?_
  exact fun hrec hexclude d hd hf =>
    inTree_of_wanted hgrow hrec hexclude ⟨hd, hf, henqueues.isFile, henqueues.indexable⟩

/-- A watched directory that keeps a subdirectory out. -/
def prunedPair : WatchEntry × PurePath :=
  ({ path := PurePath.parse "/w".toList, excludeDirs := ["keys".toList] }, PurePath.parse "/w".toList)

/-- What `main` schedules for it at startup. -/
def startupWatches : List Watch := [⟨PurePath.parse "/w".toList, false⟩]

/-- The watched directory with a file and some directories in it. -/
def grownWorld (files : List PurePath) (dirs : List Loc) : World :=
  World.sample (files.map fun p => (p.names, ⟨[104], 1, 1⟩)) (dirs ++ [["w".toList]])

def callsOf (trace : List (Event Services)) : List Call := trace.map Event.call

/-- The trace of a scan. -/
def scanned (w : World) : List (Event Services) :=
  ((initialScan sampleHandler Env.sample [prunedPair]).run (services Env.sample) (fun _ _ => True) []
    (w, [])).2.2

theorem scanned_steps (w : World) : ∃ rest s,
    (initialScan sampleHandler Env.sample [prunedPair]).Steps
      ((services Env.sample).answers fun _ _ => True) (w, []) rest s ∧ s.2 = scanned w :=
  ⟨_, _, Prog.run_steps (services Env.sample) (fun _ _ => True) _ [] (w, []), rfl⟩

theorem startupWatches_steps : ∃ s, (scheduleWatches [prunedPair]).Steps
    ((services Env.sample).answers fun _ _ => True) (grownWorld [] [], [])
    (.ret (.ok startupWatches)) s := by
  let run := (scheduleWatches [prunedPair]).run (services Env.sample) (fun _ _ => True) []
    (grownWorld [] [], [])
  have hrun := Prog.run_steps (services Env.sample) (fun _ _ => True) (scheduleWatches [prunedPair])
    [] (grownWorld [] [], [])
  have hok : run.1 = .ok startupWatches := by decide +kernel
  exact ⟨run.2, hok ▸ hrun⟩

/-- A file in the watched directory. -/
def earlyPath : PurePath := PurePath.parse "/w/b.txt".toList

/-- A file in a directory that is created after startup. -/
def latePath : PurePath := PurePath.parse "/w/sub/b.txt".toList

theorem comes_of_contains {trace : List (Event Services)}
    (h : (callsOf trace).contains (Call.isFile f) = true) : ∃ e ∈ trace, e.call = Call.isFile f := by
  have hmem : Call.isFile f ∈ callsOf trace := List.contains_iff_mem.mp h
  exact List.mem_map.mp hmem

theorem enqueues_earlyPath : Enqueues Env.sample sampleHandler (grownWorld [earlyPath] []).fs
    (scanned (grownWorld [earlyPath] [])) earlyPath where
  comes := comes_of_contains (by decide +kernel)
  isFile := by decide +kernel
  indexable := by decide +kernel

theorem enqueues_latePath :
    Enqueues Env.sample sampleHandler (grownWorld [latePath] [["w".toList, "sub".toList]]).fs
      (scanned (grownWorld [latePath] [["w".toList, "sub".toList]])) latePath where
  comes := comes_of_contains (by decide +kernel)
  isFile := by decide +kernel
  indexable := by decide +kernel

theorem watching_covers_sample : (grownWorld [earlyPath] []).fs.isFile earlyPath = true ∧
    ∃ watch ∈ startupWatches, watch.Reports earlyPath := by
  obtain ⟨s₀, hschedule⟩ := startupWatches_steps
  obtain ⟨rest, s, hscan, htrace⟩ := scanned_steps (grownWorld [earlyPath] [])
  have hlist : (grownWorld [earlyPath] []).fs.globStar (PurePath.parse "/w".toList) = [earlyPath] := by
    decide +kernel
  have hfile : (grownWorld [earlyPath] []).fs.isDir earlyPath = false := by decide +kernel
  have hstays : StaysInOldDirs Env.sample sampleHandler prunedPair.1 prunedPair.2
      (grownWorld [] []).fs (grownWorld [] []).fs (grownWorld [earlyPath] []).fs := by
    intro _ _ d f hwanted
    right
    -- there is no directory below the root
    cases hwanted.inTree with
    | refl => exact .refl
    | child hlisted hdir =>
      rw [show prunedPair.2 = PurePath.parse "/w".toList from rfl, hlist] at hlisted
      rw [List.mem_singleton.mp hlisted, hfile] at hdir
      cases hdir
  have hgrow := Relation.ReflTransGen.single
    (r := fun fs₁ fs₂ => Creates fs₁ fs₂ ∧ StaysInOldDirs Env.sample sampleHandler prunedPair.1
      prunedPair.2 (grownWorld [] []).fs fs₁ fs₂) ⟨.file ⟨[104], 1, 1⟩ rfl, hstays⟩
  exact ⟨enqueues_earlyPath.isFile, watching_covers Env.sample sampleHandler _ _ _ s₀ hschedule
    prunedPair (List.mem_singleton_self _) _ hgrow _ rest s rfl hscan _
    (htrace ▸ enqueues_earlyPath)⟩

/-- A file in a directory that came after startup is enqueued by a scan, and none of its changes
are reported. -/
theorem watching_covers_incomplete :
    ¬ WatchingCovers Env.sample sampleHandler (fun _ _ _ _ _ => True) := by
  intro hcovers
  obtain ⟨s₀, hschedule⟩ := startupWatches_steps
  obtain ⟨rest, s, hscan, htrace⟩ := scanned_steps (grownWorld [latePath] [["w".toList, "sub".toList]])
  have hgrow : Relation.ReflTransGen (fun fs₁ fs₂ => Creates fs₁ fs₂ ∧ True) (grownWorld [] []).fs
      (grownWorld [latePath] [["w".toList, "sub".toList]]).fs := by
    apply Relation.ReflTransGen.tail (.single ⟨.directory ["w".toList, "sub".toList], trivial⟩)
    exact ⟨.file ⟨[104], 1, 1⟩ rfl, trivial⟩
  obtain ⟨watch, hwatch, hreports⟩ := hcovers _ _ _ s₀ hschedule prunedPair
    (List.mem_singleton_self _) _ hgrow _ rest s rfl hscan _ (htrace ▸ enqueues_latePath)
  obtain rfl := List.mem_singleton.mp hwatch
  obtain ⟨name, hname⟩ := hreports
  cases hname

end LocalRag
