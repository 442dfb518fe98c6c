-- SUMMARY: What main calls while it starts: the cleanup removes every tracked path that is missing, and the scan submits every file that it finds.
import LocalRag.Indexer.Startup

/-!
# The calls of main

The tree changes while `main` walks it. A file is submitted if the scan finds it
whenever it looks, and a path is removed if it is tracked and missing whenever the
cleanup looks; what happens to other files does not matter.
-/

namespace LocalRag

open PyText PyPath Effects

variable {env : Env} {h : WatchHandler} {fs : FileSystem} {p x d e : PurePath} {w : World} {c : Call}
  {entry : WatchEntry} {root : PurePath} {pair : WatchEntry × PurePath} {excludeDirs : List Text}
  {G : Call → Prop} {V : World → Prop} {target : Call}

/-! ## Which calls -/

/-- The calls of the cleanup. -/
def CleanupCall : Call → Prop
  | .delete _ | .deleteHash _ => True
  | .submit _ => False
  | c => c.looks = true

/-- The calls of the scan and of the scheduling. -/
def ScanCall (fs : FileSystem) : Call → Prop
  | .submit q => fs.normalize q = some q
  | c => c.looks = true

theorem CleanupCall.keepsReady (hc : CleanupCall c) : c.keepsReady = true := by
  cases c <;> first | rfl | cases hc

theorem CleanupCall.storesHash (hc : CleanupCall c) : c.storesHash p = false := by
  cases c <;> first | rfl | cases hc

theorem HandlerCall.storesHash {e : WatchEvent} (hc : HandlerCall env h fs e c) :
    c.storesHash p = false := by
  cases c <;> first | rfl | cases hc

theorem CleanupCall.submitted (hc : CleanupCall c) : c.submitted = [] := by
  cases c <;> first | rfl | cases hc

theorem ScanCall.looks (hc : ScanCall fs c) : c.looks = true := by
  cases c <;> first | rfl | exact hc

theorem within_forEach {α : Type} {body : α → App Unit} (l : List α)
    (hbody : ∀ a, Within env fs G (body a)) : Within env fs G (forEach body l) :=
  wp_forEach fun a _ => hbody a

theorem within_collect {α β : Type} {body : α → App (List β)} (l : List α)
    (hbody : ∀ a, Within env fs G (body a)) : Within env fs G (collect body l) := by
  induction l with
  | nil => trivial
  | cons a l ih => exact .bind (hbody a) fun _ => .bind ih fun _ => trivial

theorem within_removeIndexedDocument (q : PurePath) :
    Within env fs CleanupCall (removeIndexedDocument q) := by
  unfold removeIndexedDocument deleteDocument deleteHash
  refine .normalizePath_bind rfl fun r _ => .bind ?_ fun _ => ?_
  · exact .normalizePath_bind rfl fun _ _ => .call trivial
  · exact .normalizePath_bind rfl fun _ _ => .call trivial

theorem within_cleanupStale (roots : Option (List PurePath)) :
    Within env fs CleanupCall (cleanupStale roots) := by
  refine .bind (.call rfl) fun (paths : List PurePath) => ?_
  induction paths with
  | nil => trivial
  | cons filepath rest ih =>
    unfold cleanupPaths
    split
    · exact ih
    refine .bind (.call rfl) fun (found : Bool) => ?_
    split
    · exact ih
    · exact .bind (within_removeIndexedDocument filepath) fun _ => .bind ih fun _ => trivial

theorem within_enqueueFiles (paths : List PurePath) :
    Within env fs (ScanCall fs) (enqueueFiles h env paths) := by
  refine within_forEach paths fun f => .bind (.call rfl) fun (isFile : Bool) => ?_
  split
  case isFalse => trivial
  unfold WatchHandler.enqueue
  split
  case isFalse => trivial
  refine .normalizePath_bind rfl fun r hr => .call ?_
  exact fs.normalize_of_real (fs.real_of_normalize hr)

theorem within_forSchedulableDirs {visit : PurePath → App Unit}
    (hvisit : ∀ d, Within env fs (ScanCall fs) (visit d)) (frames : ℕ) (d : PurePath) :
    Within env fs (ScanCall fs) (forSchedulableDirs excludeDirs visit frames d) := by
  induction frames generalizing d with
  | zero => trivial
  | succ frames ih =>
    refine .bind (hvisit d) fun _ => .bind (.call rfl) fun children => ?_
    refine within_forEach _ fun child => .bind (.call rfl) fun (isDir : Bool) => ?_
    split
    · exact ih child
    · trivial

theorem within_scanEntry : Within env fs (ScanCall fs) (scanEntry h env entry root) := by
  unfold scanEntry
  split
  · refine within_forSchedulableDirs (fun d => ?_) _ _
    exact .bind (.call rfl) fun (paths : List PurePath) => within_enqueueFiles paths
  · dsimp only
    split
    · exact .bind (.call rfl) fun (paths : List PurePath) => within_enqueueFiles paths
    · exact .bind (.call rfl) fun (paths : List PurePath) => within_enqueueFiles paths

theorem within_iterSchedulableDirs (frames : ℕ) (d : PurePath) :
    Within env fs (ScanCall fs) (iterSchedulableDirs excludeDirs frames d) := by
  induction frames generalizing d with
  | zero => trivial
  | succ frames ih =>
    refine .bind (.call rfl) fun children => .bind ?_ fun _ => trivial
    refine within_collect _ fun child => .bind (.call rfl) fun (isDir : Bool) => ?_
    split
    · exact ih child
    · trivial

theorem within_scanAndSchedule (pairs : List (WatchEntry × PurePath)) :
    Within env fs (ScanCall fs) (scanAndSchedule h env pairs) := by
  refine .bind (within_forEach pairs fun pair => within_scanEntry) fun _ => ?_
  refine within_collect pairs fun pair => ?_
  unfold scheduleEntry
  split
  · exact .bind (within_iterSchedulableDirs _ _) fun _ => trivial
  · trivial

/-! ## Calls that are made -/

/-- A call in worlds of a kind, and what follows it. -/
theorem makes_call_bind {α : Type} {f : Services.Reply c → App α}
    (hok : ∀ w a, V w → (serve env c w).1 = .ok a →
      Makes (answersIn env (fun _ => False) V) target (f a) ()) :
    Makes (answersIn env (fun _ => False) V) target (call c >>= f) () := by
  refine .inr ?_
  rintro o ⟨⟩ (⟨w, hw, rfl⟩ | ⟨hfalse, -⟩)
  · cases hreply : (serve env c w).1 with
    | ok a => exact hok w a hw hreply
    | error e => exact ⟨e, rfl⟩
  · exact hfalse.elim

theorem makes_normalizePath_bind {α : Type} {f : PurePath → App α} (hlinks : ∀ w, V w → fs.SameLinks w.fs)
    (hx : fs.normalize x = some p) (hf : Makes (answersIn env (fun _ => False) V) target (f p) ()) :
    Makes (answersIn env (fun _ => False) V) target (normalizePath x >>= f) () := by
  refine makes_call_bind fun w (r : PurePath) hw hr => ?_
  have hnormal : w.fs.normalize x = some p := ((hlinks w hw).normalize x).trans hx
  obtain rfl : p = r := Option.some_inj.mp (hnormal.symm.trans (orRaise_eq_ok_iff.mp hr))
  exact hf

theorem makes_forEach {α : Type} {A : Answers Services Exn Unit} {body : α → App Unit} {l : List α}
    {a : α} (ha : a ∈ l) (hbody : Makes A target (body a) ()) : Makes A target (forEach body l) () := by
  induction l with
  | nil => cases ha
  | cons b l ih =>
    rcases List.mem_cons.mp ha with rfl | ha
    · exact hbody.bind _
    · exact makes_bind fun _ _ => ih ha

/-! ## The cleanup -/

theorem willRemove_removeIndexedDocument (hreal : fs.Real p) :
    Makes (answersIn env (fun _ => False) (StillStale fs p)) (.deleteHash p) (removeIndexedDocument p)
      () := by
  have hself := fs.normalize_of_real hreal
  refine makes_normalizePath_bind (fun _ hw => hw.1) hself (makes_bind fun _ _ => ?_)
  exact makes_normalizePath_bind (fun _ hw => hw.1) hself (.inl rfl)

/-- The cleanup removes every path under the roots that it finds tracked and missing. -/
theorem willRemove_cleanupStale {roots : List PurePath} (hreal : fs.Real p)
    (hunder : isUnderAnyRoot p roots = true) : WillRemove env fs p (cleanupStale (some roots)) := by
  refine makes_call_bind fun w (paths : List PurePath) hw hpaths => ?_
  have hmem : p ∈ paths := by
    cases htable : w.fingerprints with
    | none =>
      simp only [serve, onTable, htable] at hpaths
      cases hpaths
    | some table =>
      simp only [serve, onTable, htable] at hpaths
      exact Except.ok.inj hpaths ▸ (List.mem_insertionSort _).mpr ((tracks_iff_mem htable).mp hw.2.2)
  clear hpaths
  induction paths with
  | nil => cases hmem
  | cons filepath rest ih =>
    have hrest : p ≠ filepath → p ∈ rest := fun hne => (List.mem_cons.mp hmem).resolve_left hne
    unfold cleanupPaths
    split
    · next houtside =>
      refine ih (hrest ?_)
      rintro rfl
      simp [hunder] at houtside
    refine makes_call_bind fun w' (found : Bool) hw' hfound => ?_
    obtain rfl : w'.fs.pathExists filepath = found := Except.ok.inj hfound
    split
    · next hexists =>
      refine ih (hrest ?_)
      rintro rfl
      rw [hw'.2.1] at hexists
      cases hexists
    by_cases hsame : filepath = p
    · subst hsame
      exact (willRemove_removeIndexedDocument hreal).bind _
    · exact makes_bind fun _ _ => (ih (hrest (Ne.symm hsame))).bind _

/-! ## The scan -/

theorem InTree.exists_names (hin : InTree fs excludeDirs d e) :
    ∃ dirs, e = { d with names := d.names ++ dirs } := by
  induction hin with
  | refl => exact ⟨[], by simp⟩
  | child hlisted _ _ _ ih =>
    obtain ⟨name, rfl⟩ := exists_child_of_globStar hlisted
    obtain ⟨dirs, rfl⟩ := ih
    exact ⟨name :: dirs, by simp [PurePath.child]⟩

/-- The scan, coming to `d`, finds `x` there or below. -/
def FoundFrom (fs : FileSystem) (excludeDirs : List Text) (d x : PurePath) : Prop :=
  ∃ e, InTree fs excludeDirs d e ∧ x ∈ fs.globStar e

/-- The scan finds `x` by entering the child `name` of `d`. -/
structure FoundBelow (fs : FileSystem) (excludeDirs : List Text) (d x : PurePath) (name : Name) : Prop where
  listed : d.child name ∈ fs.globStar d
  isDir : fs.isDir (d.child name) = true
  kept : matchesIgnorePattern (d.child name) excludeDirs = false
  found : FoundFrom fs excludeDirs (d.child name) x
  names : d.names ++ [name] <+: x.names
  deeper : x.names.length ≠ d.names.length + 1

/-- The names of `x` say whether it is found in `d` itself. -/
theorem FoundFrom.cases (hfound : FoundFrom fs excludeDirs d x) :
    (x ∈ fs.globStar d ∧ x.names.length = d.names.length + 1) ∨
      ∃ name, FoundBelow fs excludeDirs d x name := by
  obtain ⟨e, hin, hx⟩ := hfound
  cases hin with
  | refl =>
    obtain ⟨name, rfl⟩ := exists_child_of_globStar hx
    exact .inl ⟨hx, by simp [PurePath.child]⟩
  | child hlisted hdir hkept hin =>
    obtain ⟨name, rfl⟩ := exists_child_of_globStar hlisted
    obtain ⟨dirs, rfl⟩ := hin.exists_names
    obtain ⟨last, rfl⟩ := exists_child_of_globStar hx
    refine .inr ⟨name, hlisted, hdir, hkept, ⟨_, hin, hx⟩, ⟨dirs ++ [last], ?_⟩, ?_⟩
    · simp [PurePath.child]
    · simp [PurePath.child]

theorem FoundBelow.name_eq {fs' : FileSystem} {name name' : Name}
    (hbelow : FoundBelow fs excludeDirs d x name) (hbelow' : FoundBelow fs' excludeDirs d x name') :
    name = name' := by
  have hprefix : d.names ++ [name] <+: d.names ++ [name'] :=
    List.prefix_of_prefix_length_le hbelow.names hbelow'.names (by simp)
  have hsame := hprefix.eq_of_length (by simp)
  simpa using hsame

theorem makes_enqueueFiles {paths : List PurePath} (hlinks : ∀ w, V w → fs.SameLinks w.fs)
    (hfile : ∀ w, V w → w.fs.isFile x = true) (hindexable : h.indexable env x = true)
    (hx : fs.normalize x = some p) (hmem : x ∈ paths) :
    Makes (answersIn env (fun _ => False) V) (.submit p) (enqueueFiles h env paths) () := by
  refine makes_forEach hmem (makes_call_bind fun w (isFile : Bool) hw hisFile => ?_)
  obtain rfl : w.fs.isFile x = isFile := Except.ok.inj hisFile
  rw [if_pos (hfile w hw), WatchHandler.enqueue, if_pos hindexable]
  exact makes_normalizePath_bind hlinks hx (.inl rfl)

/-- Whatever the tree looks like each time, the walk comes to the directory of `x`. -/
theorem makes_forSchedulableDirs {visit : PurePath → App Unit}
    (hvisit : ∀ d, (∀ w, V w → x ∈ w.fs.globStar d) →
      Makes (answersIn env (fun _ => False) V) target (visit d) ())
    (frames : ℕ) (hfound : ∀ w, V w → FoundFrom w.fs excludeDirs d x) :
    Makes (answersIn env (fun _ => False) V) target (forSchedulableDirs excludeDirs visit frames d)
      () := by
  induction frames generalizing d with
  | zero => exact ⟨_, rfl⟩
  | succ frames ih =>
    by_cases hlength : x.names.length = d.names.length + 1
    · refine (hvisit d fun w hw => ?_).bind _
      rcases (hfound w hw).cases with ⟨hlisted, -⟩ | ⟨name, hbelow⟩
      · exact hlisted
      · exact absurd hlength hbelow.deeper
    have hbelow : ∀ w, V w → ∃ name, FoundBelow w.fs excludeDirs d x name := by
      intro w hw
      rcases (hfound w hw).cases with ⟨-, heq⟩ | hbelow
      · exact absurd heq hlength
      · exact hbelow
    refine makes_bind fun _ _ => makes_call_bind fun w (children : List PurePath) hw hreply => ?_
    have hlist := orRaise_eq_ok_iff.mp hreply
    obtain ⟨name, hname⟩ := hbelow w hw
    have hchild : d.child name ∈ children := by
      have hlisted := hname.listed
      rw [FileSystem.globStar, hlist] at hlisted
      exact hlisted
    have hname' : ∀ w', V w' → FoundBelow w'.fs excludeDirs d x name := by
      intro w' hw'
      obtain ⟨name', hname'⟩ := hbelow w' hw'
      exact hname.name_eq hname' ▸ hname'
    refine makes_forEach ((List.mem_insertionSort _).mpr hchild) ?_
    refine makes_call_bind fun w' (isDir : Bool) hw' hisDir => ?_
    obtain rfl : w'.fs.isDir (d.child name) = isDir := Except.ok.inj hisDir
    rw [if_pos (by simp [(hname' w' hw').isDir, hname.kept])]
    exact ih fun w'' hw'' => (hname' w'' hw'').found

theorem makes_scanEntry (hindexable : h.indexable env x = true) (hx : fs.normalize x = some p) :
    Makes (answersIn env (fun _ => False) (StillFound fs pair x)) (.submit p)
      (scanEntry h env pair.1 pair.2) () := by
  have hfiles : ∀ {paths : List PurePath}, x ∈ paths →
      Makes (answersIn env (fun _ => False) (StillFound fs pair x)) (.submit p)
        (enqueueFiles h env paths) () :=
    makes_enqueueFiles (fun _ hw => hw.1) (fun _ hw => hw.2.2) hindexable hx
  unfold scanEntry
  split
  · next hpruned =>
    refine makes_forSchedulableDirs (x := x) (fun d hlisted => ?_) _ fun w hw => ?_
    · refine makes_call_bind fun w (paths : List PurePath) hw hreply => hfiles ?_
      obtain rfl : w.fs.globStar d = paths := Except.ok.inj hreply
      exact hlisted w hw
    · have hfinds := hw.2.1
      rw [ScanFinds, if_pos hpruned] at hfinds
      exact hfinds
  · next hall =>
    dsimp only
    split
    · next hrec =>
      refine makes_call_bind fun w (paths : List PurePath) hw hreply => hfiles ?_
      obtain rfl : w.fs.globAll pair.2 = paths := Except.ok.inj hreply
      have hfinds := hw.2.1
      rwa [ScanFinds, if_neg hall, if_pos hrec] at hfinds
    · next hrec =>
      refine makes_call_bind fun w (paths : List PurePath) hw hreply => hfiles ?_
      obtain rfl : w.fs.globStar pair.2 = paths := Except.ok.inj hreply
      have hfinds := hw.2.1
      rwa [ScanFinds, if_neg hall, if_neg hrec] at hfinds

/-- The scan submits every file that it finds. -/
theorem willSubmit_scanAndSchedule {pairs : List (WatchEntry × PurePath)} (hpair : pair ∈ pairs)
    (hindexable : h.indexable env x = true) (hx : fs.normalize x = some p) :
    WillSubmit env fs pair x p (scanAndSchedule h env pairs) :=
  (makes_forEach hpair (makes_scanEntry hindexable hx)).bind _

/-! ## The handler of a deletion -/

/-- What is left of the handler deletes the fingerprint, unless there was no collection. -/
theorem removes_of_handling {α : Type} {src : PurePath} {rest : App α} {t : List (Event Services)}
    (hrest : Handling env (Site fs h src) p .deleted rest (fun _ t => HandledBy p .deleted t) t)
    (hrefused : ⟨Call.delete ⟨p, none⟩, false⟩ ∉ t) (hleft : ∀ done, ⟨Call.deleteHash p, done⟩ ∉ t) :
    wpUntil (removalAnswers env fs h src) (.deleteHash p) rest (fun _ _ => False) () := by
  induction rest generalizing t with
  | ret r =>
    rcases hrest with hdeleted | ⟨done, -, hdeleted⟩
    · exact hrefused hdeleted
    · exact hleft done hdeleted
  | call c k ih =>
    by_cases hc : c = Call.deleteHash p
    · exact .inl hc
    refine .inr ?_
    rintro o ⟨⟩ ⟨⟨w, hw, rfl⟩, hdelete⟩
    refine ih _ (hrest.2 _ _ ⟨⟨w, hw, rfl⟩, rfl⟩) (fun hmem => ?_) fun done hmem => ?_
    · rcases List.mem_append.mp hmem with hmem | hmem
      · exact hrefused hmem
      · obtain ⟨hcall, hdone⟩ := Event.mk.inj (List.mem_singleton.mp hmem)
        rw [hdelete _ hcall.symm] at hdone
        cases hdone
    · rcases List.mem_append.mp hmem with hmem | hmem
      · exact hleft done hmem
      · exact hc (Event.mk.inj (List.mem_singleton.mp hmem)).1.symm

theorem removes_dispatch {e : WatchEvent} (herases : Erases env h fs e p) :
    wpUntil (removalAnswers env fs h e.srcPath) (.deleteHash p) (h.dispatch env e) (fun _ _ => False)
      () := by
  obtain ⟨⟨src, isDirectory⟩, kind⟩ := e
  obtain ⟨rfl, rfl, hindexable, hsrc⟩ := herases
  refine removes_of_handling (t := []) ?_ List.not_mem_nil fun _ => List.not_mem_nil
  exact handling_onDeleted (fun _ hw => hw.1) (fun _ hw => hw.2) hsrc hindexable

end LocalRag
