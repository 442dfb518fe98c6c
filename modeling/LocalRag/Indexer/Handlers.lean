-- SUMMARY: The calls that the handlers of file events make, and what they have done when they return.
import LocalRag.Indexer.JobScope

/-!
# Handlers of file events

The handler of a created or modified file submits the path it resolves to. The
handler of a deleted file deletes the points and then the fingerprint.
-/

namespace LocalRag

open PyText PyPath Effects

/-- What happened to the file last. -/
inductive Change where
  | deleted
  | created
  deriving DecidableEq

/-- The path a call submits. -/
def Call.submitted : Call → List PurePath
  | .submit p => [p]
  | _ => []

/-- The paths submitted in a run. -/
def submissions (trace : List (Event Services)) : List PurePath :=
  trace.filterMap fun e => match (e.call : Call) with
    | .submit p => some p
    | _ => none

/-- No required mount of the path is empty. -/
def MountsFilled (h : WatchHandler) (src : PurePath) (fs : FileSystem) : Prop :=
  ∀ root ∈ h.requiredMountRoots, src.isRelativeTo root = true → fs.iterdir root ≠ some []

variable {env : Env} {h : WatchHandler} {src p q : PurePath} {fs : FileSystem} {w : World} {c : Call}
  {t : List (Event Services)} {V : World → Prop}

theorem exists_of_mem_submissions (hp : p ∈ submissions t) : ∃ e ∈ t, e.call = Call.submit p := by
  obtain ⟨⟨c, done⟩, he, hcall⟩ := List.mem_filterMap.mp hp
  refine ⟨_, he, ?_⟩
  cases c with
  | submit q => exact congrArg Call.submit (Option.some_inj.mp hcall)
  | _ => cases hcall

/-- The answers of worlds of a kind, with the calls made so far. -/
def tracedIn (env : Env) (V : World → Prop) : Answers Services Exn (List (Event Services)) :=
  fun c t o t' => (∃ w, V w ∧ o = (serve env c w).1) ∧ t' = t ++ [⟨c, o.toBool⟩]

/-- The calls in the handlers of `p`. -/
def Handles (p : PurePath) : Change → Call → Prop
  | .deleted, .delete f => f = ⟨p, none⟩
  | .deleted, .deleteHash q => q = p
  | _, .submit q => q = p
  | _, c => c.looks = true

/-- The calls that were made once the handler has returned. -/
def HandledBy (p : PurePath) : Change → List (Event Services) → Prop
  | .deleted, t => ⟨Call.delete ⟨p, none⟩, false⟩ ∈ t ∨
      ∃ done, ⟨Call.delete ⟨p, none⟩, true⟩ ∈ t ∧ ⟨Call.deleteHash p, done⟩ ∈ t
  | .created, t => ⟨Call.submit p, true⟩ ∈ t

/-- What is left of a handler, after the calls `t`. -/
abbrev Handling {α : Type} (env : Env) (V : World → Prop) (p : PurePath) (change : Change)
    (prog : App α) (Q : Except Exn α → List (Event Services) → Prop) (t : List (Event Services)) :
    Prop :=
  wp (tracedIn env V) (fun c _ => Handles p change c) prog Q t

theorem wp_tracedIn {G : Call → List (Event Services) → Prop}
    {Q : Except Exn (Services.Reply c) → List (Event Services) → Prop} (hG : G c t)
    (hok : ∀ w a, V w → (serve env c w).1 = .ok a → Q (.ok a) (t ++ [⟨c, true⟩]))
    (herr : ∀ w e, V w → (serve env c w).1 = .error e → Q (.error e) (t ++ [⟨c, false⟩])) :
    wp (tracedIn env V) G (call c) Q t := by
  refine wp_lift.mpr ⟨hG, ?_⟩
  rintro o t' ⟨⟨w, hw, rfl⟩, rfl⟩
  cases hreply : (serve env c w).1 with
  | ok a => exact hok w a hw hreply
  | error e => exact herr w e hw hreply

/-- A path that always resolves to the same path. -/
theorem handling_normalizePath {change : Change} {r : PurePath}
    (hr : ∀ w, V w → w.fs.normalize q = some r) :
    Handling env V p change (normalizePath q) (fun o t' => o = .ok r ∧ t ⊆ t') t := by
  refine wp_tracedIn ?_ (fun w a hw ha => ⟨?_, by simp⟩) fun w e hw he => ?_
  · cases change <;> rfl
  · have hsame := (hr w hw).symm.trans (orRaise_eq_ok_iff.mp ha)
    exact congrArg Except.ok (Option.some_inj.mp hsame).symm
  · simp only [serve, hr w hw, orRaise] at he
    cases he

/-- No mount is taken for broken. -/
theorem handling_brokenMountFor {roots : List PurePath}
    (hroots : ∀ w, V w → ∀ root ∈ roots, src.isRelativeTo root = true → w.fs.iterdir root ≠ some []) :
    Handling env V p .deleted (WatchHandler.brokenMountFor src roots) (fun o _ => o = .ok none) t := by
  induction roots generalizing t with
  | nil => rfl
  | cons root rest ih =>
    have hrest : ∀ t, Handling env V p .deleted (WatchHandler.brokenMountFor src rest)
        (fun o _ => o = .ok none) t :=
      fun _ => ih fun w hw root hroot => hroots w hw root (List.mem_cons_of_mem _ hroot)
    unfold WatchHandler.brokenMountFor
    split
    case isFalse => exact hrest t
    next hrelative =>
    refine wp_bind.mpr (wp_tryCatch.mpr (wp_bind.mpr (wp_tracedIn rfl ?_ fun _ _ _ _ => hrest _)))
    rintro w (children : List PurePath) hw hlist
    have hfilled : children ≠ [] := fun hnil =>
      hroots w hw root List.mem_cons_self hrelative (hnil ▸ orRaise_eq_ok_iff.mp hlist)
    have hempty : children.isEmpty = false := by simpa using hfilled
    change Handling env V p .deleted (if children.isEmpty = true then pure (some root)
      else WatchHandler.brokenMountFor src rest) _ _
    rw [if_neg (by simp [hempty])]
    exact hrest _

theorem handling_onDeleted (hlinks : ∀ w, V w → fs.SameLinks w.fs)
    (hmounts : ∀ w, V w → MountsFilled h src w.fs) (hsrc : fs.normalize src = some p)
    (hindexable : h.indexable env src = true) :
    Handling env V p .deleted (h.onDeleted env { srcPath := src })
      (fun _ t => HandledBy p .deleted t) [] := by
  have hnormal : ∀ {q}, fs.normalize q = some p → ∀ w, V w → w.fs.normalize q = some p :=
    fun hq w hw => ((hlinks w hw).normalize _).trans hq
  have hself : fs.normalize p = some p := fs.normalize_of_real (fs.real_of_normalize hsrc)
  unfold WatchHandler.onDeleted
  rw [if_neg (by simp [hindexable])]
  refine wp_bind.mpr (wp_mono (handling_brokenMountFor fun w hw => hmounts w hw) ?_)
  rintro _ t₁ rfl
  dsimp only [onOk]
  refine wp_bind.mpr (wp_mono (handling_normalizePath (hnormal hsrc)) ?_)
  rintro _ t₂ ⟨rfl, -⟩
  dsimp only [onOk]
  refine wp_tryCatch.mpr ?_
  unfold removeIndexedDocument deleteDocument deleteHash
  refine wp_bind.mpr (wp_mono (handling_normalizePath (hnormal hself)) ?_)
  rintro _ t₃ ⟨rfl, -⟩
  refine wp_bind.mpr (wp_bind.mpr (wp_mono (handling_normalizePath (hnormal hself)) ?_))
  rintro _ t₄ ⟨rfl, -⟩
  dsimp only [onOk]
  refine wp_tracedIn rfl (fun w _ hw _ => ?_) fun w e hw _ => .inl (by simp)
  dsimp only [onOk]
  refine wp_bind.mpr (wp_mono (handling_normalizePath (hnormal hself)) ?_)
  rintro _ t₅ ⟨rfl, ht₅⟩
  have hdeleted : (⟨Call.delete ⟨p, none⟩, true⟩ : Event Services) ∈ t₅ := ht₅ (by simp)
  dsimp only [onOk]
  exact wp_tracedIn rfl (fun w _ _ _ => .inr ⟨true, by simp [hdeleted], by simp⟩)
    fun w _ _ _ => .inr ⟨false, by simp [hdeleted], by simp⟩

/-- What is left of a program that submits `p`, after the calls `t`. -/
abbrev Submits {α : Type} (env : Env) (V : World → Prop) (src p : PurePath) (prog : App α)
    (t : List (Event Services)) : Prop :=
  wp (tracedIn env V) (fun c _ => c = .normalizePath src ∨ c = .submit p) prog
    (fun _ t => ⟨Call.submit p, true⟩ ∈ t) t

theorem submits_onCreated {event : WatchHandler.FileEvent} (hlinks : ∀ w, V w → fs.SameLinks w.fs)
    (hfile : event.isDirectory = false) (hindexable : h.indexable env event.srcPath = true)
    (hsrc : fs.normalize event.srcPath = some p) :
    Submits env V event.srcPath p (h.onCreated env event) [] := by
  unfold WatchHandler.onCreated WatchHandler.enqueue
  rw [if_neg (by simp [hfile]), if_pos hindexable]
  have hnormal : ∀ w, V w → w.fs.normalize event.srcPath = some p := fun w hw =>
    ((hlinks w hw).normalize _).trans hsrc
  refine wp_bind.mpr (wp_tracedIn (.inl rfl) (fun w (r : PurePath) hw hr => ?_) fun w e hw he => ?_)
  · obtain rfl : p = r := Option.some_inj.mp ((hnormal w hw).symm.trans (orRaise_eq_ok_iff.mp hr))
    dsimp only [onOk]
    exact wp_tracedIn (.inr rfl) (fun _ _ _ _ => by simp) fun _ _ _ he => by cases he
  · simp only [serve, hnormal w hw, orRaise] at he
    cases he

theorem handling_onCreated (hlinks : ∀ w, V w → fs.SameLinks w.fs) (hsrc : fs.normalize src = some p)
    (hindexable : h.indexable env src = true) :
    Handling env V p .created (h.onCreated env { srcPath := src })
      (fun _ t => HandledBy p .created t) [] := by
  refine wp_conseq (submits_onCreated hlinks rfl hindexable hsrc) (fun c _ hc => ?_) fun _ _ ht => ht
  rcases hc with rfl | rfl <;> rfl

/-- A handler's call is confined to its path. -/
theorem Handles.confined {change : Change} (hc : Handles p change c)
    (hself : fs.normalize p = some p) (w : World) : ConfinedTo (ResolvesTo fs p) c w := by
  cases c with
  | submit q => cases change <;> exact hc ▸ hself
  | delete f =>
    cases change with
    | deleted => exact hc ▸ hself
    | created => cases hc
  | deleteHash q =>
    cases change with
    | deleted => exact hc ▸ hself
    | created => cases hc
  | _ => first | trivial | (cases change <;> cases hc)

theorem Handles.submits {change : Change} (hc : Handles p change c) : ∀ q ∈ c.submitted, q = p := by
  cases c with
  | submit q =>
    obtain rfl : q = p := by cases change <;> exact hc
    simp [Call.submitted]
  | _ => simp [Call.submitted]

/-- The handler of a created file changes nothing stored. -/
theorem Handles.looks (hc : Handles p .created c) : c.looks = true := by
  cases c <;> first | rfl | exact hc

/-- The handler in the examples. -/
def sampleHandler : WatchHandler where
  allowedExt := [".txt".toList]
  ignore := []
  requiredMountRoots := []

end LocalRag
