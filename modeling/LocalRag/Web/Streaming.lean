-- SUMMARY: Streamed answers: the worker thread, its queue and the response generator, and what the client has read at the end.
import LocalRag.Web.Capacity

/-!
# Streamed answers

The worker puts the texts of `ask_stream_sync` into the queue, then the exception if
it raised one, and `None` at last. The response generator emits a chunk for each
item it takes. What the generator still has to come is what is in the queue and what the
worker has not sent yet: sending moves an item from the one to the other.
-/

namespace LocalRag.ApiServer

open PyText Effects OpenaiCompat

/-! ## The worker and the generator -/

/-- What the generator has met before it submits a worker. -/
structure CapacityWait where
  /-- The readings of the monotonic clock. -/
  readings : List ℚ
  /-- The timeout that the wait for capacity ran into. -/
  timedOut : Option ℚ

/-- There was no capacity in time: the wait for it has timed out, or it has used up the budget. -/
def CapacityWait.Refused (budget : ℚ) (wait : CapacityWait) : Prop :=
  wait.timedOut = some budget ∨
    ∃ before after, wait.readings = [before, after] ∧ budget ≤ after - before

/-- What the two share, and what the client has read. -/
structure Pipe where
  /-- What is left of the worker, once it is submitted. -/
  worker : Option (App Unit)
  queue : List Item
  output : List Text
  cancelEvent : Bool
  wait : CapacityWait
  /-- A wait for the next item has timed out. -/
  timedOut : Bool
  /-- What the task that watches the client has raised. -/
  watchRaised : Option Exn

structure Stream extends Pipe where
  /-- What is left of the generator. -/
  generator : App Unit

/-- What a call of the generator does, while the client reads on: waits for capacity and for the next
item may time out. The worker is to produce `texts`, and then raise what `raised` says. -/
def Pipe.Serves (texts : List Text) (raised : Option Exn) (pipe : Pipe) (c : Call)
    (o : Except Exn (Reply c)) (pipe' : Pipe) : Prop :=
  match c, o with
  | .monotonic, .ok (now : ℚ) => pipe' = { pipe with wait.readings := pipe.wait.readings ++ [now] }
  | .acquire timeout, .error e => e = .timeout ∧ pipe' = { pipe with wait.timedOut := some timeout }
  | .runInExecutor _, .ok _ => pipe' = { pipe with worker := some (streamRun texts raised) }
  | .getItem _, .ok item => ∃ rest, pipe.queue = item :: rest ∧ pipe' = { pipe with queue := rest }
  | .getItem _, .error e => e = .timeout ∧ pipe' = { pipe with timedOut := true }
  | .setCancelEvent, .ok _ => pipe' = { pipe with cancelEvent := true }
  | .emit chunk, .ok _ => pipe' = { pipe with output := pipe.output ++ [chunk] }
  | .awaitDisconnectTask, .error e => pipe' = { pipe with watchRaised := some e }
  | _, .ok _ => pipe' = pipe
  | _, .error _ => False

namespace Stream

inductive Step (texts : List Text) (raised : Option Exn) : Stream → Stream → Prop where
  | generate {s : Stream} {c : Call} {k : Except Exn (Reply c) → App Unit} {o : Except Exn (Reply c)}
    {pipe : Pipe} (hgenerator : s.generator = .call c k)
    (hserves : s.toPipe.Serves texts raised c o pipe) : Step texts raised s ⟨pipe, k o⟩
  | send {s : Stream} {item : Item} {k : Except Exn Unit → App Unit}
    (hworker : s.worker = some (.call (.putItem item) k)) :
    Step texts raised s
      { s with
        queue := s.queue ++ [item]
        worker := some (k (.ok ())) }
  /-- `_watch_disconnect` -/
  | disconnect {s : Stream} (hstarted : s.worker.isSome) :
    Step texts raised s { s with cancelEvent := true }

def start (config : Config) (question model : Text) (ragMode : RagMode) (httpRequest : Bool)
    (iterations : ℕ) : Stream where
  worker := none
  queue := []
  output := []
  cancelEvent := false
  wait := ⟨[], none⟩
  timedOut := false
  watchRaised := none
  generator := ragStreamResponse config question model ragMode httpRequest iterations

end Stream

/-- A streamed answer: the texts and the errors that its content chunks carry. -/
structure Answer where
  requestId : Text
  created : ℤ
  contents : List Text
  errors : List Text

def Answer.events (model : Text) (answer : Answer) : List Text :=
  answerEvents answer.requestId answer.created model (answer.contents ++ answer.errors)

/-- What the answer says of a worker that has produced `texts` and raised what `raised` says. -/
structure Answer.Faithful (texts : List Text) (raised : Option Exn) (answer : Answer)
    (started timedOut : Bool) : Prop where
  contents : answer.contents <+: texts
  errors : answer.errors = [] ∨ answer.errors = [generationError] ∨
    answer.errors = [generationTimedOut] ∨ answer.errors = [atCapacity]
  complete : started = true → timedOut = false → answer.contents = texts
  reported : started = true → timedOut = false →
    answer.errors = (raised.filter Exn.isException).toList.map fun _ => generationError
  late : started = true → timedOut = true → answer.errors = [generationTimedOut]
  refused : started = false → answer.contents = [] ∧ answer.errors = [atCapacity]

/-! ## What the worker sends -/

/-- The items that come after the texts. -/
def ending (raised : Option Exn) : List Item := (raised.filter Exn.isException).toList.map .exn ++ [.done]

def workerItems (texts : List Text) (raised : Option Exn) : List Item :=
  texts.map .text ++ ending raised

/-- The worker sends the next of the items that it has left. -/
def sending : Answers WebIface Exn (List Item) := fun c items o items' =>
  match c, o with
  | .putItem item, .ok _ => items = item :: items'
  | _, _ => False

/-- What is left of the worker sends the items that are left. -/
abbrev Sends {α : Type} (prog : App α) (Q : Except Exn α → List Item → Prop) (items : List Item) : Prop :=
  wp sending (fun c items => ∃ item rest, c = .putItem item ∧ items = item :: rest) prog Q items

theorem sends_send {item : Item} {items : List Item} {Q : Except Exn Bool → List Item → Prop}
    (hQ : Q (.ok true) items) : Sends (send item) Q (item :: items) := by
  refine wp_tryCatch.mpr (wp_bind.mpr (wp_lift.mpr ⟨⟨item, items, rfl, rfl⟩, ?_⟩))
  intro o items' hsent
  cases o with
  | error e => exact hsent.elim
  | ok _ =>
    obtain rfl : items = items' := (List.cons.inj hsent).2
    exact hQ

theorem sends_sendTexts (texts : List Text) (raised : Option Exn) (items : List Item) :
    Sends (sendTexts raised texts)
      (fun r items' => items' = items ∧ r = raised.elim (.ok ()) Except.error)
      (texts.map .text ++ items) := by
  induction texts with
  | nil => cases raised <;> exact ⟨rfl, rfl⟩
  | cons text rest ih => exact wp_bind.mpr (sends_send ih)

theorem sends_streamRun (texts : List Text) (raised : Option Exn) :
    Sends (streamRun texts raised) (fun _ items => items = []) (workerItems texts raised) := by
  refine wp_finallyDo.mpr (wp_tryCatch.mpr (wp_mono (sends_sendTexts texts raised _) ?_))
  rintro r items ⟨rfl, rfl⟩
  have hdone : ∀ r : Except Exn Unit, Sends (do
      let _ ← send .done) (onOk (fun _ items => items = []) fun _ items => items = []) [.done] :=
    fun _ => wp_bind.mpr (sends_send rfl)
  cases raised with
  | none => exact hdone (.ok ())
  | some e =>
    dsimp only [Option.elim, onOk]
    split
    · next hexception =>
      have hending : ending (some e) = [.exn e, .done] := by simp [ending, Option.filter, hexception]
      rw [hending]
      exact wp_bind.mpr (sends_send (hdone (.ok ())))
    · next hbase =>
      have hending : ending (some e) = [.done] := by simp [ending, Option.filter, hbase]
      rw [hending]
      exact hdone (.error e)

/-! ## What the generator emits -/

/-- What the generator deals with: the items that are still to come. -/
structure View where
  todo : List Item
  output : List Text
  cancelled : Bool
  wait : CapacityWait
  timedOut : Bool
  started : Bool
  watchRaised : Option Exn

/-- The calls of the generator, with the items that the worker will have sent. -/
def viewing (texts : List Text) (raised : Option Exn) : Answers WebIface Exn View := fun c view o view' =>
  match c, o with
  | .monotonic, .ok (now : ℚ) => view' = { view with wait.readings := view.wait.readings ++ [now] }
  | .acquire timeout, .error e => e = .timeout ∧ view' = { view with wait.timedOut := some timeout }
  | .runInExecutor _, .ok _ => view' = { view with todo := workerItems texts raised, started := true }
  | .getItem _, .ok item => ∃ rest, view.todo = item :: rest ∧ view' = { view with todo := rest }
  | .getItem _, .error e => e = .timeout ∧ view' = { view with timedOut := true }
  | .setCancelEvent, .ok _ => view' = { view with cancelled := true }
  | .emit chunk, .ok _ => view' = { view with output := view.output ++ [chunk] }
  | .awaitDisconnectTask, .error e => view' = { view with watchRaised := some e }
  | _, .ok _ => view' = view
  | _, .error _ => False

section

variable {config : Config} {texts : List Text} {raised : Option Exn} {view : View} {c : Call}
  {α β : Type}

/-- One worker is submitted. -/
def SubmitsOnce (c : Call) (view : View) : Prop :=
  match c with
  | .runInExecutor _ => view.started = false
  | _ => True

/-- What is left of the generator leaves the client with what `Q` says. -/
abbrev Emits (texts : List Text) (raised : Option Exn) (prog : App α) (Q : Except Exn α → View → Prop)
    (view : View) : Prop :=
  wp (viewing texts raised) SubmitsOnce prog Q view

/-- A call that always succeeds, and that the view does not show. -/
def Call.unseen : Call → Bool
  | .uuid4 | .time | .release | .addDoneCallback _ | .createDisconnectTask | .cancelDisconnectTask => true
  | _ => false

theorem emits_unseen {f : Reply c → App α} {Q : Except Exn α → View → Prop} (hc : c.unseen = true)
    (hf : ∀ a, Emits texts raised (f a) Q view) : Emits texts raised (call c >>= f) Q view := by
  have honce : SubmitsOnce c view := by
    cases c with
    | runInExecutor job => cases hc
    | _ => trivial
  refine wp_bind.mpr (wp_lift.mpr ⟨honce, fun o view' hview => ?_⟩)
  cases o with
  | error e => cases c <;> first | exact hview.elim | cases hc
  | ok a =>
    have hsame : view' = view := by cases c <;> first | exact hview | cases hc
    rw [hsame]
    exact hf a

theorem emits_monotonic {f : ℚ → App α} {Q : Except Exn α → View → Prop}
    (hf : ∀ now, Emits texts raised (f now) Q
      { view with wait.readings := view.wait.readings ++ [now] }) :
    Emits texts raised (call .monotonic >>= f) Q view := by
  refine wp_bind.mpr (wp_lift.mpr ⟨trivial, fun o view' hview => ?_⟩)
  cases o with
  | error e => exact hview.elim
  | ok now =>
    obtain rfl : view' = _ := hview
    exact hf now

theorem emits_emit {chunk : Text} {f : Unit → App α} {Q : Except Exn α → View → Prop}
    (hf : Emits texts raised (f ()) Q { view with output := view.output ++ [chunk] }) :
    Emits texts raised (call (.emit chunk) >>= f) Q view := by
  refine wp_bind.mpr (wp_lift.mpr ⟨trivial, fun o view' hview => ?_⟩)
  cases o with
  | error e => exact hview.elim
  | ok a =>
    obtain rfl : view' = _ := hview
    exact hf

theorem emits_setCancelEvent {f : Unit → App α} {Q : Except Exn α → View → Prop}
    (hf : Emits texts raised (f ()) Q { view with cancelled := true }) :
    Emits texts raised (call .setCancelEvent >>= f) Q view := by
  refine wp_bind.mpr (wp_lift.mpr ⟨trivial, fun o view' hview => ?_⟩)
  cases o with
  | error e => exact hview.elim
  | ok a =>
    obtain rfl : view' = _ := hview
    exact hf

/-- The worker is submitted if and only if there is capacity in time; else the generator learns that
there is none. -/
theorem emits_startStreamWorker {Q : Except Exn Unit → View → Prop} (question model : Text)
    (ragMode : RagMode) (hnew : view.started = false) (hwait : view.wait = ⟨[], none⟩)
    (hstarted : ∀ wait, ¬wait.Refused config.settings.ragRequestTimeoutSeconds →
      Q (.ok ()) { view with wait, todo := workerItems texts raised, started := true })
    (hrefused : ∀ wait, wait.Refused config.settings.ragRequestTimeoutSeconds →
      Q (.error .timeout) { view with wait }) :
    Emits texts raised (startStreamWorker config question model ragMode) Q view := by
  unfold startStreamWorker
  refine emits_monotonic fun started => wp_bind.mpr (wp_lift.mpr ⟨trivial, fun o view' hview => ?_⟩)
  cases o with
  | error e =>
    obtain ⟨rfl, rfl⟩ := hview
    exact hrefused _ (.inl rfl)
  | ok _ =>
    obtain rfl : view' = _ := hview
    refine emits_monotonic fun now => ?_
    dsimp only
    have hread : view.wait.readings ++ [started] ++ [now] = [started, now] := by rw [hwait]; rfl
    split
    · next hspent =>
      have hbudget : config.settings.ragRequestTimeoutSeconds ≤ now - started := sub_nonpos.mp hspent
      exact emits_unseen rfl fun _ => hrefused _ (.inr ⟨started, now, hread, hbudget⟩)
    · next hleft =>
      have hgranted : ¬CapacityWait.Refused config.settings.ragRequestTimeoutSeconds
          ⟨view.wait.readings ++ [started] ++ [now], view.wait.timedOut⟩ := by
        rintro (htimedOut | ⟨before, after, hreadings, hbudget⟩)
        · rw [hwait] at htimedOut
          cases htimedOut
        · rw [hread] at hreadings
          obtain ⟨rfl, hafter⟩ := List.cons.inj hreadings
          obtain ⟨rfl, -⟩ := List.cons.inj hafter
          exact hleft (sub_nonpos.mpr hbudget)
      refine wp_bind.mpr (wp_bind.mpr (wp_tryCatch.mpr (wp_lift.mpr ⟨hnew, fun o view'' hview => ?_⟩)))
      cases o with
      | error e => exact hview.elim
      | ok future =>
        obtain rfl : view'' = _ := hview
        exact emits_unseen rfl fun _ => hstarted _ hgranted

/-- The loop over the queue, from the text it is at: it ends with the last item, or it times out. -/
theorem emits_streamItems {chunk : Text → Text} {rest : List Text} (iterations : ℕ)
    (htodo : view.todo = workerItems rest raised) (henough : rest.length < iterations) :
    Emits texts raised (streamItems config chunk iterations)
      (fun r view' => view'.started = view.started ∧ view'.wait = view.wait ∧
        match r with
        | .ok _ => view'.timedOut = view.timedOut ∧ view'.output = view.output ++
            (rest ++ (raised.filter Exn.isException).toList.map fun _ => generationError).map chunk
        | .error e => e = .timeout ∧ view'.timedOut = true ∧
            ∃ contents, contents <+: rest ∧ view'.output = view.output ++ contents.map chunk)
      view := by
  induction iterations generalizing rest view with
  | zero => cases henough
  | succ iterations ih =>
    unfold streamItems
    refine wp_bind.mpr (wp_lift.mpr ⟨trivial, fun o view' hview => ?_⟩)
    cases o with
    | error e =>
      obtain ⟨rfl, rfl⟩ := hview
      exact ⟨rfl, rfl, rfl, rfl, [], List.nil_prefix, by simp⟩
    | ok item =>
      obtain ⟨items, hitems, rfl⟩ := hview
      rw [htodo] at hitems
      cases rest with
      | cons text rest =>
        obtain ⟨rfl, rfl⟩ := List.cons.inj hitems
        have hrest : rest.length < iterations := Nat.lt_of_succ_lt_succ henough
        refine emits_emit (wp_mono (ih rfl hrest) fun r view'' hr => ?_)
        obtain ⟨hstarted, hwait, hr⟩ := hr
        refine ⟨hstarted, hwait, ?_⟩
        cases r with
        | ok _ => exact ⟨hr.1, by simpa using hr.2⟩
        | error e =>
          obtain ⟨he, htimedOut, contents, hprefix, houtput⟩ := hr
          refine ⟨he, htimedOut, text :: contents, ?_, by simpa using houtput⟩
          exact (List.prefix_cons_inj text).mpr hprefix
      | nil =>
        cases hraised : raised.filter Exn.isException with
        | none =>
          simp only [workerItems, ending, hraised, List.map_nil, List.nil_append, Option.toList] at hitems
          obtain ⟨rfl, rfl⟩ := List.cons.inj hitems
          exact ⟨rfl, rfl, rfl, by simp⟩
        | some e =>
          simp only [workerItems, ending, hraised, List.map_nil, List.nil_append, Option.toList,
            List.map_cons, List.cons_append] at hitems
          obtain ⟨rfl, rfl⟩ := List.cons.inj hitems
          exact emits_emit ⟨rfl, rfl, rfl, by simp⟩

/-- What the generator has emitted for the items. -/
structure Streamed (texts : List Text) (raised : Option Exn) (chunk : Text → Text) (view view' : View)
    (read reported : List Text) : Prop where
  started : view'.started = view.started
  wait : view'.wait = view.wait
  output : view'.output = view.output ++ (read ++ reported).map chunk
  contents : read <+: texts
  complete : view'.timedOut = false → read = texts ∧
    reported = (raised.filter Exn.isException).toList.map fun _ => generationError
  late : view'.timedOut = true → reported = [generationTimedOut]

theorem emits_streamQueueEvents {chunk : Text → Text} (iterations : ℕ)
    (htodo : view.todo = workerItems texts raised) (htimedOut : view.timedOut = false)
    (henough : texts.length < iterations) :
    Emits texts raised (streamQueueEvents config chunk iterations)
      (fun r view' => r = .ok () ∧ ∃ read reported, Streamed texts raised chunk view view' read reported)
      view := by
  refine wp_tryCatch.mpr (wp_mono (emits_streamItems iterations htodo henough) fun r view' hr => ?_)
  obtain ⟨hstarted, hwait, hr⟩ := hr
  cases r with
  | ok _ =>
    refine ⟨rfl, texts, _, hstarted, hwait, hr.2, List.prefix_refl texts, fun _ => ⟨rfl, rfl⟩,
      fun hlate => ?_⟩
    rw [hr.1, htimedOut] at hlate
    cases hlate
  | error e =>
    obtain ⟨rfl, hlate, contents, hprefix, houtput⟩ := hr
    refine emits_setCancelEvent (emits_emit ⟨rfl, contents, [generationTimedOut], hstarted, hwait, ?_,
      hprefix,
      fun htime => ?_, fun _ => rfl⟩)
    · simp [houtput]
    · rw [hlate] at htime
      cases htime

theorem emits_endStream {Q : Except Exn Unit → View → Prop} (httpRequest : Bool)
    (hQ : Q (.ok ()) { view with cancelled := true })
    (herror : ∀ e, Q (.error e) { view with cancelled := true, watchRaised := some e })
    (hwatch : Q (.ok ()) { view with cancelled := true, watchRaised := some .cancelled }) :
    Emits texts raised (endStream httpRequest) Q view := by
  refine emits_setCancelEvent ?_
  split
  · refine emits_unseen rfl fun _ => wp_tryCatch.mpr (wp_lift.mpr ⟨trivial, fun o view' hview => ?_⟩)
    cases o with
    | ok _ =>
      obtain rfl : view' = _ := hview
      exact hQ
    | error e =>
      obtain rfl : view' = _ := hview
      dsimp only [onOk]
      split
      · next hcancelled =>
        rw [hcancelled]
        exact hwatch
      · exact herror e
  · exact hQ

theorem emits_emitStop {Q : Except Exn Unit → View → Prop} (requestId : Text) (created : ℤ) (model : Text)
    (hQ : Q (.ok ()) { view with output := view.output ++
      [stopChunk requestId created model, doneEvent] }) :
    Emits texts raised (emitStop requestId created model) Q view := by
  refine emits_emit (emits_emit ?_)
  change Q (.ok ()) { view with output := view.output ++ [_] ++ [_] }
  rw [List.append_assoc]
  exact hQ

/-- What the client has read when the generator has ended: a worker was submitted unless there was no
capacity in time. It ends with an error only if the task that watches the client has raised it. -/
def View.Ended (budget : ℚ) (model : Text) (texts : List Text) (raised : Option Exn)
    (r : Except Exn Unit) (view : View) : Prop :=
  match r with
  | .ok _ => (view.started = true ↔ ¬view.wait.Refused budget) ∧
      (view.started = true → view.cancelled = true) ∧ ∃ answer : Answer,
      view.output = answer.events model ∧
        answer.Faithful texts raised view.started view.timedOut
  | .error e => view.watchRaised = some e

/-- What was read of a worker that was submitted is an answer that is faithful to it. -/
theorem Streamed.faithful {chunk : Text → Text} {view' : View} {read reported : List Text}
    (h : Streamed texts raised chunk view view' read reported) (hsubmitted : view.started = true)
    (requestId : Text) (created : ℤ) :
    Answer.Faithful texts raised ⟨requestId, created, read, reported⟩ view'.started view'.timedOut := by
  have hnot : view'.started ≠ false := by simp [h.started, hsubmitted]
  refine ⟨h.contents, ?_, fun _ htime => (h.complete htime).1, fun _ htime => (h.complete htime).2,
    fun _ hlate => h.late hlate, fun hrefused => absurd hrefused hnot⟩
  cases htime : view'.timedOut with
  | true => exact .inr (.inr (.inl (h.late htime)))
  | false =>
    dsimp only
    rw [(h.complete htime).2]
    cases raised.filter Exn.isException with
    | none => exact .inl rfl
    | some e => exact .inr (.inl rfl)

theorem emits_ragStreamResponse (question model : Text) (ragMode : RagMode) (httpRequest : Bool)
    (iterations : ℕ) (houtput : view.output = []) (hstarted : view.started = false)
    (hwait : view.wait = ⟨[], none⟩) (htimedOut : view.timedOut = false)
    (henough : texts.length < iterations) :
    Emits texts raised (ragStreamResponse config question model ragMode httpRequest iterations)
      (View.Ended config.settings.ragRequestTimeoutSeconds model texts raised) view := by
  unfold ragStreamResponse
  refine emits_unseen rfl fun (uuid : Text) => emits_unseen rfl fun (created : ℤ) => ?_
  refine wp_bind.mpr (wp_tryCatch.mpr (wp_bind.mpr
    (emits_startStreamWorker question model ragMode hstarted hwait (fun wait hgranted => ?_)
      fun wait hrefused => ?_)))
  · -- The worker is submitted.
    have hview : ∀ {f : Unit → App Unit} {Q : Except Exn Unit → View → Prop} {view : View},
        Emits texts raised (f ()) Q view →
          Emits texts raised (createDisconnectTask httpRequest >>= f) Q view := by
      intro f Q view hf
      cases httpRequest with
      | true => exact emits_unseen rfl fun _ => hf
      | false => exact hf
    refine hview (wp_bind.mpr (wp_finallyDo.mpr ?_))
    refine wp_mono (emits_streamQueueEvents iterations rfl htimedOut henough) ?_
    rintro _ view' ⟨rfl, read, reported, hread⟩
    -- The end of the generator does not depend on how the task has ended.
    have hended : ∀ watchRaised, wp (viewing texts raised) SubmitsOnce
        (emitStop ("chatcmpl-".toList ++ uuid) created model)
        (View.Ended config.settings.ragRequestTimeoutSeconds model texts raised)
        { view' with cancelled := true, watchRaised := watchRaised } := by
      intro watchRaised
      refine emits_emitStop _ _ _
        ⟨⟨fun _ => hread.wait ▸ hgranted, fun _ => hread.started⟩, fun _ => rfl,
          ⟨"chatcmpl-".toList ++ uuid, created, read, reported⟩, ?_, ?_⟩
      · simp only [hread.output, houtput, List.nil_append, Answer.events, answerEvents]
      · exact hread.faithful rfl _ created
    exact emits_endStream httpRequest (hended _) (fun e => rfl) (hended _)
  · -- There is no capacity.
    refine emits_emit (emits_emitStop _ _ _ ?_)
    unfold View.Ended
    dsimp only
    rw [hstarted]
    refine ⟨⟨nofun, fun hgranted => absurd hrefused hgranted⟩, nofun,
      ⟨"chatcmpl-".toList ++ uuid, created, [], [atCapacity]⟩, ?_, ?_⟩
    · simp only [houtput, List.nil_append, Answer.events, answerEvents, List.map_cons, List.map_nil]
    · exact ⟨List.nil_prefix, .inr (.inr (.inr rfl)), nofun, nofun, nofun, fun _ => ⟨rfl, rfl⟩⟩

end

/-! ## Runs -/

/-- The view of a state: the items to come are in the queue, or left to the worker. -/
def Stream.view (s : Stream) (left : List Item) (cancelled : Bool) : View where
  todo := s.queue ++ left
  output := s.output
  cancelled := cancelled
  wait := s.wait
  timedOut := s.timedOut
  started := s.worker.isSome
  watchRaised := s.watchRaised

variable {config : Config} {texts : List Text} {raised : Option Exn} {s s' : Stream}

/-- What is left of the worker sends the items that are left, and what is left of the generator emits
what `Q` says. -/
def Stream.Inv (texts : List Text) (raised : Option Exn) (Q : Except Exn Unit → View → Prop)
    (s : Stream) : Prop :=
  ∃ left cancelled, (∀ rest ∈ s.worker, Sends rest (fun _ items => items = []) left) ∧
    (s.worker = none → left = [] ∧ s.queue = []) ∧ (cancelled = true → s.cancelEvent = true) ∧
    Emits texts raised s.generator Q (s.view left cancelled)

/-- A step of the generator is a step of the view. -/
theorem Stream.Inv.generate {Q : Except Exn Unit → View → Prop} {c : Call}
    {k : Except Exn (Reply c) → App Unit} {o : Except Exn (Reply c)} {pipe : Pipe}
    (hinv : s.Inv texts raised Q) (hgenerator : s.generator = .call c k)
    (hserves : s.toPipe.Serves texts raised c o pipe) : Stream.Inv texts raised Q ⟨pipe, k o⟩ := by
  obtain ⟨left, cancelled, hworker, hidle, hcancelled, hemits⟩ := hinv
  rw [hgenerator] at hemits
  obtain ⟨honce, hrest⟩ := hemits
  have hstep : ∀ {left' cancelled'},
      viewing texts raised c (s.view left cancelled) o (Stream.view ⟨pipe, k o⟩ left' cancelled') →
      Emits texts raised (k o) Q (Stream.view ⟨pipe, k o⟩ left' cancelled') :=
    fun hview => hrest o _ hview
  cases o with
  | error e =>
    cases c with
    | acquire timeout =>
      obtain ⟨rfl, rfl⟩ := hserves
      exact ⟨left, cancelled, hworker, hidle, hcancelled, hstep ⟨rfl, rfl⟩⟩
    | getItem timeout =>
      obtain ⟨rfl, rfl⟩ := hserves
      exact ⟨left, cancelled, hworker, hidle, hcancelled, hstep ⟨rfl, rfl⟩⟩
    | awaitDisconnectTask =>
      obtain rfl : pipe = _ := hserves
      exact ⟨left, cancelled, hworker, hidle, hcancelled, hstep rfl⟩
    | _ => exact hserves.elim
  | ok a =>
    cases c with
    | monotonic =>
      obtain rfl : pipe = _ := hserves
      exact ⟨left, cancelled, hworker, hidle, hcancelled, hstep rfl⟩
    | runInExecutor job =>
      obtain rfl : pipe = _ := hserves
      have hnone : s.worker = none := Option.not_isSome_iff_eq_none.mp (Bool.eq_false_iff.mp honce)
      refine ⟨workerItems texts raised, cancelled, ?_, nofun, hcancelled, hstep ?_⟩
      · rintro _ ⟨⟩
        exact sends_streamRun texts raised
      · simp [viewing, Stream.view, (hidle hnone).2]
    | getItem timeout =>
      obtain ⟨(rest : List Item), hqueue, rfl⟩ := hserves
      refine ⟨left, cancelled, hworker, fun hnone => ?_, hcancelled, hstep ⟨rest ++ left, ?_, rfl⟩⟩
      · rw [(hidle hnone).2] at hqueue
        cases hqueue
      · change s.queue ++ left = a :: (rest ++ left)
        rw [hqueue]
        rfl
    | setCancelEvent =>
      obtain rfl : pipe = _ := hserves
      exact ⟨left, true, hworker, hidle, fun _ => rfl, hstep rfl⟩
    | emit chunk =>
      obtain rfl : pipe = _ := hserves
      exact ⟨left, cancelled, hworker, hidle, hcancelled, hstep rfl⟩
    | _ =>
      obtain rfl : pipe = _ := hserves
      exact ⟨left, cancelled, hworker, hidle, hcancelled, hstep rfl⟩

/-- The item that the worker sends is the next of those that are left. -/
theorem Stream.Inv.send {Q : Except Exn Unit → View → Prop} {item : Item}
    {k : Except Exn Unit → App Unit} (hinv : s.Inv texts raised Q)
    (hsend : s.worker = some (.call (.putItem item) k)) :
    Stream.Inv texts raised Q { s with
      queue := s.queue ++ [item]
      worker := some (k (.ok ())) } := by
  obtain ⟨left, cancelled, hworker, hidle, hcancelled, hemits⟩ := hinv
  obtain ⟨⟨item', rest, hitem, rfl⟩, hrest⟩ := hworker _ hsend
  obtain rfl : item = item' := Call.putItem.inj hitem
  refine ⟨rest, cancelled, ?_, nofun, hcancelled, ?_⟩
  · rintro _ ⟨⟩
    exact hrest (.ok ()) rest rfl
  · have hview : Stream.view { s with
        queue := s.queue ++ [item]
        worker := some (k (.ok ())) } rest cancelled = s.view (item :: rest) cancelled := by
      simp [Stream.view, hsend]
    rw [hview]
    exact hemits

theorem Stream.Inv.step {Q : Except Exn Unit → View → Prop} (hinv : s.Inv texts raised Q)
    (hstep : Stream.Step texts raised s s') : s'.Inv texts raised Q := by
  cases hstep with
  | generate hgenerator hserves => exact hinv.generate hgenerator hserves
  | send hsend => exact hinv.send hsend
  | disconnect =>
    obtain ⟨left, cancelled, hworker, hidle, -, hemits⟩ := hinv
    exact ⟨left, cancelled, hworker, hidle, fun _ => rfl, hemits⟩

theorem Stream.inv_run {Q : Except Exn Unit → View → Prop} {s₀ : Stream}
    (hrun : Relation.ReflTransGen (Stream.Step texts raised) s₀ s) (hinv : s₀.Inv texts raised Q) :
    s.Inv texts raised Q := by
  induction hrun with
  | refl => exact hinv
  | tail _ hstep ih => exact ih.step hstep

/-- What the client has read once the generator has ended, in every run: the content chunks, the stop
chunk and `[DONE]` of a faithful answer. A worker is started unless the wait for capacity has timed out
or has used up the budget of the request. -/
theorem ragStreamResponse_faithful (config : Config) (texts : List Text) (raised : Option Exn)
    (question model : Text) (ragMode : RagMode) (httpRequest : Bool) (iterations : ℕ)
    (henough : texts.length < iterations) (s : Stream) (r : Except Exn Unit)
    (hrun : Relation.ReflTransGen (Stream.Step texts raised)
      (Stream.start config question model ragMode httpRequest iterations) s)
    (hend : s.generator = .ret r) :
    match r with
    | .ok _ => (s.worker.isSome = true ↔ ¬s.wait.Refused config.settings.ragRequestTimeoutSeconds) ∧
        (s.worker.isSome = true → s.cancelEvent = true) ∧ ∃ answer : Answer,
        s.output = answer.events model ∧
          answer.Faithful texts raised s.worker.isSome s.timedOut
    | .error e => s.watchRaised = some e := by
  have hstart : (Stream.start config question model ragMode httpRequest iterations).Inv texts raised
      (View.Ended config.settings.ragRequestTimeoutSeconds model texts raised) :=
    ⟨[], false, nofun, fun _ => ⟨rfl, rfl⟩, nofun,
      emits_ragStreamResponse question model ragMode httpRequest iterations rfl rfl rfl rfl henough⟩
  obtain ⟨left, cancelled, -, -, hcancelled, hemits⟩ := Stream.inv_run hrun hstart
  rw [hend] at hemits
  cases r with
  | error e => exact hemits
  | ok _ =>
    obtain ⟨hwait, hset, hanswer⟩ := hemits
    exact ⟨hwait, fun hstarted => hcancelled (hset hstarted), hanswer⟩

/-! ## Example -/

/-- A step of the generator. -/
theorem Stream.step_generator {pipe pipe' : Pipe} {c : Call} {k : Except Exn (Reply c) → App Unit}
    {o : Except Exn (Reply c)} (hserves : pipe.Serves texts raised c o pipe') :
    Stream.Step texts raised ⟨pipe, .call c k⟩ ⟨pipe', k o⟩ := .generate rfl hserves

/-- The answer to a question, read to its end. -/
def sampleStream : Stream where
  worker := some (.ret (.ok ()))
  queue := []
  output := Answer.events [] ⟨"chatcmpl-7".toList, 5, ["Hi".toList], []⟩
  cancelEvent := true
  wait := ⟨[0, 0], none⟩
  timedOut := false
  watchRaised := none
  generator := .ret (.ok ())

/-- The worker produces one text. -/
theorem ragStreamResponse_faithful_sample : ∃ answer : Answer,
    sampleStream.output = answer.events [] ∧
      answer.Faithful ["Hi".toList] none sampleStream.worker.isSome sampleStream.timedOut := by
  have hrun : Relation.ReflTransGen (Stream.Step ["Hi".toList] none)
      (Stream.start .sample [] [] .augmented false 2) sampleStream := by
    refine .head (Stream.step_generator (c := .uuid4) (o := .ok ['7']) rfl) ?_
    refine .head (Stream.step_generator (c := .time) (o := .ok (5 : ℤ)) rfl) ?_
    refine .head (Stream.step_generator (c := .monotonic) (o := .ok (0 : ℚ)) rfl) ?_
    refine .head (Stream.step_generator (c := .acquire 240) (o := .ok ()) rfl) ?_
    refine .head (Stream.step_generator (c := .monotonic) (o := .ok (0 : ℚ)) rfl) ?_
    have hremaining : ¬ (240 - (0 - 0) : ℚ) ≤ 0 := by decide +kernel
    change Relation.ReflTransGen _ (⟨_, Prog.bind (Prog.handle (Prog.bind
      (if (240 - (0 - 0) : ℚ) ≤ 0 then _ else _) _) _) _⟩ : Stream) _
    rw [if_neg hremaining]
    refine .head (Stream.step_generator (c := .runInExecutor (.streamRun [] [] .augmented))
      (o := .ok (0 : ℕ)) rfl) ?_
    refine .head (Stream.step_generator (c := .addDoneCallback 0) (o := .ok ()) rfl) ?_
    refine .head (.send rfl) ?_
    refine .head (Stream.step_generator (c := .getItem 120) (o := .ok (.text "Hi".toList))
      ⟨[], rfl, rfl⟩) ?_
    refine .head (Stream.step_generator (c := .emit _) (o := .ok ()) rfl) ?_
    refine .head (.send rfl) ?_
    refine .head (Stream.step_generator (c := .getItem 120) (o := .ok .done) ⟨[], rfl, rfl⟩) ?_
    refine .head (Stream.step_generator (c := .setCancelEvent) (o := .ok ()) rfl) ?_
    refine .head (Stream.step_generator (c := .emit _) (o := .ok ()) rfl) ?_
    exact .single (Stream.step_generator (c := .emit _) (o := .ok ()) rfl)
  exact (ragStreamResponse_faithful .sample ["Hi".toList] none [] [] .augmented false 2 (by decide)
    sampleStream (.ok ()) hrun rfl).2.2

end LocalRag.ApiServer
