-- SUMMARY: The chat page in every order of events: one message is sent at a time, the controls follow it, and the page shows what was read.
import LocalRag.Web.Exchanges
import Mathlib.Data.List.Count

/-!
# Conversations

The tasks of the page take turns in any order. A task that sends a message relies on the
controls: while they are locked, no other message is sent.
-/

namespace LocalRag.ChatUi

open PyText Effects EventLoop

/-! ## The invariant -/

/-- What is noted of a task. -/
inductive Note where
  | idle
  /-- The input was read. -/
  | read (input : Text)
  | signingIn
  | sending (x : Sending)
  | sent (x : Sending)

def Sending.noted (x : Sending) : (c : Call) → Except Exn (Reply c) → Note
  | .append .thinking, .ok id => .sending { x with thinking := id }
  | .append (.assistant _ _), .ok id => .sending { x with bubble := some id, shown := 1 }
  | .change _ _, .ok _ => .sending { x with shown := x.shown + 1 }
  | .readModel, .ok (model : Text) => .sending { x with heard.model := some model }
  | .readMode, .ok (mode : Text) => .sending { x with heard.mode := some mode }
  | .fetch _ _ _ (some _), .ok (res : Response) => .sending { x with heard.response := some res }
  | .text, .ok (body : Text) => .sending { x with heard.body := body }
  | .read _, .ok (some bytes) => .sending { x with reads := x.reads ++ [bytes] }
  | .read _, .ok none => .sending { x with heard.done := true }
  | .read _, .error e | .fetch _ _ _ (some _), .error e => .sending { x with heard.raised := some e }
  | .unlockUi, _ => .sent x
  | _, _ => .sending x

def Note.noted : Note → (c : Call) → Except Exn (Reply c) → Note
  | .idle, .readInput, .ok (input : Text) => .read input
  | .read input, .newController, .ok id => .sending { signal := id, heard := { input } }
  | .idle, .setLoginDisabled true, _ => .signingIn
  | .signingIn, .setLoginDisabled false, _ => .idle
  | .sending x, c, o => x.noted c o
  | note, _, _ => note

def Note.isSigningIn : Note → Bool
  | .signingIn => true
  | _ => false

def Note.sending? : Note → Option Sending
  | .sending x => some x
  | _ => none

def Note.sent? : Note → Option Sending
  | .sent x => some x
  | _ => none

/-- The task sends a message, or has sent one. -/
def Note.talks : Note → Bool
  | .sending _ | .sent _ => true
  | _ => false

/-- The note of a task that has finished. -/
def Note.rests : Note → Bool
  | .signingIn | .sending _ => false
  | _ => true

/-- The event loop of the page. -/
def page (browser : Browser) : EventLoop UiIface Exn Ui Note where
  answers := Ui.answers
  waits := Call.waits
  starts ui prog := ∃ (event : UserEvent) (rounds : ℕ),
    event.enabled ui = true ∧ prog = event.handler browser rounds
  fresh := .idle
  noted := Note.noted

variable (browser : Browser)

def sends (notes : List Note) : List Sending := notes.filterMap Note.sending?

def sents (notes : List Note) : List Sending := notes.filterMap Note.sent?

def talk (notes : List Note) : List Note := notes.filter Note.talks

/-- The messages were sent one after the other. -/
def Talks (chat : Chat) (talking : List Note) : Prop :=
  ∃ finished : List Sending, (talking = finished.map .sent ∧ Rests browser chat finished) ∨
    ∃ x, talking = finished.map .sent ++ [.sending x] ∧ Sends browser chat finished x []

/-- What holds of the page and the notes of its tasks between two turns. -/
structure Kept (ui : Ui) (notes : List Note) : Prop where
  view : ui.loginHidden = !ui.chatHidden
  signingIn : notes.countP Note.isSigningIn = if ui.loginDisabled then 1 else 0
  tidy : ui.Tidy
  talks : Talks browser ui.toChat (talk notes)

variable {browser} {chat : Chat} {ui ui' : Ui} {notes before after : List Note} {c : Call} {α : Type}
  {x : Sending} {finished : List Sending}

theorem talk_append (before after : List Note) (note : Note) :
    talk (before ++ note :: after) =
      talk before ++ ((if note.talks then [note] else []) ++ talk after) := by
  rw [talk, List.filter_append, List.filter_cons]
  split <;> rfl

theorem sents_talk (notes : List Note) : sents (talk notes) = sents notes := by
  induction notes with
  | nil => rfl
  | cons note notes ih =>
    cases note with
    | sent x => exact congrArg (x :: ·) ih
    | _ => exact ih

theorem sends_talk (notes : List Note) : sends (talk notes) = sends notes := by
  induction notes with
  | nil => rfl
  | cons note notes ih =>
    cases note with
    | sending x => exact congrArg (x :: ·) ih
    | _ => exact ih

theorem sents_map (finished : List Sending) : sents (finished.map .sent) = finished := by
  induction finished with
  | nil => rfl
  | cons x finished ih => exact congrArg (x :: ·) ih

theorem sends_map (finished : List Sending) : sends (finished.map .sent) = [] := by
  induction finished with
  | nil => rfl
  | cons x finished ih => exact ih

/-- The message in flight is the last one. -/
theorem talk_last {before after : List Note} {y : Sending}
    (h : before ++ .sending x :: after = finished.map .sent ++ [.sending y]) :
    before = finished.map .sent ∧ x = y ∧ after = [] := by
  rcases List.eq_nil_or_concat' after with rfl | ⟨rest, last, rfl⟩
  · obtain ⟨hbefore, hlast⟩ := List.append_inj' h rfl
    exact ⟨hbefore, Note.sending.inj (List.cons.inj hlast).1, rfl⟩
  · rw [← List.cons_append, ← List.append_assoc] at h
    obtain ⟨hearlier, -⟩ := List.append_inj' h rfl
    have hmem : Note.sending x ∈ finished.map Note.sent := hearlier ▸ by simp
    simp at hmem

theorem Talks.abort {talking : List Note} (h : Talks browser chat talking) :
    Talks browser chat.abort talking := by
  obtain ⟨finished, ⟨htalking, hrests⟩ | ⟨x, htalking, hsends⟩⟩ := h
  · exact ⟨finished, .inl ⟨htalking, hrests.abort⟩⟩
  · exact ⟨finished, .inr ⟨x, htalking, hsends.abort⟩⟩

/-! ## Calls that concern no exchange -/

/-- The calls that concern no exchange. -/
def Call.neutral : Call → Bool
  | .readInput | .readModel | .readMode | .newController | .lockUi | .unlockUi | .append _ | .remove _
  | .change _ _ | .setLoginDisabled _ | .text | .read _ => false
  | .fetch _ _ _ signal => signal.isNone
  | _ => true

def completionsPath : Text := "/v1/chat/completions".toList

/-- The calls that send a message to the server. -/
def Call.isChat : Call → Bool
  | .fetch _ path _ _ => decide (path = completionsPath)
  | _ => false

/-- What a neutral call makes of the page. -/
theorem answers_neutral {o : Except Exn (Reply c)} (hc : c.neutral = true)
    (hview : ui.loginHidden = !ui.chatHidden)
    (h : ui.answers c o ui') :
    ui'.loginHidden = !ui'.chatHidden ∧ ui'.loginDisabled = ui.loginDisabled ∧
      (ui'.toChat = ui.toChat ∨ ui'.toChat = ui.abort) := by
  cases c with
  | fetch | json | resume =>
    obtain ⟨rfl, -⟩ := h
    exact ⟨hview, rfl, .inl rfl⟩
  | abort =>
    obtain ⟨-, rfl⟩ := h
    exact ⟨hview, rfl, .inr rfl⟩
  | showLogin | showChat =>
    obtain ⟨-, rfl⟩ := h
    exact ⟨rfl, rfl, .inl rfl⟩
  | readSendDisabled | setInput | setLoginError | clearModels | addModel =>
    obtain ⟨-, rfl⟩ := h
    exact ⟨hview, rfl, .inl rfl⟩
  | chooseModel =>
    obtain ⟨-, rfl⟩ := h
    unfold Ui.chooseModel
    split <;> exact ⟨hview, rfl, .inl rfl⟩
  | chooseMode =>
    obtain ⟨-, rfl⟩ := h
    unfold Ui.chooseMode
    split <;> exact ⟨hview, rfl, .inl rfl⟩
  | _ => cases hc

/-- What is awaited leaves the page alone. -/
theorem answers_waits {o : Except Exn (Reply c)} (hc : c.waits = true) (h : ui.answers c o ui') :
    ui' = ui ∧ ∀ e, o = .error e → c.sure = false ∧
      ∀ message, e = .abort message → ∃ signal ∈ ui.aborted, c.signal = some signal := by
  cases c <;> first | exact h | cases hc

theorem noted_neutral (hc : c.neutral = true) (note : Note) (o : Except Exn (Reply c)) :
    note.noted c o = note := by
  cases c with
  | fetch method url body signal =>
    obtain rfl : signal = none := Option.isNone_iff_eq_none.mp hc
    cases note <;> cases o <;> rfl
  | _ => cases note <;> cases o <;> first | rfl | cases hc

theorem Kept.neutral {o : Except Exn (Reply c)} (hc : c.neutral = true) (h : Kept browser ui notes)
    (hanswers : ui.answers c o ui') : Kept browser ui' notes := by
  obtain ⟨hview, hlogin, hchat⟩ := answers_neutral hc h.view hanswers
  refine ⟨hview, hlogin ▸ h.signingIn, ?_, ?_⟩
  · rcases hchat with hchat | hchat
    · exact hchat ▸ h.tidy
    · exact hchat ▸ h.tidy.abort
  · rcases hchat with hchat | hchat
    · exact hchat ▸ h.talks
    · exact hchat ▸ h.talks.abort

/-- Where a task stands with its note, and the invariant holds. -/
def Stands (browser : Browser) (note : Note) (v : Sight Ui Note) : Prop :=
  v.Sound (Kept browser) ∧ v.note = note

/-- A task that keeps the invariant. -/
abbrev Keeping (browser : Browser) (prog : UiTask α) (Q : Except Exn α → Sight Ui Note → Prop)
    (v : Sight Ui Note) : Prop :=
  (page browser).Keeps (Kept browser) prog Q v

abbrev Neutral (browser : Browser) (prog : UiTask α) : Prop :=
  ∀ note, Preserves ((page browser).seeing (Kept browser)) ((page browser).SoundWaits (Kept browser))
    (Stands browser note) prog

theorem neutral_of_calls {prog : UiTask α} (h : prog.Calls fun c : Call => c.neutral = true) :
    Neutral browser prog := by
  refine fun note => h.preserves (fun _ _ _ hv _ => hv.1) ?_
  rintro c v o v' hc ⟨hsound, rfl⟩ ho
  have hnoted : (page browser).noted v.note c o = v.note := noted_neutral hc v.note o
  unfold seeing at ho
  split at ho
  · obtain ⟨shared, before, after, shared', hkept, hanswers, rfl⟩ := ho
    rw [hnoted]
    exact ⟨hkept.neutral hc hanswers, rfl⟩
  · obtain ⟨shared', hanswers, rfl⟩ := ho
    rw [hnoted]
    exact ⟨Kept.neutral hc hsound hanswers, rfl⟩

theorem calls_neutral (hc : c.neutral = true) : (call c).Calls fun c : Call => c.neutral = true := .lift hc

theorem waits_of_step {r : Reply c × Ui} (h : ui.step c = some r) : c.waits = false := by
  cases c <;> first | rfl | cases h

/-- A call within a turn has its value, and raises nothing. -/
theorem keeps_act {a : Reply c} {next : Ui} {Q : Except Exn (Reply c) → Sight Ui Note → Prop}
    {v : Sight Ui Note} (hstep : v.shared.step c = some (a, next))
    (hQ : Q (.ok a) ⟨next, v.before, v.note.noted c (.ok a), v.after⟩) :
    Keeping browser (call c) Q v := by
  have hwaits : (page browser).waits c = false := waits_of_step hstep
  refine keeps_call hwaits fun o shared hanswers => ?_
  change Ui.answers c v.shared o shared at hanswers
  rw [Ui.answers, hstep] at hanswers
  obtain ⟨rfl, rfl⟩ := hanswers
  exact hQ

theorem keeps_step {β : Type} {a : Reply c} {next : Ui} {f : Reply c → UiTask β}
    {Q : Except Exn β → Sight Ui Note → Prop}
    {v : Sight Ui Note} (hstep : v.shared.step c = some (a, next))
    (hf : Keeping browser (f a) Q ⟨next, v.before, v.note.noted c (.ok a), v.after⟩) :
    Keeping browser (call c >>= f) Q v := wp_bind.mpr (keeps_act hstep hf)

/-! ## Signing in and out -/

section

variable {p : Call → Prop} (hneutral : ∀ c : Call, c.neutral = true → c.isChat = false → p c)
include hneutral

theorem calls_awaited {task : UiTask α} (h : task.Calls p) : (awaited task).Calls p :=
  h.finallyDo (.lift (hneutral .resume rfl rfl))

theorem calls_loadModels : (loadModels browser).Calls p := by
  have hadd : ∀ items, (addModels browser items).Calls p := by
    intro items
    induction items with
    | nil => exact .ret _
    | cons m data ih => exact .bind (.ret _) fun id => .bind (.lift (hneutral _ rfl rfl)) fun _ => ih
  refine .tryCatch (.bind (.lift (hneutral _ rfl rfl)) fun (res : Response) => ?_) fun _ => .ret _
  split
  · refine .bind (.lift (hneutral _ rfl rfl)) fun (body : Json) => .bind (.ret _) fun data => ?_
    exact .bind (.lift (hneutral _ rfl rfl)) fun _ => .bind (.ret _) fun items => hadd items
  · exact .ret _

theorem calls_showChat : (showChat browser).Calls p :=
  .bind (.lift (hneutral _ rfl rfl)) fun _ => calls_awaited hneutral (calls_loadModels hneutral)

theorem calls_showLogin (msg : Text) : Prog.Calls p (do
    let _ ← call (.showLogin msg) : UiTask Unit) := .bind (.lift (hneutral _ rfl rfl)) fun _ => .ret _

theorem calls_signIn (username password : Text) : Prog.Calls p
    (tryCatch
      (do
        let body := Json.obj
          [("username".toList, .str (SseDeltas.trim username)), ("password".toList, .str password)]
        let res : Response ← call (.fetch "POST".toList "/auth/login".toList (some body) none)
        if res.isOk then do
          let _ ← call .json
          awaited (showChat browser)
        else do
          let _ ← call (.setLoginError (if res.status = 401 then invalidLogin else loginFailed res.status)))
      fun _ => do
        let _ ← call (.setLoginError unreachable)) := by
  refine .tryCatch (.bind (.lift (hneutral _ rfl rfl)) fun (res : Response) => ?_) fun _ =>
    .bind (.lift (hneutral _ rfl rfl)) fun _ => .ret _
  split
  · exact .bind (.lift (hneutral _ rfl rfl)) fun _ => calls_awaited hneutral (calls_showChat hneutral)
  · exact .bind (.lift (hneutral _ rfl rfl)) fun _ => .ret _

theorem calls_logout : logout.Calls p := by
  refine .bind (.tryCatch (.bind (.lift (hneutral _ rfl rfl)) fun _ => .ret _) fun _ => .ret _) fun _ => ?_
  exact .bind (.lift (hneutral _ rfl rfl)) fun _ => .ret _

theorem calls_init : (init browser).Calls p := by
  refine .tryCatch (.bind (.lift (hneutral _ rfl rfl)) fun (res : Response) => ?_) fun _ =>
    calls_showLogin hneutral _
  split
  · refine .bind (.lift (hneutral _ rfl rfl)) fun (body : Json) => .bind (.ret _) fun authenticated => ?_
    split
    · exact calls_awaited hneutral (calls_showChat hneutral)
    · exact calls_showLogin hneutral _
  · exact calls_showLogin hneutral _

end

theorem Kept.signIn (h : Kept browser ui (before ++ .idle :: after))
    (henabled : ui.loginDisabled = false) :
    Kept browser { ui with loginDisabled := true } (before ++ .signingIn :: after) := by
  refine ⟨h.view, ?_, h.tidy, ?_⟩
  · have hcount := h.signingIn
    rw [henabled, List.countP_append, List.countP_cons] at hcount
    rw [List.countP_append, List.countP_cons]
    simp only [Note.isSigningIn, Bool.false_eq_true, if_false, if_true] at hcount ⊢
    omega
  · have htalks := h.talks
    rw [talk_append] at htalks ⊢
    exact htalks

theorem Kept.signedIn (h : Kept browser ui (before ++ .signingIn :: after)) :
    Kept browser { ui with loginDisabled := false } (before ++ .idle :: after) := by
  refine ⟨h.view, ?_, h.tidy, ?_⟩
  · have hcount := h.signingIn
    rw [List.countP_append, List.countP_cons] at hcount ⊢
    simp only [Note.isSigningIn, Bool.false_eq_true, if_false, if_true] at hcount ⊢
    split at hcount <;> omega
  · have htalks := h.talks
    rw [talk_append] at htalks ⊢
    exact htalks

/-- A task ends with nothing left to do. -/
abbrev EndsResting (browser : Browser) : Except Exn Unit → Sight Ui Note → Prop :=
  Ends (Kept browser) fun note => note.rests = true

theorem keeps_neutral {prog : UiTask Unit} (h : prog.Calls fun c : Call => c.neutral = true)
    {v : Sight Ui Note} (hv : Stands browser .idle v) : Keeping browser prog (EndsResting browser) v :=
  wp_mono (neutral_of_calls h .idle v hv) fun _ _ ⟨hsound, hnote⟩ => ⟨hsound, hnote ▸ rfl⟩

theorem keeps_submitLogin (username password : Text) {v : Sight Ui Note} (hv : Stands browser .idle v)
    (henabled : v.shared.loginDisabled = false) :
    Keeping browser (submitLogin browser username password) (EndsResting browser) v := by
  obtain ⟨shared, before, note, after⟩ := v
  obtain ⟨hsound, rfl⟩ := hv
  refine keeps_step (c := .setLoginDisabled true) rfl (keeps_step (c := .setLoginError []) rfl ?_)
  have hkept : Kept browser { shared with loginDisabled := true, loginError := [] }
      (before ++ .signingIn :: after) :=
    Kept.neutral (c := .setLoginError []) (o := .ok ()) rfl (Kept.signIn hsound henabled) ⟨rfl, rfl⟩
  refine wp_finallyDo.mpr (wp_mono (neutral_of_calls ?_ .signingIn _ ⟨hkept, rfl⟩) ?_)
  · exact calls_signIn (fun _ hc _ => hc) username password
  · rintro r ⟨shared, before, note, after⟩ ⟨hsound, rfl⟩
    refine keeps_act (c := .setLoginDisabled false) rfl ?_
    exact ⟨Kept.signedIn hsound, rfl⟩

/-! ## Sending -/

/-- What holds of the others while a task sends: messages were sent before, and none later. -/
structure Others (ui : Ui) (before after : List Note) : Prop where
  view : ui.loginHidden = !ui.chatHidden
  signingIn : before.countP Note.isSigningIn + after.countP Note.isSigningIn = if ui.loginDisabled then 1 else 0
  before : talk before = (sents before).map .sent
  after : talk after = []

theorem Others.same (h : Others ui before after) (hview : ui'.loginHidden = !ui'.chatHidden)
    (hlogin : ui'.loginDisabled = ui.loginDisabled) : Others ui' before after :=
  ⟨hview, hlogin ▸ h.signingIn, h.before, h.after⟩

theorem sents_of_talk (h : talk notes = finished.map .sent) : sents notes = finished := by
  rw [← sents_talk, h, sents_map]

/-- The task is the one that sends. -/
theorem kept_sending : Kept browser ui (before ++ .sending x :: after) ↔
    Others ui before after ∧ ui.Tidy ∧ Sends browser ui.toChat (sents before) x [] := by
  have hcount : (before ++ Note.sending x :: after).countP Note.isSigningIn =
      before.countP Note.isSigningIn + after.countP Note.isSigningIn := by
    rw [List.countP_append, List.countP_cons]
    rfl
  have htalk : talk (before ++ .sending x :: after) = talk before ++ .sending x :: talk after :=
    talk_append ..
  constructor
  · rintro ⟨hview, hsigning, htidy, finished, hfinished⟩
    rw [hcount] at hsigning
    rw [htalk] at hfinished
    rcases hfinished with ⟨htalking, -⟩ | ⟨y, htalking, hsends⟩
    · have hmem : Note.sending x ∈ finished.map Note.sent := htalking ▸ by simp
      simp at hmem
    · obtain ⟨hbefore, rfl, hafter⟩ := talk_last htalking
      have hsents := sents_of_talk hbefore
      exact ⟨⟨hview, hsigning, hsents.symm ▸ hbefore, hafter⟩, htidy, hsents.symm ▸ hsends⟩
  · rintro ⟨hothers, htidy, hsends⟩
    refine ⟨hothers.view, hcount.trans hothers.signingIn, htidy, sents before, .inr ⟨x, ?_, hsends⟩⟩
    rw [htalk, hothers.after, ← hothers.before]

/-- The task has sent its message. -/
theorem kept_sent (hothers : Others ui before after) (htidy : ui.Tidy)
    (hrests : Rests browser ui.toChat (sents before ++ [x])) :
    Kept browser ui (before ++ .sent x :: after) := by
  refine ⟨hothers.view, ?_, htidy, sents before ++ [x], .inl ⟨?_, hrests⟩⟩
  · rw [List.countP_append, List.countP_cons]
    exact hothers.signingIn
  · rw [talk_append, hothers.after, List.map_append, ← hothers.before]
    rfl

/-- Reading the input concerns no exchange. -/
theorem Kept.read (h : Kept browser ui (before ++ .idle :: after)) (input : Text) :
    Kept browser ui (before ++ .read input :: after) := by
  obtain ⟨hview, hsigning, htidy, htalks⟩ := h
  refine ⟨hview, ?_, htidy, ?_⟩
  · rw [List.countP_append, List.countP_cons] at hsigning ⊢
    exact hsigning
  · rw [talk_append] at htalks ⊢
    exact htalks

/-- While the button is enabled, no task sends. -/
theorem Kept.resting (h : Kept browser ui (before ++ [.idle])) (henabled : ui.sendDisabled = false) :
    Others ui before [] ∧ Rests browser ui.toChat (sents before) := by
  obtain ⟨hview, hsigning, htidy, finished, hfinished⟩ := h
  rw [List.countP_append] at hsigning
  rw [talk_append] at hfinished
  change (talk before ++ [] = _ ∧ _) ∨ (∃ x, talk before ++ [] = _ ∧ _) at hfinished
  rw [List.append_nil] at hfinished
  rcases hfinished with ⟨htalking, hrests⟩ | ⟨x, -, hsends⟩
  · have hsents := sents_of_talk htalking
    exact ⟨⟨hview, hsigning, hsents.symm ▸ htalking, rfl⟩, hsents.symm ▸ hrests⟩
  · exact absurd (henabled.symm.trans hsends.controls.sendDisabled) Bool.false_ne_true

/-- The task is the one that sends, and `tail` stands below its message. -/
structure InFlight (browser : Browser) (signal thinking : ℕ) (x : Sending) (tail : List Element)
    (v : Sight Ui Note) :
    Prop where
  note : v.note = .sending x
  others : Others v.shared v.before v.after
  tidy : v.shared.Tidy
  sends : Sends browser v.shared.toChat (sents v.before) x tail
  signal : x.signal = signal
  thinking : x.thinking = thinking

variable {signal thinking : ℕ} {v : Sight Ui Note} {tail : List Element}

theorem InFlight.sound (h : InFlight browser signal thinking x [] v) : v.Sound (Kept browser) := by
  obtain ⟨shared, before, note, after⟩ := v
  obtain ⟨rfl, hothers, htidy, hsends, -, -⟩ := h
  exact kept_sending.mpr ⟨hothers, htidy, hsends⟩

/-- The task hears something, and is not stopped. -/
theorem InFlight.hear {shared : Ui} {before after : List Note}
    (h : InFlight browser signal thinking x tail ⟨shared, before, .sending x, after⟩) (heard : Heard)
    (hinput : heard.input = x.heard.input) (hraised : heard.raised = none) :
    InFlight browser signal thinking { x with heard } tail
      ⟨shared, before, .sending { x with heard }, after⟩ := by
  refine ⟨rfl, h.others, h.tidy, h.sends.hear heard hinput fun hstopped => ?_, h.signal, h.thinking⟩
  rw [Heard.stopped, hraised] at hstopped
  cases hstopped

/-- While the task waits, its message stays in flight. -/
theorem InFlight.wait (h : InFlight browser signal thinking x [] v) (hwaits : c.waits = true)
    {Q : Except Exn (Reply c) → Sight Ui Note → Prop}
    (hQ : ∀ o shared before after, InFlight browser signal thinking x [] ⟨shared, before, .sending x, after⟩ →
      (∀ e, o = .error e → c.sure = false ∧ ∀ message, e = .abort message → ∃ signal ∈ shared.aborted,
        c.signal = some signal) → Q o ⟨shared, before, x.noted c o, after⟩) :
    Keeping browser (call c) Q v := by
  have hpage : (page browser).waits c = true := hwaits
  refine keeps_wait hpage h.sound fun o shared before after shared' hkept hanswers => ?_
  rw [h.note] at hkept ⊢
  obtain ⟨rfl, hraises⟩ : shared' = shared ∧ _ := answers_waits hwaits hanswers
  obtain ⟨hothers, htidy, hsends⟩ := kept_sending.mp hkept
  exact hQ o shared' before after ⟨rfl, hothers, htidy, hsends, h.signal, h.thinking⟩ hraises

/-- The task goes on later, with its message in flight as it was. -/
theorem InFlight.resume (h : InFlight browser signal thinking x [] v)
    {Q : Except Exn Unit → Sight Ui Note → Prop}
    (hQ : ∀ v', InFlight browser signal thinking x [] v' → Q (.ok ()) v') :
    Keeping browser (call .resume) Q v := by
  refine h.wait rfl fun (o : Except Exn Unit) shared before after hflight hraises => ?_
  cases o with
  | ok _ => exact hQ _ hflight
  | error e => cases (hraises e rfl).1

/-! ### Rendering -/

/-- The stream of the answer is being read, or it has ended. -/
structure Sending.Streams (x : Sending) (done : Bool) : Prop where
  raised : x.heard.raised = none
  response : ∃ res, x.heard.response = some res ∧ res.status ≠ 401 ∧ res.isOk = true ∧ res.unreadable = none
  done : x.heard.done = done

theorem Sending.Streams.outcome {done : Bool} (h : x.Streams done) : x.outcome browser =
    if done then if browser.deltas x.reads = [] then .empty else .answered else .failed [] := by
  obtain ⟨res, hresponse, hstatus, hok, hreadable⟩ := h.response
  rw [Sending.outcome, h.raised, hresponse, h.done]
  simp only [if_neg hstatus, hok, if_true, hreadable]

/-- What `_renderStream` carries is what is shown. -/
structure Renders (browser : Browser) (x : Sending) (carried : Rendered) : Prop where
  accumulated : carried.accumulated = ((browser.deltas x.reads).take x.shown).flatMap browser.stringOf
  assistantDiv : carried.assistantDiv = x.bubble

theorem keeps_renderDeltas {deltas : List Json} {carried : Rendered}
    (hflight : InFlight browser signal thinking x [] v) (hstreams : x.Streams false)
    (hcarried : Renders browser x carried)
    (hdeltas : (browser.deltas x.reads).drop x.shown = deltas) :
    Keeping browser (renderDeltas browser thinking deltas carried)
      (onOk (fun rendered v => ∃ x', InFlight browser signal thinking x' [] v ∧ Renders browser x' rendered ∧
        x'.Streams false ∧ x'.reads = x.reads ∧ x'.shown = (browser.deltas x.reads).length)
        fun _ _ => False) v := by
  induction deltas generalizing x carried v with
  | nil =>
    have hlength := List.drop_eq_nil_iff.mp hdeltas
    exact ⟨x, hflight, hcarried, hstreams, rfl, le_antisymm hflight.sends.shown hlength⟩
  | cons delta deltas ih =>
    have hshown : x.shown < (browser.deltas x.reads).length := by
      by_contra hle
      rw [List.drop_eq_nil_iff.mpr (not_lt.mp hle)] at hdeltas
      cases hdeltas
    obtain ⟨hdelta, hrest⟩ : (browser.deltas x.reads)[x.shown] = delta ∧
        (browser.deltas x.reads).drop (x.shown + 1) = deltas := by
      rw [List.drop_eq_getElem_cons hshown] at hdeltas
      exact List.cons.inj hdeltas
    obtain ⟨accumulated, assistantDiv⟩ := carried
    obtain ⟨hacc, hdiv⟩ := hcarried
    dsimp only at hacc hdiv
    have hnext : accumulated ++ browser.stringOf delta =
        ((browser.deltas x.reads).take (x.shown + 1)).flatMap browser.stringOf := by
      rw [hacc, ← List.take_append_getElem hshown, List.flatMap_append, List.flatMap_singleton, hdelta]
    refine wp_bind.mpr (hflight.resume fun v hflight => ?_)
    obtain ⟨shared, before, note, after⟩ := v
    obtain ⟨rfl, hothers, htidy, hsends, hsignal, rfl⟩ := hflight
    dsimp only [onOk]
    rw [hnext]
    cases hbubble : x.bubble with
    | none =>
      rw [hdiv.trans hbubble]
      have hzero : x.shown = 0 := hsends.bubble.mp hbubble
      have hfirst := hsends.first htidy hbubble (by omega)
      refine keeps_step (c := .remove x.thinking) rfl (keeps_step (c := .append _) rfl ?_)
      rw [hzero] at hrest ⊢
      exact ih (x := { x with bubble := some shared.created, shown := 1 })
        ⟨rfl, hothers.same hothers.view rfl, (htidy.remove _).append _, hfirst, hsignal, rfl⟩
        ⟨hstreams.raised, hstreams.response, hstreams.done⟩ ⟨rfl, rfl⟩ hrest
    | some id =>
      rw [hdiv.trans hbubble]
      refine keeps_step (c := .change id _) rfl ?_
      exact ih (x := { x with shown := x.shown + 1 })
        ⟨rfl, hothers.same hothers.view rfl, htidy.change _ _, hsends.next htidy hbubble hshown, hsignal, rfl⟩
        ⟨hstreams.raised, hstreams.response, hstreams.done⟩ ⟨rfl, hbubble.symm⟩ hrest

/-- What the loop of `_iterSSEDeltas` carries is what has been read, and all of it is shown. -/
structure Carries (browser : Browser) (x : Sending) (carried : Reading browser) : Prop where
  streams : x.Streams false
  renders : Renders browser x carried.toRendered
  reading : (carried.state, carried.buf) = browser.readFrom browser.newReading x.reads
  shown : x.shown = (browser.deltas x.reads).length

/-- A task has been interrupted, and has heard of it. -/
def Fails (browser : Browser) (signal thinking : ℕ) (e : Exn) (v : Sight Ui Note) : Prop :=
  ∃ x, InFlight browser signal thinking x [] v ∧ x.outcome browser = e.outcome

/-- The request or a read has raised. -/
theorem InFlight.fail {e : Exn} {shared : Ui} {before after : List Note}
    (h : InFlight browser signal thinking x [] ⟨shared, before, .sending x, after⟩)
    (hc : c.signal = some signal)
    (hraises : ∀ message, e = .abort message → ∃ signal ∈ shared.aborted, c.signal = some signal) :
    Fails browser signal thinking e ⟨shared, before, x.noted c (.error e), after⟩ := by
  obtain ⟨-, hothers, htidy, hsends, hsignal, hthinking⟩ := h
  have hnoted : x.noted c (.error e) = .sending { x with heard.raised := some e } := by
    cases c with
    | fetch method url body signal' =>
      obtain rfl : signal' = some signal := hc
      rfl
    | read => rfl
    | _ => cases hc
  rw [hnoted]
  refine ⟨_, ⟨rfl, hothers, htidy, hsends.hear _ rfl fun hstopped => ?_, hsignal, hthinking⟩, rfl⟩
  cases e with
  | abort message =>
    obtain ⟨signal', haborted, hsignal'⟩ := hraises message rfl
    obtain rfl : signal = signal' := Option.some.inj (hc.symm.trans hsignal')
    exact hsignal ▸ haborted
  | _ => cases hstopped

/-- The stream has ended, and all that was read is shown. -/
def Reads (browser : Browser) (signal thinking : ℕ) (assistantDiv : Option ℕ) (v : Sight Ui Note) :
    Prop :=
  ∃ x, InFlight browser signal thinking x [] v ∧ x.Streams true ∧ assistantDiv = x.bubble ∧
    x.shown = (browser.deltas x.reads).length

theorem keeps_readRound {carried : Reading browser} (hflight : InFlight browser signal thinking x [] v)
    (hcarried : Carries browser x carried) :
    Keeping browser (readRound browser signal thinking carried)
      (roundPost (fun carried v => ∃ x, InFlight browser signal thinking x [] v ∧ Carries browser x carried)
        (onOk (Reads browser signal thinking) (Fails browser signal thinking))) v := by
  refine wp_bind.mpr (hflight.wait rfl
    fun (o : Except Exn (Option (List UInt8))) shared before after hflight hraises => ?_)
  cases o with
  | error e => exact hflight.fail rfl (hraises e rfl).2
  | ok value =>
    cases value with
    | none =>
      have hstreams := hcarried.streams
      exact ⟨{ x with heard.done := true }, hflight.hear _ rfl hstreams.raised,
        ⟨hstreams.raised, hstreams.response, rfl⟩, hcarried.renders.assistantDiv, hcarried.shown⟩
    | some value =>
      obtain ⟨-, hothers, htidy, hsends, hsignal, hthinking⟩ := hflight
      have htake : (browser.deltas (x.reads ++ [value])).take x.shown =
          (browser.deltas x.reads).take x.shown := by
        rw [deltas_append, List.take_append_of_le_length hcarried.shown.le]
      have hdrop : (browser.deltas (x.reads ++ [value])).drop x.shown =
          browser.newDeltas (browser.readFrom browser.newReading x.reads) value := by
        rw [deltas_append, hcarried.shown, List.drop_left]
      have hrenders : Renders browser { x with reads := x.reads ++ [value] } carried.toRendered :=
        ⟨hcarried.renders.accumulated.trans (by rw [htake]), hcarried.renders.assistantDiv⟩
      rw [← hcarried.reading] at hdrop
      refine wp_bind.mpr (wp_mono (keeps_renderDeltas
        ⟨rfl, hothers, htidy, hsends.read hcarried.shown value, hsignal, hthinking⟩
        ⟨hcarried.streams.raised, hcarried.streams.response, hcarried.streams.done⟩ hrenders hdrop)
      fun r v hr => ?_)
      cases r with
      | error e => exact hr.elim
      | ok rendered =>
        obtain ⟨x', hflight', hrenders', hstreams', hreads, hshown⟩ := hr
        refine ⟨x', hflight', hstreams', hrenders', ?_, hreads ▸ hshown⟩
        rw [hreads, readFrom_append, ← hcarried.reading]
        rfl

theorem keeps_renderStream (rounds : ℕ) (hflight : InFlight browser signal thinking x [] v)
    (hstreams : x.Streams false) (hreads : x.reads = []) (hshown : x.shown = 0) :
    Keeping browser (awaited (renderStream browser rounds signal thinking))
      (onOk (Reads browser signal thinking) (Fails browser signal thinking)) v := by
  have hstream : Keeping browser (renderStream browser rounds signal thinking)
      (onOk (Reads browser signal thinking) (Fails browser signal thinking)) v := by
    refine wp_loop (fun _ carried v => ∃ x, InFlight browser signal thinking x [] v ∧ Carries browser x carried)
      (fun _ carried v ⟨x, hflight, hcarried⟩ => keeps_readRound hflight hcarried)
      (fun carried v ⟨x, hflight, hcarried⟩ => ⟨x, hflight, hcarried.streams.outcome⟩)
      ⟨x, hflight, hstreams, ⟨?_, ?_⟩, ?_, ?_⟩
    · rw [hshown]
      rfl
    · exact (hflight.sends.bubble.mpr hshown).symm
    · rw [hreads]
      rfl
    · rw [hreads, hshown]
      rfl
  refine wp_finallyDo.mpr (wp_mono hstream fun r v hr => ?_)
  cases r with
  | ok assistantDiv =>
    obtain ⟨x, hflight, hread⟩ := hr
    exact hflight.resume fun v hflight => ⟨x, hflight, hread⟩
  | error e =>
    obtain ⟨x, hflight, hstopped⟩ := hr
    exact hflight.resume fun v hflight => ⟨x, hflight, hstopped⟩

/-! ### The exchange -/

/-- What has become of the message stands below it. -/
def Closes (browser : Browser) (signal thinking : ℕ) (v : Sight Ui Note) : Prop :=
  ∃ x, InFlight browser signal thinking x (x.outcome browser).told v ∧ x.Told browser v.shared.aborted

/-- An element tells the outcome. -/
theorem InFlight.tell {text : Text} (hflight : InFlight browser signal thinking x [] v)
    (htold : (x.outcome browser).told = [.error text]) (hended : x.Told browser v.shared.aborted)
    {f : ℕ → UiTask α} {Q : Except Exn α → Sight Ui Note → Prop}
    (hf : ∀ id v, Closes browser signal thinking v → Keeping browser (f id) Q v) :
    Keeping browser (call (.append (.error text)) >>= f) Q v := by
  obtain ⟨shared, before, note, after⟩ := v
  obtain ⟨rfl, hothers, htidy, hsends, hsignal, hthinking⟩ := hflight
  refine keeps_step (c := .append (.error text)) rfl (hf _ _ ⟨x, ?_, hended⟩)
  exact ⟨rfl, hothers.same hothers.view rfl, htidy.append _, htold ▸ hsends.tell _, hsignal, hthinking⟩

/-- Of a message that got no stream, nothing is shown. -/
theorem told_unanswered (hshown : x.shown = 0) (aborted : List ℕ)
    (houtcome : x.outcome browser = .unauthorised ∨
      ∃ status body, x.outcome browser = .refused status body) :
    x.Told browser aborted := by
  refine ⟨(Nat.le_of_eq hshown).trans (Nat.zero_le _), ?_⟩
  rcases houtcome with houtcome | ⟨status, body, houtcome⟩
  · rw [houtcome]
    exact hshown
  · rw [houtcome]
    exact hshown

/-- How the request ends: with what has become of the message told, with a stream that was read, or with
what it has raised. -/
def Requested (browser : Browser) (signal thinking : ℕ) :
    Except Exn (Option (Option ℕ)) → Sight Ui Note → Prop :=
  onOk (fun received v => received.elim (Closes browser signal thinking v)
    fun assistantDiv => Reads browser signal thinking assistantDiv v) (Fails browser signal thinking)

theorem InFlight.expire (hflight : InFlight browser signal thinking x [] v)
    (houtcome : x.outcome browser = .unauthorised) (hshown : x.shown = 0) :
    Keeping browser (do
      let _ ← call (.showLogin sessionExpired)
      pure none) (Requested browser signal thinking) v := by
  obtain ⟨shared, before, note, after⟩ := v
  obtain ⟨rfl, hothers, htidy, hsends, hsignal, hthinking⟩ := hflight
  refine keeps_step (c := .showLogin sessionExpired) rfl ⟨x, ?_, told_unanswered hshown _ (.inl houtcome)⟩
  rw [houtcome]
  exact ⟨rfl, hothers.same rfl rfl, htidy, hsends, hsignal, hthinking⟩

theorem InFlight.refuse {status : ℕ} {body : Text} (hflight : InFlight browser signal thinking x [] v)
    (houtcome : x.outcome browser = .refused status body) (hshown : x.shown = 0) :
    Keeping browser (do
      let _ ← call (.append (.error (serverError status body)))
      pure none) (Requested browser signal thinking) v := by
  have htold := told_unanswered hshown v.shared.aborted (.inr ⟨status, body, houtcome⟩)
  exact hflight.tell (by rw [houtcome]; rfl) htold fun _ _ h => h

theorem keeps_request (rounds : ℕ) (text input : Text) (hflight : InFlight browser signal thinking x [] v)
    (hheard : x.heard = { input }) (hreads : x.reads = []) (hshown : x.shown = 0) :
    Keeping browser (request browser rounds signal thinking text) (Requested browser signal thinking)
      v := by
  obtain ⟨shared, before, note, after⟩ := v
  obtain rfl : note = .sending x := hflight.note
  refine keeps_step (c := .readModel) rfl (keeps_step (c := .readMode) rfl ?_)
  have hasked := hflight.hear { input, model := some shared.model, mode := some shared.mode }
    (by rw [hheard]) rfl
  have hnote : Note.noted (Note.noted (.sending x) .readModel (.ok shared.model)) .readMode
      (.ok shared.mode) =
      .sending { x with heard := { input, model := some shared.model, mode := some shared.mode } } := by
    simp only [Note.noted, Sending.noted, hheard]
  rw [hnote]
  refine wp_bind.mpr (hasked.wait rfl
    fun (o : Except Exn Response) shared' before after hflight hraises => ?_)
  cases o with
  | error e => exact hflight.fail rfl (hraises e rfl).2
  | ok res =>
    -- What the task has heard with the response.
    let heard : Heard :=
      { input, model := some shared.model, mode := some shared.mode, response := some res }
    have hflight : InFlight browser signal thinking { x with heard } []
        ⟨shared', before, .sending { x with heard }, after⟩ := hflight.hear heard rfl rfl
    change Keeping browser _ _ ⟨shared', before, .sending { x with heard }, after⟩
    split
    · next hstatus => exact hflight.expire (by simp [Sending.outcome, heard, hstatus]) hshown
    · next hstatus =>
      split
      · next hok =>
        cases hreadable : res.unreadable with
        | some message =>
          exact ⟨_, hflight,
            by simp [Sending.outcome, heard, hstatus, hok, hreadable, Exn.outcome, Exn.message]⟩
        | none =>
          have hstreams : Sending.Streams { x with heard } false :=
            ⟨rfl, ⟨res, rfl, hstatus, hok, hreadable⟩, rfl⟩
          refine wp_bind.mpr (wp_mono (keeps_renderStream rounds hflight hstreams hreads hshown)
            fun r v hr => ?_)
          cases r <;> exact hr
      · next hbad =>
        refine wp_bind.mpr (wp_tryCatch.mpr (hflight.wait rfl ?_))
        intro (o : Except Exn Text) shared'' before after hflight _
        have hrefuse (body : Text) :=
          have houtcome : Sending.outcome browser { x with heard := { heard with body } } =
              .refused res.status body := by
            simp [Sending.outcome, heard, hstatus, hbad]
          (hflight.hear { heard with body } rfl rfl).refuse houtcome hshown
        cases o with
        | ok body => exact hrefuse body
        | error e => cases e <;> exact hrefuse []

theorem keeps_exchange (rounds : ℕ) (text input : Text)
    (hflight : InFlight browser signal thinking x [] v)
    (hheard : x.heard = { input }) (hreads : x.reads = []) (hshown : x.shown = 0) :
    Keeping browser (exchange browser rounds signal thinking text)
      (onOk (fun _ v => Closes browser signal thinking v) fun _ _ => False) v := by
  refine wp_bind.mpr (wp_tryCatch.mpr (wp_mono
    (keeps_request rounds text input hflight hheard hreads hshown) fun r v hr => ?_))
  cases r with
  | error e =>
    obtain ⟨x, hflight, houtcome⟩ := hr
    have htold : x.Told browser v.shared.aborted := by
      refine ⟨hflight.sends.shown, ?_⟩
      cases e with
      | abort message =>
        rw [houtcome]
        exact hflight.sends.stopped (stopped_of_outcome houtcome)
      | _ =>
        rw [houtcome]
        trivial
    cases e with
    | abort message =>
      exact wp_bind.mpr (hflight.tell (by rw [houtcome]; rfl) htold fun _ _ h => h)
    | _ => exact wp_bind.mpr (hflight.tell (by rw [houtcome]; rfl) htold fun _ _ h => h)
  | ok received =>
    cases received with
    | none => exact hr
    | some assistantDiv =>
      obtain ⟨x, hflight, hstreams, rfl, hall⟩ := hr
      have houtcome : x.outcome browser = if browser.deltas x.reads = [] then .empty else .answered :=
        hstreams.outcome
      refine wp_tryCatch.mpr ?_
      split
      · next hnone =>
        have hzero : x.shown = 0 := hflight.sends.bubble.mp hnone
        have hempty : browser.deltas x.reads = [] :=
          List.eq_nil_of_length_eq_zero (hall.symm.trans hzero)
        rw [if_pos hempty] at houtcome
        refine hflight.tell (by rw [houtcome]; rfl) ⟨hflight.sends.shown, ?_⟩ fun _ _ h => h
        rw [houtcome]
        exact hzero
      · next hsome =>
        have hpos : 0 < x.shown :=
          Nat.pos_of_ne_zero fun hzero => hsome (hflight.sends.bubble.mpr hzero)
        have hsomething : browser.deltas x.reads ≠ [] := List.ne_nil_of_length_pos (hall ▸ hpos)
        rw [if_neg hsomething] at houtcome
        refine ⟨x, houtcome ▸ hflight, hflight.sends.shown, ?_⟩
        rw [houtcome]
        exact ⟨hpos, hall⟩

/-- The `finally` of `sendMessage`. -/
theorem keeps_close (hcloses : Closes browser signal thinking v) :
    Keeping browser (do
      let _ ← call (.remove thinking)
      call .unlockUi) (EndsResting browser) v := by
  obtain ⟨shared, before, note, after⟩ := v
  obtain ⟨x, ⟨rfl, hothers, htidy, hsends, -, rfl⟩, htold⟩ := hcloses
  refine keeps_step (c := .remove x.thinking) rfl (keeps_act (c := .unlockUi) rfl ⟨?_, rfl⟩)
  exact kept_sent (hothers.same hothers.view rfl) (htidy.remove _).unlock (hsends.finish htidy htold)

theorem keeps_sendMessage (rounds : ℕ) {shared : Ui} (hsound : Kept browser shared (notes ++ [.idle])) :
    Keeping browser (sendMessage browser rounds) (EndsResting browser) ⟨shared, notes, .idle, []⟩ := by
  refine keeps_step (c := .readInput) rfl (keeps_step (c := .readSendDisabled) rfl ?_)
  split
  · exact ⟨hsound.read _, rfl⟩
  · next henabled =>
    have hdisabled : shared.sendDisabled = false := by
      rw [not_or] at henabled
      exact Bool.eq_false_iff.mpr henabled.2
    obtain ⟨hothers, hrests⟩ := hsound.resting hdisabled
    refine keeps_step (c := .setInput []) rfl ?_
    refine keeps_step (c := .newController) rfl (keeps_step (c := .lockUi) rfl ?_)
    refine keeps_step (c := .append (.user _)) rfl (keeps_step (c := .append .thinking) rfl ?_)
    have htidy : shared.Tidy := hsound.tidy
    refine wp_finallyDo.mpr (wp_mono (keeps_exchange (x := shared.sent shared.input) rounds _ shared.input
      ⟨rfl, hothers.same hothers.view rfl, ?_, hrests.send _, rfl, rfl⟩ rfl rfl rfl) fun r v hr => ?_)
    · exact (htidy.newController.lock.append _).append _
    · cases r with
      | error e => exact hr.elim
      | ok _ =>
        refine wp_mono (keeps_close hr) fun r v hv => ?_
        cases r <;> exact hv

/-! ## Runs of the page -/

theorem keeps_handler {event : UserEvent} (rounds : ℕ) {shared : Ui}
    (hkept : Kept browser shared (notes ++ [.idle])) (henabled : event.enabled shared = true) :
    Keeping browser (event.handler browser rounds) (EndsResting browser) ⟨shared, notes, .idle, []⟩ := by
  have hv : Stands browser .idle ⟨shared, notes, .idle, []⟩ := ⟨hkept, rfl⟩
  cases event with
  | load => exact keeps_neutral (calls_init fun _ hc _ => hc) hv
  | submit username password =>
    exact keeps_submitLogin username password hv (Bool.not_eq_true' _ ▸ henabled)
  | clickLogout => exact keeps_neutral (calls_logout fun _ hc _ => hc) hv
  | send => exact keeps_sendMessage rounds hkept
  | clickStop => exact keeps_neutral (calls_neutral (c := .abort) rfl) hv
  | typeText text => exact keeps_neutral (calls_neutral (c := .setInput text) rfl) hv
  | chooseModel id => exact keeps_neutral (calls_neutral (c := .chooseModel id) rfl) hv
  | chooseMode mode => exact keeps_neutral (calls_neutral (c := .chooseMode mode) rfl) hv

theorem Kept.fresh (h : Kept browser ui notes) : Kept browser ui (notes ++ [.idle]) := by
  refine ⟨h.view, ?_, h.tidy, ?_⟩
  · rw [List.countP_append]
    exact h.signingIn
  · rw [talk_append]
    exact (List.append_nil (talk notes)).symm ▸ h.talks

theorem kept_start : Kept browser {} [] := by
  refine ⟨rfl, rfl, ⟨List.nodup_nil, nofun, nofun, nofun⟩, [], .inl ⟨rfl, ?_⟩⟩
  exact ⟨⟨rfl, rfl, rfl, rfl, rfl⟩, rfl, nofun, rfl⟩

abbrev Page := Effects.Threads UiIface Exn Ui Note

/-- The notes of the messages that are in flight. -/
def inFlight (s : Page) : List Sending := sends (s.threads.map Thread.note)

/-- The messages that have ended, in their order. -/
def exchanges (s : Page) : List Sending := sents (s.threads.map Thread.note)

/-- The page shows the messages that have ended, and the message that is in flight, if there is one. -/
def Shown (browser : Browser) (chat : Chat) (finished : List Sending) : List Sending → Prop
  | [] => chat.Controls false ∧ chat.elements = finished.flatMap (Sending.exchanged browser)
  | [x] => chat.Controls true ∧ chat.abortCtl = some x.signal ∧
    chat.elements = finished.flatMap (Sending.exchanged browser) ++ x.elements browser
  | _ => False

theorem Sends.shows (h : Sends browser chat finished x []) :
    (∀ y ∈ finished, y.Told browser chat.aborted) ∧ Shown browser chat finished [x] := by
  obtain ⟨before, user, after, hnodes, ⟨htold, hbefore⟩, htail⟩ := h.nodes
  obtain rfl : after = [] := List.map_eq_nil_iff.mp htail
  refine ⟨htold, h.controls, h.abortCtl, ?_⟩
  rw [Chat.elements, hnodes, List.map_append, hbefore, List.map_cons, List.map_cons, List.map_nil,
    Sending.elements]
  cases hbubble : x.bubble with
  | none =>
    rw [if_pos (h.bubble.mp hbubble), Sending.last, hbubble]
  | some id =>
    have hshown : x.shown ≠ 0 := fun hzero => by
      rw [h.bubble.mpr hzero] at hbubble
      cases hbubble
    rw [if_neg hshown, Sending.last, hbubble]

theorem Kept.shows (h : Kept browser ui notes) : (∀ x ∈ sents notes, x.Told browser ui.aborted) ∧
    Shown browser ui.toChat (sents notes) (sends notes) := by
  obtain ⟨finished, ⟨htalking, hrests⟩ | ⟨x, htalking, hsends⟩⟩ := h.talks
  · rw [← sents_talk, ← sends_talk, htalking, sents_map, sends_map]
    exact ⟨hrests.ended.1, hrests.controls, hrests.ended.2⟩
  · have hsents : sents notes = finished := by
      rw [← sents_talk, htalking, sents, List.filterMap_append]
      exact (List.append_nil _).trans (sents_map finished)
    have hsending : sends notes = [x] := by
      rw [← sends_talk, htalking, sends, List.filterMap_append]
      exact congrArg (· ++ [x]) (sends_map finished)
    rw [hsents, hsending]
    exact hsends.shows

/-- What holds of a run. -/
theorem kept_run {s : Page} (hrun : (page browser).Run {} s) :
    Kept browser s.shared (s.threads.map Thread.note) ∧
      ∀ t ∈ s.threads, (page browser).Waiting (Kept browser) (fun note => note.rests = true) t := by
  have hstarts : ∀ shared prog notes, (page browser).starts shared prog → Kept browser shared notes →
      Keeping browser prog (EndsResting browser) ⟨shared, notes, .idle, []⟩ := by
    rintro shared _ notes ⟨event, rounds, henabled, rfl⟩ hkept
    exact keeps_handler rounds hkept.fresh henabled
  exact run_inv hstarts kept_start hrun

/-- In every state between two turns of every run of the page, one view is shown, at most one login
and one message are in flight, the controls are locked exactly while a message is, and the messages
are those that have ended, each with what has become of it by the answers of the server, and the one in
flight with all that has been shown of it. Once every task has finished, nothing is locked. -/
theorem page_shown (browser : Browser) (s : Page) (hrun : (page browser).Run {} s) :
    s.shared.loginHidden = !s.shared.chatHidden ∧
      s.threads.countP (fun t => t.note.isSigningIn) = (if s.shared.loginDisabled then 1 else 0) ∧
      (∀ x ∈ exchanges s, x.Told browser s.shared.aborted) ∧
      Shown browser s.shared.toChat (exchanges s) (inFlight s) ∧
      ((∀ t ∈ s.threads, ∃ r, t.rest = .ret r) → s.shared.Controls false ∧ s.shared.loginDisabled = false) := by
  obtain ⟨hkept, hthreads⟩ := kept_run hrun
  have hsigning := hkept.signingIn
  obtain ⟨htold, hshown⟩ := hkept.shows
  refine ⟨hkept.view, ?_, htold, hshown, fun hfinished => ?_⟩
  · rw [List.countP_map] at hsigning
    exact hsigning
  · have hrests : ∀ note ∈ s.threads.map Thread.note, note.rests = true := by
      intro note hnote
      obtain ⟨t, ht, rfl⟩ := List.mem_map.mp hnote
      obtain ⟨r, hrest⟩ := hfinished t ht
      exact (hthreads t ht).1 r hrest
    have hnone : sends (s.threads.map Thread.note) = [] := by
      refine List.filterMap_eq_nil_iff.mpr fun note hnote => ?_
      have := hrests note hnote
      cases note <;> first | rfl | cases this
    have hidle : ∀ note ∈ s.threads.map Thread.note, ¬note.isSigningIn = true := by
      intro note hnote
      have := hrests note hnote
      cases note <;> first | exact Bool.false_ne_true | cases this
    rw [hnone] at hshown
    refine ⟨hshown.1, ?_⟩
    rw [List.countP_eq_zero.mpr hidle] at hsigning
    cases hlogin : s.shared.loginDisabled with
    | false => rfl
    | true =>
      rw [hlogin] at hsigning
      cases hsigning

/-- A message is in flight. -/
def sampleSending : Ui where
  sendDisabled := true
  sendHidden := true
  stopHidden := false
  modelDisabled := true
  modeDisabled := true
  abortCtl := some 0
  controllers := 1
  nodes := [(0, .user ['?']), (1, .thinking)]
  created := 2

/-- The user has clicked on `stopBtn`. -/
def sampleAborted : Ui := { sampleSending with aborted := [0] }

def sampleEnded : Ui where
  controllers := 1
  aborted := [0]
  nodes := [(0, .user ['?']), (2, .error stoppedText)]
  created := 3

def sampleCall : Call := .fetch "POST".toList "/v1/chat/completions".toList
  (some (chatRequest [] ['?'] "augmented".toList)) (some 0)

def sampleMessage : Sending where
  signal := 0
  heard := { input := ['?'], model := some [], mode := some "augmented".toList }
  thinking := 1

/-- What is noted in the end. -/
def sampleStopped : Sending := { sampleMessage with heard.raised := some (.abort []) }

def samplePage : Page :=
  ⟨sampleEnded, [⟨.ret (.ok ()), .idle⟩, ⟨.ret (.ok ()), .sent sampleStopped⟩, ⟨.ret (.ok ()), .idle⟩]⟩

theorem sample_turns : ∃ k : Except Exn (Reply sampleCall) → UiTask Unit,
    (page sampleBrowser).Turn (sendMessage sampleBrowser 0) .idle { input := ['?'] }
    (.call sampleCall k) (.sending sampleMessage) sampleSending ∧
    (page sampleBrowser).Turn (k (.error (.abort []))) (.sending sampleStopped) sampleAborted
      (.ret (.ok ())) (.sent sampleStopped) sampleEnded := by
  apply Exists.intro
  constructor
  · refine .call rfl ⟨rfl, rfl⟩ (.call rfl ⟨rfl, rfl⟩ ?_)
    refine .call rfl ⟨rfl, rfl⟩ (.call rfl ⟨rfl, rfl⟩ (.call rfl ⟨rfl, rfl⟩ (.call rfl ⟨rfl, rfl⟩ ?_)))
    exact .call rfl ⟨rfl, rfl⟩ (.call rfl ⟨rfl, rfl⟩ (.call rfl ⟨rfl, rfl⟩ (.wait rfl)))
  · exact .call rfl ⟨rfl, rfl⟩ (.call rfl ⟨rfl, rfl⟩ (.call rfl ⟨rfl, rfl⟩ .finish))

/-- `?` is typed. -/
def sampleTyped : Page := ⟨{ input := ['?'] }, [⟨.ret (.ok ()), .idle⟩]⟩

theorem sample_types : (page sampleBrowser).Step ⟨{}, []⟩ sampleTyped :=
  .start ⟨.typeText ['?'], 0, rfl, rfl⟩ (.call rfl ⟨rfl, rfl⟩ .finish)

theorem sample_run : (page sampleBrowser).Run {} samplePage := by
  obtain ⟨k, hsend, hstop⟩ := sample_turns
  have hanswers : sampleAborted.answers sampleCall (.error (.abort [])) sampleAborted := by
    refine ⟨rfl, fun e he => ?_⟩
    cases he
    exact ⟨rfl, fun _ _ => ⟨0, List.mem_singleton_self 0, rfl⟩⟩
  have hserve :=
    @Step.serve _ _ _ _ (page sampleBrowser) ⟨sampleAborted, _⟩ [⟨.ret (.ok ()), .idle⟩]
    [⟨.ret (.ok ()), .idle⟩] sampleCall k
    (.sending sampleMessage) (.sent sampleStopped) (.error (.abort [])) sampleAborted sampleEnded
    (.ret (.ok ())) rfl hanswers hstop
  refine .head sample_types (.head (.start ⟨.send, 0, rfl, rfl⟩ hsend) ?_)
  exact .head (.start ⟨.clickStop, 0, rfl, rfl⟩ (.call rfl ⟨rfl, rfl⟩ .finish)) (.single hserve)

/-- The message was stopped, and the page says so. -/
theorem page_shown_sample :
    (samplePage.shared.Controls false ∧
      samplePage.shared.elements = [sampleStopped].flatMap (Sending.exchanged sampleBrowser)) ∧
    samplePage.shared.Controls false ∧ samplePage.shared.loginDisabled = false := by
  have hshown := (page_shown sampleBrowser samplePage sample_run).2.2.2
  refine ⟨hshown.1, hshown.2 fun t ht => ?_⟩
  simp only [samplePage, List.mem_cons, List.not_mem_nil, or_false] at ht
  rcases ht with rfl | rfl | rfl <;> exact ⟨_, rfl⟩

/-- An answer with the suffix. -/
def Element.marked : Element → Bool
  | .assistant _ stopped => stopped
  | _ => false

theorem unmarked_exchanged (x : Sending) : ∀ element ∈ x.exchanged browser, element.marked = false := by
  intro element helement
  rcases List.mem_cons.mp helement with rfl | helement
  · rfl
  rcases List.mem_append.mp helement with helement | helement
  · split at helement
    · cases helement
    · rw [List.mem_singleton.mp helement]
      rfl
  · cases houtcome : x.outcome browser with
    | answered | unauthorised =>
      rw [houtcome] at helement
      cases helement
    | empty | refused | stopped | failed =>
      rw [houtcome] at helement
      rw [List.mem_singleton.mp helement]
      rfl

/-- What is shown of a message that was stopped: its text, the answer so far, and that it was stopped. -/
theorem exchanged_stopped (hstopped : x.heard.stopped = true) : x.exchanged browser =
    .user x.question :: ((if x.shown = 0 then [] else [browser.answer x.reads x.shown]) ++
      [.error stoppedText]) := by
  rw [Sending.exchanged, outcome_of_stopped hstopped]
  rfl

/-- In every run, a message that was stopped has `[stopped]` below its text and what was shown of the
answer, in a message of its own. No answer ever gets the suffix, since the variable for its element is
assigned only after the stream has ended. -/
theorem answers_unmarked (browser : Browser) (s : Page) (hrun : (page browser).Run {} s) :
    (∀ element ∈ s.shared.elements, element.marked = false) ∧
    ∀ x ∈ exchanges s, x.heard.stopped = true →
      .user x.question :: ((if x.shown = 0 then [] else [browser.answer x.reads x.shown]) ++
        [.error stoppedText]) <:+: s.shared.elements := by
  have hended : ∀ (finished : List Sending), ∀ element ∈ finished.flatMap (Sending.exchanged browser),
      element.marked = false := by
    intro finished element helement
    obtain ⟨x, -, helement⟩ := List.mem_flatMap.mp helement
    exact unmarked_exchanged x element helement
  have hshown := (kept_run hrun).1.shows.2
  have helements : ∃ tail, s.shared.elements = (exchanges s).flatMap (Sending.exchanged browser) ++ tail ∧
      ∀ element ∈ tail, element.marked = false := by
    match sends (s.threads.map Thread.note), hshown with
    | [], hshown => exact ⟨[], hshown.2.trans (List.append_nil _).symm, nofun⟩
    | [x], hshown =>
      refine ⟨x.elements browser, hshown.2.2, fun element helement => ?_⟩
      rcases List.mem_pair.mp helement with rfl | rfl
      · rfl
      · split <;> rfl
  obtain ⟨tail, helements, htail⟩ := helements
  rw [helements]
  refine ⟨fun element helement => ?_, fun x hx hstopped => ?_⟩
  · rcases List.mem_append.mp helement with helement | helement
    · exact hended _ element helement
    · exact htail element helement
  · rw [← exchanged_stopped hstopped]
    have hpart : x.exchanged browser <:+: (exchanges s).flatMap (Sending.exchanged browser) :=
      List.infix_of_mem_flatten (List.mem_map_of_mem hx)
    exact hpart.trans (List.prefix_append _ _).isInfix

theorem answers_unmarked_sample :
    [.user ['?'], .error stoppedText] <:+: samplePage.shared.elements :=
  (answers_unmarked sampleBrowser samplePage sample_run).2 sampleStopped (List.mem_singleton_self _) rfl

end LocalRag.ChatUi
