-- SUMMARY: The chat page (`web/static/app.js`): its elements, and the tasks that its events start.
import LocalRag.Base.EventLoop
import LocalRag.Base.Preserves
import LocalRag.Web.SseDeltas

/-!
# Chat page

A handler of an event is a task of the page's event loop. Between two `await`s it runs
without interruption, and works on the elements of the page.
-/

namespace LocalRag.ChatUi

open PyText Effects

/-! ## The page -/

/-- A child of `messages`. -/
inductive Element where
  | user (text : Text)
  /-- An answer, and whether it has the suffix `[stopped]`. -/
  | assistant (html : Text) (stopped : Bool)
  | error (text : Text)
  | thinking
  deriving DecidableEq

/-- The messages, and the controls that sending locks. -/
structure Chat where
  sendDisabled : Bool := false
  sendHidden : Bool := false
  stopHidden : Bool := true
  modelDisabled : Bool := false
  modeDisabled : Bool := false
  /-- `_abortCtl`, by the number of the controller. -/
  abortCtl : Option ℕ := none
  controllers : ℕ := 0
  aborted : List ℕ := []
  /-- The children of `messages`, by the number of the element. -/
  nodes : List (ℕ × Element) := []
  created : ℕ := 0

structure Ui extends Chat where
  loginHidden : Bool := false
  chatHidden : Bool := true
  loginError : Text := []
  /-- `loginBtn.disabled` -/
  loginDisabled : Bool := false
  /-- `inputEl.value` -/
  input : Text := []
  /-- The options of `modelSelect`, and its value. -/
  models : List Text := []
  model : Text := []
  mode : Text := "augmented".toList

namespace Chat

variable (chat : Chat)

/-- `_lockUi` -/
def lock : Chat :=
  { chat with
    sendDisabled := true
    sendHidden := true
    stopHidden := false
    modelDisabled := true
    modeDisabled := true }

/-- `_unlockUi` -/
def unlock : Chat :=
  { chat with
    abortCtl := none
    sendDisabled := false
    sendHidden := false
    stopHidden := true
    modelDisabled := false
    modeDisabled := false }

/-- `_abortCtl = new AbortController()` -/
def newController : Chat :=
  { chat with
    abortCtl := some chat.controllers
    controllers := chat.controllers + 1 }

/-- `if (_abortCtl) _abortCtl.abort()` -/
def abort : Chat := { chat with aborted := chat.aborted ++ chat.abortCtl.toList }

/-- `messagesEl.appendChild(…)` -/
def append (element : Element) : Chat :=
  { chat with
    nodes := chat.nodes ++ [(chat.created, element)]
    created := chat.created + 1 }

/-- `….remove()` -/
def remove (id : ℕ) : Chat := { chat with nodes := chat.nodes.filter (·.1 ≠ id) }

/-- Change an element. -/
def change (id : ℕ) (f : Element → Element) : Chat :=
  { chat with nodes := chat.nodes.map fun node => if node.1 = id then (id, f node.2) else node }

end Chat

namespace Ui

variable (ui : Ui)

/-- `showLogin` -/
def showLogin (msg : Text) : Ui :=
  { ui with
    loginError := msg
    loginHidden := false
    chatHidden := true }

/-- `showChat`, before the models are loaded. -/
def showChat : Ui :=
  { ui with
    loginHidden := true
    chatHidden := false }

/-- `modelSelect.innerHTML = ''` -/
def clearModels : Ui :=
  { ui with
    models := []
    model := [] }

/-- The first option of a list is chosen. -/
def addModel (id : Text) : Ui :=
  { ui with
    models := ui.models ++ [id]
    model := if ui.models = [] then id else ui.model }

/-- The user chooses an option. -/
def chooseModel (id : Text) : Ui :=
  if id ∈ ui.models ∧ ui.modelDisabled = false then { ui with model := id } else ui

def chooseMode (mode : Text) : Ui := if ui.modeDisabled = false then { ui with mode := mode } else ui

end Ui

def setHtml (html : Text) : Element → Element
  | .assistant _ stopped => .assistant html stopped
  | element => element

def addSuffix : Element → Element
  | .assistant html _ => .assistant html true
  | element => element

/-! ## What a task does and waits for -/

inductive Exn where
  /-- `AbortError` -/
  | abort (message : Text)
  | other (message : Text)
  /-- A loop has no round left. -/
  | iterations

/-- `err.message` -/
def Exn.message : Exn → Text
  | .abort message | .other message => message
  | .iterations => []

structure Response where
  status : ℕ
  /-- The message of the exception that `body.getReader()` raises, if it raises one. -/
  unreadable : Option Text

/-- `res.ok` -/
def Response.isOk (r : Response) : Bool := 200 ≤ r.status && r.status < 300

inductive Call where
  | readInput
  | setInput (text : Text)
  | readSendDisabled
  | newController
  | lockUi
  | unlockUi
  | append (element : Element)
  | remove (id : ℕ)
  | change (id : ℕ) (f : Element → Element)
  | readModel
  | readMode
  | showLogin (msg : Text)
  | showChat
  | setLoginError (text : Text)
  | setLoginDisabled (disabled : Bool)
  | clearModels
  | addModel (id : Text)
  | abort
  /-- The user chooses a model or a mode. -/
  | chooseModel (id : Text)
  | chooseMode (mode : Text)
  /-- `await fetch(url, …)`, with the body and the controller of its signal. -/
  | fetch (method url : Text) (body : Option Json) (signal : Option ℕ)
  /-- `await res.json()` -/
  | json
  /-- `await res.text()` -/
  | text
  /-- `await reader.read()`, with the controller of the signal. Nothing is `done`. -/
  | read (signal : ℕ)
  /-- The task goes on after an `await` of another task of the page. -/
  | resume

def Reply : Call → Type
  | .readInput | .readModel | .readMode | .text => Text
  | .readSendDisabled => Bool
  | .newController | .append _ => ℕ
  | .fetch _ _ _ _ => Response
  | .json => Json
  | .read _ => Option (List UInt8)
  | _ => Unit

abbrev UiIface : Iface := ⟨Call, Reply⟩

/-- A task of the page. -/
abbrev UiTask (α : Type) := Prog UiIface Exn α

def call (c : Call) : UiTask (Reply c) := Prog.lift (I := UiIface) c

/-- The calls that are an `await`. -/
def Call.waits : Call → Bool
  | .fetch _ _ _ _ | .json | .text | .read _ | .resume => true
  | _ => false

/-- What a call does that is no `await`, and the value that it has. -/
def Ui.step (ui : Ui) : (c : Call) → Option (Reply c × Ui)
  | .readInput => some (ui.input, ui)
  | .setInput text => some ((), { ui with input := text })
  | .readSendDisabled => some (ui.sendDisabled, ui)
  | .newController => some (ui.controllers, { ui with toChat := ui.newController })
  | .lockUi => some ((), { ui with toChat := ui.lock })
  | .unlockUi => some ((), { ui with toChat := ui.unlock })
  | .append element => some (ui.created, { ui with toChat := ui.append element })
  | .remove id => some ((), { ui with toChat := ui.remove id })
  | .change id f => some ((), { ui with toChat := ui.change id f })
  | .readModel => some (ui.model, ui)
  | .readMode => some (ui.mode, ui)
  | .showLogin msg => some ((), ui.showLogin msg)
  | .showChat => some ((), ui.showChat)
  | .setLoginError text => some ((), { ui with loginError := text })
  | .setLoginDisabled disabled => some ((), { ui with loginDisabled := disabled })
  | .clearModels => some ((), ui.clearModels)
  | .addModel id => some ((), ui.addModel id)
  | .abort => some ((), { ui with toChat := ui.abort })
  | .chooseModel id => some ((), ui.chooseModel id)
  | .chooseMode mode => some ((), ui.chooseMode mode)
  | .fetch _ _ _ _ | .json | .text | .read _ | .resume => none

/-- The controller whose abortion makes the call raise `AbortError`. -/
def Call.signal : Call → Option ℕ
  | .fetch _ _ _ signal => signal
  | .read signal => some signal
  | _ => none

/-- The calls that raise nothing. -/
def Call.sure : Call → Bool
  | .resume => true
  | _ => false

/-- What is awaited may be answered in any way, but `AbortError` is raised only after an abortion. -/
def Ui.answers : Answers UiIface Exn Ui := fun c ui o ui' =>
  match ui.step c with
  | some (a, next) => o = .ok a ∧ ui' = next
  | none =>
    ui' = ui ∧ ∀ e, o = .error e → c.sure = false ∧
      ∀ message, e = .abort message → ∃ signal ∈ ui.aborted, c.signal = some signal

/-- `await task`, whose result comes in a later turn. -/
def awaited {α : Type} (task : UiTask α) : UiTask α := task.finallyDo (call .resume)

/-! ## Signing in and out -/

/-- What a task uses of the browser and of the libraries that the page loads. -/
structure Browser where
  /-- `JSON.parse` -/
  parse : Text → Option Json
  decoder : SseDeltas.TextDecoder
  /-- A value as a text. -/
  stringOf : Json → Text
  /-- `marked.parse` -/
  marked : Text → Text
  /-- `DOMPurify.sanitize` -/
  sanitize : Text → Text
  /-- The messages of exceptions: a property of `null`, a value that is no list, a loop that is cut
  off. -/
  noProperties : Text
  notIterable : Text

/-- A browser that shows texts as they are. -/
def sampleBrowser : Browser where
  parse := Json.parse
  decoder := .ascii
  stringOf value := match value with
    | .str t => t
    | value => Json.dumps value
  marked t := t
  sanitize t := t
  noProperties := []
  notIterable := []

variable (browser : Browser)

/-- `const { key } = value`; nothing is `undefined`. -/
def property (key : Text) : Json → Except Exn (Option Json)
  | .null => .error (.other browser.noProperties)
  | value => .ok (SseDeltas.property key (some value))

/-- The values of a loop over `value`. -/
def iterate : Option Json → Except Exn (List Json)
  | some (.arr items) => .ok items
  | some (.str t) => .ok (t.map fun c => .str [c])
  | _ => .error (.other browser.notIterable)

/-- The loop of `loadModels`. -/
def addModels : List Json → UiTask Unit
  | [] => pure ()
  | m :: data => do
    let id ← Prog.ret (property browser "id".toList m)
    let _ ← call (.addModel (id.elim "undefined".toList browser.stringOf))
    addModels data

/-- `loadModels` -/
def loadModels : UiTask Unit :=
  tryCatch
    (do
      let res : Response ← call (.fetch "GET".toList "/v1/models".toList none none)
      if res.isOk then do
        let body : Json ← call .json
        let data ← Prog.ret (property browser "data".toList body)
        let _ ← call .clearModels
        let items ← Prog.ret (iterate browser data)
        addModels browser items
      else pure ())
    fun _ => pure ()

/-- `showChat` -/
def showChat : UiTask Unit := do
  let _ ← call .showChat
  awaited (loadModels browser)

def invalidLogin : Text := "Invalid username or password.".toList

def loginFailed (status : ℕ) : Text := "Login failed (".toList ++ Nat.toDigits 10 status ++ ").".toList

def unreachable : Text := "Could not reach the server.".toList

/-- The handler of `submit`. -/
def submitLogin (username password : Text) : UiTask Unit := do
  let _ ← call (.setLoginDisabled true)
  let _ ← call (.setLoginError [])
  (tryCatch
    (do
      let body := Json.obj
        [("username".toList, .str (SseDeltas.trim username)), ("password".toList, .str password)]
      let res : Response ← call (.fetch "POST".toList "/auth/login".toList (some body) none)
      if res.isOk then do
        let _ ← call .json
        awaited (showChat browser)
      else do
        let _ ← call (.setLoginError (if res.status = 401 then invalidLogin else loginFailed res.status)))
    fun _ => do
      let _ ← call (.setLoginError unreachable)).finallyDo (call (.setLoginDisabled false))

/-- The handler of a click on `logoutBtn`. -/
def logout : UiTask Unit := do
  tryCatch
    (do
      let _ ← call (.fetch "POST".toList "/auth/logout".toList none none))
    fun _ => pure ()
  let _ ← call (.showLogin [])

/-- What the page starts with. -/
def init : UiTask Unit :=
  tryCatch
    (do
      let res : Response ← call (.fetch "GET".toList "/auth/status".toList none none)
      if res.isOk then do
        let body : Json ← call .json
        let authenticated ← Prog.ret (property browser "authenticated".toList body)
        if (authenticated.filter SseDeltas.truthy).isSome then awaited (showChat browser)
        else do
          let _ ← call (.showLogin [])
      else do
        let _ ← call (.showLogin []))
    fun _ => do
      let _ ← call (.showLogin [])

/-! ## Sending a message -/

/-- What `_renderStream` carries: the text so far, and its element. -/
structure Rendered where
  accumulated : Text := []
  assistantDiv : Option ℕ := none

/-- `appendMessage('assistant', html)` -/
def appendAssistant (html : Text) : UiTask ℕ :=
  call (.append (.assistant (browser.sanitize html) false))

/-- The loop of `_renderStream` over the deltas of one read. -/
def renderDeltas (thinking : ℕ) : List Json → Rendered → UiTask Rendered
  | [], carried => pure carried
  | delta :: deltas, carried => do
    let _ ← call .resume
    let accumulated := carried.accumulated ++ browser.stringOf delta
    match carried.assistantDiv with
    | none => do
      let _ ← call (.remove thinking)
      let id ← appendAssistant browser (browser.marked accumulated)
      renderDeltas thinking deltas ⟨accumulated, some id⟩
    | some id => do
      let _ ← call (.change id (setHtml (browser.sanitize (browser.marked accumulated))))
      renderDeltas thinking deltas ⟨accumulated, some id⟩

/-- What the loop of `_iterSSEDeltas` carries besides. -/
structure Reading extends Rendered where
  state : browser.decoder.State := browser.decoder.new
  buf : Text := []

/-- A round of the loop of `_iterSSEDeltas`. -/
def readRound (signal thinking : ℕ) (carried : Reading browser) :
    UiTask (Reading browser ⊕ Option ℕ) := do
  let value : Option (List UInt8) ← call (.read signal)
  match value with
  | none => pure (.inr carried.assistantDiv)
  | some value => do
    let decoded := browser.decoder.decode carried.state value
    let lines := (carried.buf ++ decoded.1).splitOn '\n'
    let deltas := lines.dropLast.filterMap (SseDeltas.lineDelta browser.parse)
    let rendered ← renderDeltas browser thinking deltas carried.toRendered
    pure (.inl { rendered with state := decoded.2, buf := lines.getLastD [] })

/-- `_renderStream`, with a bound on the reads. -/
def renderStream (rounds signal thinking : ℕ) : UiTask (Option ℕ) :=
  Prog.loop (fun _ => readRound browser signal thinking) (fun _ => throw Exn.iterations) rounds {}

def sessionExpired : Text := "Session expired. Please sign in again.".toList

def serverError (status : ℕ) (body : Text) : Text :=
  "Server error ".toList ++ Nat.toDigits 10 status ++ if body = [] then [] else ": ".toList ++ body

def noResponse : Text := "No response received.".toList

def requestFailed (message : Text) : Text := "Request failed: ".toList ++ message

def stoppedText : Text := "[stopped]".toList

/-- The `catch` of `sendMessage`, with `assistantDiv`. -/
def onError (assistantDiv : Option ℕ) : Exn → UiTask Unit
  | .abort _ =>
    match assistantDiv with
    | some id => call (.change id addSuffix)
    | none => do
      let _ ← call (.append (.error stoppedText))
  | e => do
    let _ ← call (.append (.error (requestFailed e.message)))

/-- The body of the request. -/
def chatRequest (model text mode : Text) : Json :=
  .obj [("model".toList, .str model),
    ("messages".toList, .arr [.obj [("role".toList, .str "user".toList), ("content".toList, .str text)]]),
    ("stream".toList, .bool true),
    ("rag_mode".toList, .str mode)]

/-- The `try` of `sendMessage`, up to the assignment of `assistantDiv`; nothing if it has returned
before. -/
def request (rounds signal thinking : ℕ) (text : Text) : UiTask (Option (Option ℕ)) := do
  let model : Text ← call .readModel
  let mode : Text ← call .readMode
  let res : Response ← call (.fetch "POST".toList "/v1/chat/completions".toList
    (some (chatRequest model text mode)) (some signal))
  if res.status = 401 then do
    let _ ← call (.showLogin sessionExpired)
    pure none
  else if res.isOk then
    match res.unreadable with
    | some message => throw (Exn.other message)
    | none => do
      let assistantDiv ← awaited (renderStream browser rounds signal thinking)
      pure (some assistantDiv)
  else do
    let body ← tryCatch (call .text) fun _ => pure []
    let _ ← call (.append (.error (serverError res.status body)))
    pure none

/-- The `try` of `sendMessage` with its `catch`. An exception after the assignment of `assistantDiv`
finds it assigned. -/
def exchange (rounds signal thinking : ℕ) (text : Text) : UiTask Unit := do
  let received ← tryCatch (request browser rounds signal thinking text) fun e => do
    onError none e
    pure none
  match received with
  | none => pure ()
  | some assistantDiv =>
    tryCatch
      (if assistantDiv = none then do
        let _ ← call (.append (.error noResponse))
      else pure ())
      (onError assistantDiv)

/-- `sendMessage` -/
def sendMessage (rounds : ℕ) : UiTask Unit := do
  let value : Text ← call .readInput
  let text := SseDeltas.trim value
  let disabled : Bool ← call .readSendDisabled
  if text = [] ∨ disabled = true then pure ()
  else do
    let _ ← call (.setInput [])
    let signal : ℕ ← call .newController
    let _ ← call .lockUi
    let _ ← call (.append (.user text))
    let thinking : ℕ ← call (.append .thinking)
    (exchange browser rounds signal thinking text).finallyDo do
      let _ ← call (.remove thinking)
      call .unlockUi

/-! ## Events -/

inductive UserEvent where
  | load
  | submit (username password : Text)
  | clickLogout
  /-- A click on `sendBtn`, or Enter. -/
  | send
  | clickStop
  | typeText (text : Text)
  | chooseModel (id : Text)
  | chooseMode (mode : Text)

/-- Disabled and hidden buttons have no events. -/
def UserEvent.enabled (ui : Ui) : UserEvent → Bool
  | .submit _ _ => !ui.loginDisabled
  | .clickStop => !ui.stopHidden
  | _ => true

def UserEvent.handler (rounds : ℕ) : UserEvent → UiTask Unit
  | .load => init browser
  | .submit username password => submitLogin browser username password
  | .clickLogout => logout
  | .send => sendMessage browser rounds
  | .clickStop => call .abort
  | .typeText text => call (.setInput text)
  | .chooseModel id => call (.chooseModel id)
  | .chooseMode mode => call (.chooseMode mode)

end LocalRag.ChatUi
