-- SUMMARY: The exchanges of the chat page: what is shown of a message, and how the elements change while it is in flight.
import LocalRag.Web.ChatUi

/-!
# Exchanges

A message and what becomes of it is an exchange. At any moment the page shows the
exchanges that have ended, and the one that is in flight.
-/

namespace LocalRag.ChatUi

open PyText

/-! ## Exchanges -/

/-- What a task that sends a message has read of the page, and how the server has answered. -/
structure Heard where
  /-- The values of the controls. -/
  input : Text
  model : Option Text := none
  mode : Option Text := none
  response : Option Response := none
  /-- The body of an error. -/
  body : Text := []
  /-- The stream has ended. -/
  done : Bool := false
  /-- What the request or a read has raised. -/
  raised : Option Exn := none

/-- The request or a read has raised `AbortError`. -/
def Heard.stopped (heard : Heard) : Bool :=
  match heard.raised with
  | some (.abort _) => true
  | _ => false

/-- The message that a task sends. -/
structure Sending where
  signal : ℕ
  heard : Heard
  /-- The element that says `Thinking…`, and the element of the answer. -/
  thinking : ℕ := 0
  bubble : Option ℕ := none
  reads : List (List UInt8) := []
  /-- How many of the deltas are shown. -/
  shown : ℕ := 0

def Sending.question (x : Sending) : Text := SseDeltas.trim x.heard.input

inductive Outcome where
  | answered
  /-- The stream has ended without a delta. -/
  | empty
  | unauthorised
  | refused (status : ℕ) (body : Text)
  | stopped
  | failed (message : Text)

/-- What is shown of an outcome, below the answer. -/
def Outcome.told : Outcome → List Element
  | .answered | .unauthorised => []
  | .empty => [.error noResponse]
  | .refused status body => [.error (serverError status body)]
  | .stopped => [.error stoppedText]
  | .failed message => [.error (requestFailed message)]

/-- The outcome of what was raised. -/
def Exn.outcome : Exn → Outcome
  | .abort _ => .stopped
  | e => .failed e.message

variable (browser : Browser)

/-- What has been read, as `_iterSSEDeltas` yields it. -/
def Browser.deltas (reads : List (List UInt8)) : List Json :=
  SseDeltas.iterSSEDeltas browser.parse browser.decoder reads

def Browser.html (deltas : List Json) : Text :=
  browser.sanitize (browser.marked (deltas.flatMap browser.stringOf))

def Browser.answer (reads : List (List UInt8)) (shown : ℕ) : Element :=
  .assistant (browser.html ((browser.deltas reads).take shown)) false

/-- What has become of a message, by the answers of the server. A stream that neither ends nor raises is
cut off by the bound on the reads. -/
def Sending.outcome (x : Sending) : Outcome :=
  match x.heard.raised with
  | some e => e.outcome
  | none =>
    match x.heard.response with
    | none => .failed []
    | some res =>
      if res.status = 401 then .unauthorised
      else if res.isOk then
        match res.unreadable with
        | some message => .failed message
        | none =>
          if x.heard.done then if browser.deltas x.reads = [] then .empty else .answered
          else .failed []
      else .refused res.status x.heard.body

/-- What is shown of a message that has ended. -/
def Sending.exchanged (x : Sending) : List Element :=
  .user x.question :: ((if x.shown = 0 then [] else [browser.answer x.reads x.shown]) ++
    (x.outcome browser).told)

/-- How much is shown of the answer to a message that has ended. Only a message that was stopped has
the outcome of one. -/
def Sending.Told (aborted : List ℕ) (x : Sending) : Prop :=
  x.shown ≤ (browser.deltas x.reads).length ∧
    match x.outcome browser with
    | .answered => 0 < x.shown ∧ x.shown = (browser.deltas x.reads).length
    | .empty | .unauthorised | .refused _ _ => x.shown = 0
    | .stopped => x.signal ∈ aborted
    | .failed _ => True

/-- What is shown of a message that is in flight. -/
def Sending.elements (x : Sending) : List Element :=
  [.user x.question, if x.shown = 0 then .thinking else browser.answer x.reads x.shown]

/-! ## The invariant -/

/-- The controls while a message is in flight, and while none is. -/
structure Chat.Controls (chat : Chat) (locked : Bool) : Prop where
  sendDisabled : chat.sendDisabled = locked
  sendHidden : chat.sendHidden = locked
  stopHidden : chat.stopHidden = !locked
  modelDisabled : chat.modelDisabled = locked
  modeDisabled : chat.modeDisabled = locked

def Chat.elements (chat : Chat) : List Element := chat.nodes.map Prod.snd

/-- The numbers of elements and controllers are used once. -/
structure Chat.Tidy (chat : Chat) : Prop where
  ids : (chat.nodes.map Prod.fst).Nodup
  created : ∀ node ∈ chat.nodes, node.1 < chat.created
  aborted : ∀ signal ∈ chat.aborted, signal < chat.controllers
  abortCtl : ∀ signal, chat.abortCtl = some signal → signal < chat.controllers

/-- The elements show the messages that have ended. -/
def Ended (aborted : List ℕ) (finished : List Sending) (elements : List Element) : Prop :=
  (∀ x ∈ finished, x.Told browser aborted) ∧ elements = finished.flatMap (Sending.exchanged browser)

/-- No message is in flight. -/
structure Rests (chat : Chat) (finished : List Sending) : Prop where
  controls : chat.Controls false
  abortCtl : chat.abortCtl = none
  ended : Ended browser chat.aborted finished chat.elements

/-- The last element of a message in flight. -/
def Sending.last (x : Sending) : ℕ × Element :=
  match x.bubble with
  | none => (x.thinking, .thinking)
  | some id => (id, browser.answer x.reads x.shown)

/-- The message is in flight, and `tail` stands below it. -/
structure Sends (chat : Chat) (finished : List Sending) (x : Sending) (tail : List Element) : Prop where
  controls : chat.Controls true
  abortCtl : chat.abortCtl = some x.signal
  bubble : x.bubble = none ↔ x.shown = 0
  shown : x.shown ≤ (browser.deltas x.reads).length
  thinking : x.thinking < chat.created
  stopped : x.heard.stopped = true → x.signal ∈ chat.aborted
  removed : x.bubble ≠ none → ∀ node ∈ chat.nodes, node.1 ≠ x.thinking
  nodes : ∃ before user after, chat.nodes = before ++ (user, .user x.question) :: x.last browser :: after ∧
    Ended browser chat.aborted finished (before.map Prod.snd) ∧ after.map Prod.snd = tail

variable {browser} {chat : Chat} {x : Sending} {finished : List Sending}

/-- The outcome of a stop. -/
theorem stopped_of_outcome (h : x.outcome browser = .stopped) : x.heard.stopped = true := by
  unfold Sending.outcome at h
  unfold Heard.stopped
  cases hraised : x.heard.raised with
  | some e =>
    rw [hraised] at h
    cases e with
    | abort message => rfl
    | _ => cases h
  | none =>
    rw [hraised] at h
    dsimp only at h
    split at h
    · cases h
    split at h
    · cases h
    split at h
    · split at h
      · cases h
      split at h
      · split at h <;> cases h
      · cases h
    · cases h

theorem outcome_of_stopped (h : x.heard.stopped = true) : x.outcome browser = .stopped := by
  unfold Heard.stopped at h
  unfold Sending.outcome
  split at h
  · next hraised =>
    rw [hraised]
    rfl
  · cases h

theorem Sending.Told.mono {aborted aborted' : List ℕ} (h : aborted ⊆ aborted')
    (htold : x.Told browser aborted) : x.Told browser aborted' := by
  refine ⟨htold.1, ?_⟩
  have houtcome := htold.2
  cases hcase : x.outcome browser with
  | stopped =>
    rw [hcase] at houtcome
    exact h houtcome
  | _ => rwa [hcase] at houtcome

theorem Ended.mono {aborted aborted' : List ℕ} (h : aborted ⊆ aborted') {elements : List Element}
    (hended : Ended browser aborted finished elements) : Ended browser aborted' finished elements :=
  ⟨fun x hx => (hended.1 x hx).mono h, hended.2⟩

/-! ## A message in flight -/

theorem Chat.Tidy.abort (h : chat.Tidy) : chat.abort.Tidy := by
  refine ⟨h.ids, h.created, fun signal hsignal => ?_, h.abortCtl⟩
  rcases List.mem_append.mp hsignal with hsignal | hsignal
  · exact h.aborted signal hsignal
  · exact h.abortCtl signal (Option.mem_toList.mp hsignal)

theorem Rests.abort (h : Rests browser chat finished) : Rests browser chat.abort finished := by
  obtain ⟨h₁, h₂, h₃, h₄, h₅⟩ := h.controls
  exact ⟨⟨h₁, h₂, h₃, h₄, h₅⟩, h.abortCtl, h.ended.mono fun _ h => List.mem_append_left _ h⟩

theorem Sends.abort (h : Sends browser chat finished x []) : Sends browser chat.abort finished x [] := by
  have haborted : chat.aborted ⊆ chat.abort.aborted := fun _ h => List.mem_append_left _ h
  obtain ⟨h₁, h₂, h₃, h₄, h₅⟩ := h.controls
  obtain ⟨before, user, after, hnodes, hended, htail⟩ := h.nodes
  exact ⟨⟨h₁, h₂, h₃, h₄, h₅⟩, h.abortCtl, h.bubble, h.shown, h.thinking,
    fun hset => haborted (h.stopped hset), h.removed, before, user, after, hnodes,
    hended.mono haborted, htail⟩

variable {id : ℕ} {element : Element}

theorem Chat.Tidy.newController (h : chat.Tidy) : chat.newController.Tidy := by
  refine ⟨h.ids, h.created, fun signal hsignal => Nat.lt_succ_of_lt (h.aborted signal hsignal), ?_⟩
  rintro _ ⟨⟩
  exact Nat.lt_succ_self _

theorem Chat.Tidy.lock (h : chat.Tidy) : chat.lock.Tidy := ⟨h.ids, h.created, h.aborted, h.abortCtl⟩

theorem Chat.Tidy.unlock (h : chat.Tidy) : chat.unlock.Tidy := ⟨h.ids, h.created, h.aborted, nofun⟩

theorem Chat.Tidy.append (h : chat.Tidy) (element : Element) : (chat.append element).Tidy := by
  refine ⟨?_, fun node hnode => ?_, h.aborted, h.abortCtl⟩
  · rw [Chat.append, List.map_append]
    refine List.nodup_append.mpr ⟨h.ids, List.pairwise_singleton .., ?_⟩
    intro id hid _ hnew
    obtain ⟨node, hnode, rfl⟩ := List.mem_map.mp hid
    rw [List.mem_singleton.mp hnew]
    exact (h.created node hnode).ne
  · rcases List.mem_append.mp hnode with hnode | hnode
    · exact Nat.lt_succ_of_lt (h.created node hnode)
    · rw [List.mem_singleton.mp hnode]
      exact Nat.lt_succ_self _

theorem Chat.Tidy.remove (h : chat.Tidy) (id : ℕ) : (chat.remove id).Tidy :=
  ⟨h.ids.sublist (List.filter_sublist.map _), fun node hnode => h.created node (List.mem_of_mem_filter hnode),
    h.aborted, h.abortCtl⟩

theorem ids_change (chat : Chat) (id : ℕ) (f : Element → Element) :
    (chat.change id f).nodes.map Prod.fst = chat.nodes.map Prod.fst := by
  rw [Chat.change, List.map_map]
  refine List.map_congr_left fun node _ => ?_
  dsimp only [Function.comp]
  split
  · next h => exact h.symm
  · rfl

theorem Chat.Tidy.change (h : chat.Tidy) (id : ℕ) (f : Element → Element) :
    (chat.change id f).Tidy := by
  refine ⟨ids_change chat id f ▸ h.ids, fun node hnode => ?_, h.aborted, h.abortCtl⟩
  have hid : node.1 ∈ chat.nodes.map Prod.fst := ids_change chat id f ▸ List.mem_map_of_mem hnode
  obtain ⟨node', hnode', hfst⟩ := List.mem_map.mp hid
  exact hfst ▸ h.created node' hnode'

/-- Neither of the other elements has the number of the one in the middle. -/
theorem ids_ne {before after : List (ℕ × Element)} {element : Element}
    (h : ((before ++ (id, element) :: after).map Prod.fst).Nodup) :
    (∀ node ∈ before, node.1 ≠ id) ∧ ∀ node ∈ after, node.1 ≠ id := by
  rw [List.map_append, List.map_cons, List.nodup_append, List.nodup_cons] at h
  obtain ⟨-, ⟨hafter, -⟩, hbefore⟩ := h
  refine ⟨fun node hnode => ?_, ?_⟩
  · exact hbefore node.1 (List.mem_map_of_mem hnode) id (List.mem_cons_self ..)
  · rintro node hnode rfl
    have hmem : node.1 ∈ after.map Prod.fst := List.mem_map_of_mem hnode
    exact hafter hmem

theorem remove_middle {before after : List (ℕ × Element)} (htidy : chat.Tidy)
    (hnodes : chat.nodes = before ++ (id, element) :: after) :
    (chat.remove id).nodes = before ++ after := by
  have hids := htidy.ids
  rw [hnodes] at hids
  obtain ⟨hbefore, hafter⟩ := ids_ne hids
  rw [Chat.remove, hnodes, List.filter_append, List.filter_cons_of_neg (by simp),
    List.filter_eq_self.mpr fun node hnode => decide_eq_true (hbefore node hnode),
    List.filter_eq_self.mpr fun node hnode => decide_eq_true (hafter node hnode)]

theorem remove_none (h : ∀ node ∈ chat.nodes, node.1 ≠ id) : (chat.remove id).nodes = chat.nodes := by
  rw [Chat.remove, List.filter_eq_self.mpr fun node hnode => decide_eq_true (h node hnode)]

theorem change_middle {before after : List (ℕ × Element)} (htidy : chat.Tidy) (f : Element → Element)
    (hnodes : chat.nodes = before ++ (id, element) :: after) :
    (chat.change id f).nodes = before ++ (id, f element) :: after := by
  have hids := htidy.ids
  rw [hnodes] at hids
  obtain ⟨hbefore, hafter⟩ := ids_ne hids
  have hsame : ∀ nodes : List (ℕ × Element), (∀ node ∈ nodes, node.1 ≠ id) →
      nodes.map (fun node => if node.1 = id then (id, f node.2) else node) = nodes := by
    intro nodes h
    refine (List.map_congr_left fun node hnode => ?_).trans (List.map_id _)
    exact if_neg (h node hnode)
  rw [Chat.change, hnodes, List.map_append, List.map_cons, hsame before hbefore, hsame after hafter, if_pos rfl]

/-! The steps of a message in flight. -/

/-- The note of a message that has just been sent. -/
def Chat.sent (chat : Chat) (input : Text) : Sending :=
  { signal := chat.controllers, heard := { input }, thinking := chat.created + 1 }

theorem Rests.send (hrests : Rests browser chat finished) (input : Text) :
    Sends browser ((chat.newController.lock.append (.user (SseDeltas.trim input))).append .thinking)
      finished (chat.sent input) [] where
  controls := ⟨rfl, rfl, rfl, rfl, rfl⟩
  abortCtl := rfl
  bubble := ⟨fun _ => rfl, fun _ => rfl⟩
  shown := Nat.zero_le _
  thinking := Nat.lt_succ_self _
  stopped := nofun
  removed h := absurd rfl h
  nodes := ⟨chat.nodes, chat.created, [], List.append_assoc .., hrests.ended, rfl⟩

/-- What is heard changes nothing of what is shown. -/
theorem Sends.hear {tail : List Element} (h : Sends browser chat finished x tail) (heard : Heard)
    (hinput : heard.input = x.heard.input) (hstopped : heard.stopped = true → x.signal ∈ chat.aborted) :
    Sends browser chat finished { x with heard } tail := by
  refine ⟨h.controls, h.abortCtl, h.bubble, h.shown, h.thinking, hstopped, h.removed, ?_⟩
  have hquestion : Sending.question { x with heard } = x.question := congrArg SseDeltas.trim hinput
  rw [hquestion]
  exact h.nodes

/-- The first delta takes the place of `Thinking…`. -/
theorem Sends.first (h : Sends browser chat finished x []) (htidy : chat.Tidy) (hbubble : x.bubble = none)
    (hshown : 0 < (browser.deltas x.reads).length) :
    Sends browser ((chat.remove x.thinking).append (browser.answer x.reads 1)) finished
      { x with bubble := some chat.created, shown := 1 } [] := by
  obtain ⟨before, user, after, hnodes, hended, htail⟩ := h.nodes
  obtain rfl : after = [] := List.map_eq_nil_iff.mp htail
  have hlast : x.last browser = (x.thinking, .thinking) := by rw [Sending.last, hbubble]
  rw [hlast] at hnodes
  have hremove : (chat.remove x.thinking).nodes = (before ++ [(user, .user x.question)]) ++ [] :=
    remove_middle htidy (by rw [hnodes, List.append_assoc]; rfl)
  rw [List.append_nil] at hremove
  obtain ⟨h₁, h₂, h₃, h₄, h₅⟩ := h.controls
  refine ⟨⟨h₁, h₂, h₃, h₄, h₅⟩, h.abortCtl, ⟨nofun, nofun⟩, hshown, Nat.lt_succ_of_lt h.thinking, h.stopped,
    fun _ node hnode => ?_, before, user, [], ?_, hended, rfl⟩
  · rcases List.mem_append.mp hnode with hnode | hnode
    · exact of_decide_eq_true (List.mem_filter.mp hnode).2
    · rw [List.mem_singleton.mp hnode]
      exact h.thinking.ne'
  · rw [Chat.append, hremove, List.append_assoc]
    rfl

/-- Another delta is shown. -/
theorem Sends.next (h : Sends browser chat finished x []) (htidy : chat.Tidy) (hbubble : x.bubble = some id)
    (hshown : x.shown < (browser.deltas x.reads).length) :
    Sends browser
      (chat.change id (setHtml (browser.html ((browser.deltas x.reads).take (x.shown + 1))))) finished
      { x with shown := x.shown + 1 } [] := by
  obtain ⟨before, user, after, hnodes, hended, htail⟩ := h.nodes
  obtain rfl : after = [] := List.map_eq_nil_iff.mp htail
  have hlast : x.last browser = (id, browser.answer x.reads x.shown) := by rw [Sending.last, hbubble]
  rw [hlast] at hnodes
  have hsplit : chat.nodes =
      (before ++ [(user, .user x.question)]) ++ (id, browser.answer x.reads x.shown) :: [] := by
    rw [hnodes, List.append_assoc]
    rfl
  have hchange :=
    change_middle htidy (setHtml (browser.html ((browser.deltas x.reads).take (x.shown + 1)))) hsplit
  obtain ⟨h₁, h₂, h₃, h₄, h₅⟩ := h.controls
  refine ⟨⟨h₁, h₂, h₃, h₄, h₅⟩, h.abortCtl, ⟨fun hnone => ?_, nofun⟩, hshown, h.thinking, h.stopped,
    fun hne node hnode => ?_, before, user, [], ?_, hended, rfl⟩
  · rw [hbubble] at hnone
    cases hnone
  · have hid : node.1 ∈ chat.nodes.map Prod.fst := by
      rw [← ids_change chat id]
      exact List.mem_map_of_mem hnode
    obtain ⟨node', hnode', hfst⟩ := List.mem_map.mp hid
    exact hfst ▸ h.removed hne node' hnode'
  · rw [hchange, List.append_assoc, Sending.last]
    dsimp only
    rw [hbubble]
    rfl

/-- An element is added below the message. -/
theorem Sends.tell (h : Sends browser chat finished x []) (element : Element) :
    Sends browser (chat.append element) finished x [element] := by
  obtain ⟨before, user, after, hnodes, hended, htail⟩ := h.nodes
  obtain ⟨h₁, h₂, h₃, h₄, h₅⟩ := h.controls
  refine ⟨⟨h₁, h₂, h₃, h₄, h₅⟩, h.abortCtl, h.bubble, h.shown, Nat.lt_succ_of_lt h.thinking, h.stopped,
    fun hne node hnode => ?_, before, user, after ++ [(chat.created, element)], ?_, hended, ?_⟩
  · rcases List.mem_append.mp hnode with hnode | hnode
    · exact h.removed hne node hnode
    · rw [List.mem_singleton.mp hnode]
      exact h.thinking.ne'
  · rw [Chat.append, hnodes, List.append_assoc]
    rfl
  · rw [List.map_append, htail]
    rfl

/-- The message has ended. -/
theorem Sends.finish (h : Sends browser chat finished x (x.outcome browser).told) (htidy : chat.Tidy)
    (htold : x.Told browser chat.aborted) :
    Rests browser (chat.remove x.thinking).unlock (finished ++ [x]) := by
  refine ⟨⟨rfl, rfl, rfl, rfl, rfl⟩, rfl, ?_⟩
  obtain ⟨before, user, after, hnodes, ⟨hfinished, hbefore⟩, htail⟩ := h.nodes
  refine ⟨fun y hy => ?_, ?_⟩
  · rcases List.mem_append.mp hy with hy | hy
    · exact hfinished y hy
    · rw [List.mem_singleton.mp hy]
      exact htold
  · rw [List.flatMap_append, List.flatMap_singleton, ← hbefore]
    change ((chat.remove x.thinking).nodes).map Prod.snd = _
    cases hbubble : x.bubble with
    | none =>
      have hlast : x.last browser = (x.thinking, .thinking) := by rw [Sending.last, hbubble]
      have hshown : x.shown = 0 := h.bubble.mp hbubble
      rw [hlast] at hnodes
      have hremove : (chat.remove x.thinking).nodes = (before ++ [(user, .user x.question)]) ++ after :=
        remove_middle htidy (by rw [hnodes, List.append_assoc]; rfl)
      rw [hremove, List.map_append, List.map_append, htail, Sending.exchanged, if_pos hshown,
        List.append_assoc]
      rfl
    | some id =>
      have hlast : x.last browser = (id, browser.answer x.reads x.shown) := by rw [Sending.last, hbubble]
      have hshown : x.shown ≠ 0 := fun hzero => by
        rw [h.bubble.mpr hzero] at hbubble
        cases hbubble
      rw [remove_none (h.removed (by rw [hbubble]; nofun)), hnodes, hlast, List.map_append,
        List.map_cons, List.map_cons, htail, Sending.exchanged, if_neg hshown]
      rfl

/-! ## Reading -/

/-- What `_iterSSEDeltas` carries after some reads. -/
def Browser.readFrom (browser : Browser) :
    browser.decoder.State × Text → List (List UInt8) → browser.decoder.State × Text
  | carried, [] => carried
  | carried, value :: reads =>
    let decoded := browser.decoder.decode carried.1 value
    browser.readFrom (decoded.2, ((carried.2 ++ decoded.1).splitOn '\n').getLastD []) reads

/-- The deltas of one more read. -/
def Browser.newDeltas (browser : Browser) (carried : browser.decoder.State × Text)
    (value : List UInt8) : List Json :=
  ((carried.2 ++ (browser.decoder.decode carried.1 value).1).splitOn '\n').dropLast.filterMap
    (SseDeltas.lineDelta browser.parse)

theorem readFrom_append (carried : browser.decoder.State × Text) (reads : List (List UInt8))
    (value : List UInt8) :
    browser.readFrom carried (reads ++ [value]) =
      browser.readFrom (browser.readFrom carried reads) [value] := by
  induction reads generalizing carried with
  | nil => rfl
  | cons read reads ih => exact ih _

theorem deltasFrom_append (carried : browser.decoder.State × Text) (reads : List (List UInt8))
    (value : List UInt8) :
    SseDeltas.deltasFrom browser.parse browser.decoder carried.1 carried.2 (reads ++ [value]) =
      SseDeltas.deltasFrom browser.parse browser.decoder carried.1 carried.2 reads ++
        browser.newDeltas (browser.readFrom carried reads) value := by
  induction reads generalizing carried with
  | nil => exact List.append_nil _
  | cons read reads ih =>
    rw [List.cons_append, SseDeltas.deltasFrom, SseDeltas.deltasFrom, List.append_assoc]
    exact congrArg _ (ih (_, _))

/-- What is carried at the beginning of the stream. -/
def Browser.newReading (browser : Browser) : browser.decoder.State × Text := (browser.decoder.new, [])

theorem deltas_append (reads : List (List UInt8)) (value : List UInt8) :
    browser.deltas (reads ++ [value]) =
      browser.deltas reads ++ browser.newDeltas (browser.readFrom browser.newReading reads) value :=
  deltasFrom_append browser.newReading reads value

theorem Sends.read (h : Sends browser chat finished x [])
    (hshown : x.shown = (browser.deltas x.reads).length) (value : List UInt8) : Sends browser chat finished { x with reads := x.reads ++ [value] } [] := by
  have hle : x.shown ≤ (browser.deltas (x.reads ++ [value])).length := by
    rw [deltas_append, List.length_append]
    omega
  have hlast : Sending.last browser { x with reads := x.reads ++ [value] } = x.last browser := by
    unfold Sending.last
    cases hbubble : x.bubble with
    | none => rfl
    | some id =>
      dsimp only
      rw [Browser.answer, Browser.answer, deltas_append, List.take_append_of_le_length hshown.le]
  refine ⟨h.controls, h.abortCtl, h.bubble, hle, h.thinking, h.stopped, h.removed, ?_⟩
  rw [hlast]
  exact h.nodes

end LocalRag.ChatUi
