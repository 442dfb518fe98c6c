-- SUMMARY: What the two ways of answering say: they agree on the generated text and its sources, and say nothing of their own.
import LocalRag.Api.QueryRag
import LocalRag.Base.Preserves

/-!
# Answers

An answer consists of a generated text and what is added to it. `ask` strips the
generated text, `ask_stream_sync` yields it piece by piece as Ollama sends it.
-/

namespace LocalRag.Rag

open PyText Effects

/-! ## What an answer consists of -/

/-- The text that answers, and what is added to it. -/
def answerParts (generated : Text) : Prepared → Text × Text
  | .directReply reply => (reply, [])
  | .promptQuery _ sources => (generated, sources)

def textOf : Json → Text
  | .str t => t
  | _ => []

/-- The strings, one after the other. -/
def texts (values : List Json) : Text := values.flatMap textOf

theorem texts_append (values values' : List Json) :
    texts (values ++ values') = texts values ++ texts values' :=
  List.flatMap_append

variable (loads : Text → Option Json)

/-- The text of a line, if it has one. -/
def lineText (line : Text) : Option Json :=
  match readLine loads line with
  | .ok (text, _) => text
  | .error _ => none

/-- The texts of the lines that Ollama has sent. -/
def contents (lines : List Text) : List Json := lines.filterMap (lineText loads)

/-! ## Transcripts -/

/-- What a job has heard and said. -/
structure Transcript where
  /-- What retrieval has answered; nothing inside where it was unavailable. -/
  retrieved : Option (Option (List Payload)) := none
  /-- The payloads of the requests. -/
  requests : List Json := []
  response : Option Response := none
  lines : List Text := []
  said : List Json := []

def Transcript.heard (t : Transcript) : (c : Call) → Except Exn (Reply c) → Transcript
  | .retrieveBest _, .ok chunks => { t with retrieved := some (some chunks) }
  | .retrieveBest _, .error .retrieval => { t with retrieved := some none }
  | .post _ payload _, .ok r => { t with requests := t.requests ++ [payload], response := some r }
  | .post _ payload _, .error _ => { t with requests := t.requests ++ [payload] }
  | .openStream _ payload _, _ => { t with requests := t.requests ++ [payload] }
  | .nextLine, .ok (some line) => { t with lines := t.lines ++ [line] }
  | .emit text, .ok _ => { t with said := t.said ++ [text] }
  | _, _ => t

/-- The text of the whole response. -/
def Transcript.generated (t : Transcript) : Option Text :=
  match t.response with
  | none => none
  | some r =>
    match responseField r.json with
    | .ok (.str text) => some text
    | _ => none

/-- Any answers, but the cancel event is not set. -/
def uncancelled : Answers RagIface Exn Transcript := fun c t o t' =>
  (match c, o with
    | .isCancelled, .ok true => False
    | _, _ => True) ∧ t' = t.heard c o

/-! ## Programs that hear and say nothing -/

variable {settings : Settings} {loads} {α β : Type} {cancel : Bool} {c : Call} {t : Transcript}

abbrev Hears (prog : RagProg α) (Q : Except Exn α → Transcript → Prop) (t : Transcript) : Prop :=
  wp uncancelled (fun _ _ => True) prog Q t

/-- What a program has come to, if it returns. -/
abbrev HearsOk (prog : RagProg α) (R : α → Transcript → Prop) (t : Transcript) : Prop :=
  Hears prog (onOk R fun _ _ => True) t

abbrev Silent (prog : RagProg α) : Prop :=
  ∀ t, Preserves uncancelled (fun _ _ => True) (fun t' => t' = t) prog

/-- A call that is not noted. -/
def Call.unnoted : Call → Bool
  | .isCancelled | .monotonic | .acquireSlot _ | .releaseSlot | .closeStream | .sleep _ => true
  | _ => false

theorem heard_unnoted (hc : c.unnoted = true) (t : Transcript) (o : Except Exn (Reply c)) :
    t.heard c o = t := by
  cases c <;> cases o <;> first | rfl | cases hc

theorem silent_of_calls {prog : RagProg α}
    (h : prog.Calls fun c : Call => c.unnoted = true) : Silent prog := by
  refine fun t => h.preserves (fun _ _ _ _ => trivial) ?_
  rintro c _ o _ hc rfl ⟨-, rfl⟩
  exact heard_unnoted hc _ o

theorem silent_call (hc : c.unnoted = true) : Silent (call c) := silent_of_calls (.lift hc)

theorem silent_isCancelled (cancel : Bool) : Silent (isCancelled cancel) :=
  silent_of_calls (calls_isCancelled rfl)

theorem silent_waitForSlot (cancel : Bool) (timeout : ℚ) (polls : ℕ) :
    Silent (waitForSlot cancel timeout polls) := silent_of_calls (calls_waitForSlot rfl rfl fun _ => rfl)

theorem HearsOk.bind {prog : RagProg α} {f : α → RagProg β} {R : β → Transcript → Prop}
    {R' : α → Transcript → Prop} (h : HearsOk prog R' t) (hf : ∀ a t', R' a t' → HearsOk (f a) R t') :
    HearsOk (prog >>= f) R t := by
  refine wp_bind.mpr (wp_mono h fun r t' hr => ?_)
  cases r with
  | ok a => exact hf a t' hr
  | error e => trivial

/-- Before a program that is silent has returned, nothing is heard. -/
theorem HearsOk.silent {prog : RagProg α} (h : Silent prog) {f : α → RagProg β}
    {R : β → Transcript → Prop} (hf : ∀ a, HearsOk (f a) R t) : HearsOk (prog >>= f) R t := by
  refine (h t).wp_bind rfl ?_ fun _ _ _ => trivial
  rintro a _ rfl
  exact hf a

/-- The event is not set. -/
theorem hears_isCancelled {Q : Except Exn Bool → Transcript → Prop} (hclear : Q (.ok false) t)
    (herror : ∀ e, Q (.error e) t) : Hears (isCancelled cancel) Q t := by
  cases cancel with
  | false => exact hclear
  | true =>
    refine wp_lift.mpr ⟨trivial, ?_⟩
    rintro o _ ⟨hset, rfl⟩
    cases o with
    | error e => exact herror e
    | ok set =>
      cases set with
      | true => exact hset.elim
      | false => exact hclear

theorem HearsOk.isCancelled {f : Bool → RagProg β} {R : β → Transcript → Prop}
    (hf : HearsOk (f false) R t) :
    HearsOk (isCancelled cancel >>= f) R t :=
  wp_bind.mpr (hears_isCancelled hf fun _ => trivial)

theorem hearsOk_withGenerationSlot {timeout : ℚ} {polls : ℕ} {body : RagProg α}
    {R : α → Transcript → Prop}
    (hbody : HearsOk body R t) : HearsOk (withGenerationSlot cancel timeout polls body) R t := by
  refine HearsOk.silent (silent_waitForSlot cancel timeout polls) fun _ => ?_
  refine wp_finallyDo.mpr (wp_mono hbody fun r t' hr => ?_)
  refine wp_mono (silent_call (c := .releaseSlot) rfl t' t' rfl) ?_
  rintro (o : Except Exn Unit) _ rfl
  cases o with
  | error e => trivial
  | ok _ => exact hr

/-! ## Whole generations -/

/-- Requests change neither what retrieval has answered nor what has been said. -/
def SameTalk (t t' : Transcript) : Prop :=
  t'.retrieved = t.retrieved ∧ t'.said = t.said ∧ t'.lines = t.lines

theorem hears_sleep {seconds : ℚ} {carried : Option Text}
    {Q : Except Exn (Option Text ⊕ Response) → Transcript → Prop} (hok : Q (.ok (.inl carried)) t)
    (herror : ∀ e, Q (.error e) t) :
    Hears (do
      let _ ← call (.sleep seconds)
      pure (.inl carried)) Q t := by
  refine (silent_call (c := .sleep seconds) rfl t).wp_bind rfl ?_ ?_
  · rintro _ _ rfl
    exact hok
  · rintro e _ rfl
    exact herror e

theorem hearsOk_postWithRetry (path : Text) (payload : Json) (timeout : ℚ) :
    HearsOk (postWithRetry settings cancel path payload timeout)
      (fun r t' => t'.response = some r ∧ SameTalk t t') t := by
  refine wp_loop (fun _ _ => SameTalk t) ?_ (fun _ _ _ => trivial) ⟨rfl, rfl, rfl⟩
  intro left lastExc t' hsame
  refine (silent_isCancelled cancel t').wp_bind rfl ?_ fun _ _ _ => trivial
  rintro cancelled _ rfl
  dsimp only
  split
  · trivial
  -- Whatever is caught, nothing has been said.
  refine wp_tryCatch.mpr (wp_mono (Q := onOk (fun a => roundPost (fun _ => SameTalk t)
    (onOk (fun r t' => t'.response = some r ∧ SameTalk t t') fun _ _ => True) (.ok a : Except Exn _))
    fun _ => SameTalk t) ?_ ?_)
  · refine wp_bind.mpr (wp_lift.mpr ⟨trivial, ?_⟩)
    rintro (o : Except Exn Response) _ ⟨-, rfl⟩
    cases o with
    | error e => exact hsame
    | ok r =>
      dsimp only [onOk]
      split
      · exact hears_sleep hsame fun _ => hsame
      split
      · exact ⟨rfl, hsame⟩
      · exact hsame
  · intro r t' hsame
    cases r with
    | ok a => exact hsame
    | error e =>
      cases e with
      | request text =>
        dsimp only [onOk]
        split
        · exact hears_sleep hsame fun _ => trivial
        · exact hsame
      | _ => trivial

theorem hearsOk_ret {r : Except Exn α} {R : α → Transcript → Prop} (h : ∀ a, r = .ok a → R a t) :
    HearsOk (.ret r) R t := by
  cases r with
  | ok a => exact h a rfl
  | error e => trivial

theorem hearsOk_generate (prompt model : Text) (timeout : ℚ) (polls : ℕ) :
    HearsOk (generate settings cancel prompt model timeout polls)
      (fun v t' => ∃ r, t'.response = some r ∧ responseField r.json = .ok v ∧ SameTalk t t') t := by
  refine HearsOk.bind (hearsOk_withGenerationSlot (hearsOk_postWithRetry _ _ _)) ?_
  rintro r t' ⟨hresponse, hsame⟩
  exact hearsOk_ret fun v hv => ⟨r, hresponse, hv, hsame⟩

/-! ## Streamed generations -/

/-- What has been said since `t` is what the lines say. -/
def SaidLines (loads : Text → Option Json) (t t' : Transcript) : Prop :=
  t'.retrieved = t.retrieved ∧ ∃ lines, t'.lines = t.lines ++ lines ∧ t'.said = t.said ++ contents loads lines

theorem SaidLines.line {t' : Transcript} (h : SaidLines loads t t') {line : Text} {text : Option Json}
    (htext : lineText loads line = text) :
    SaidLines loads t { t' with lines := t'.lines ++ [line], said := t'.said ++ text.toList } := by
  obtain ⟨hretrieved, lines, hlines, hsaid⟩ := h
  refine ⟨hretrieved, lines ++ [line], ?_, ?_⟩
  · rw [hlines, List.append_assoc]
  · have hcontents : contents loads (lines ++ [line]) = contents loads lines ++ text.toList := by
      rw [contents, List.filterMap_append, List.filterMap_cons, htext, List.filterMap_nil]
      cases text <;> rfl
    rw [hsaid, hcontents, List.append_assoc]

/-- What follows a line, in a loop that says what the lines say. -/
abbrev saidPost (loads : Text → Option Json) (t : Transcript) :
    Except Exn (Unit ⊕ Unit) → Transcript → Prop :=
  roundPost (fun _ => SaidLines loads t) (onOk (fun _ => SaidLines loads t) fun _ _ => True)

theorem hears_sayLine {t' : Transcript} (hsaid : SaidLines loads t t') (line : Text) :
    Hears (sayLine loads line) (saidPost loads t) { t' with lines := t'.lines ++ [line] } := by
  unfold sayLine
  cases hread : readLine loads line with
  | error e => trivial
  | ok read =>
    obtain ⟨text, done⟩ := read
    have htext : lineText loads line = text := by rw [lineText, hread]
    have hnext := hsaid.line htext
    cases text with
    | none =>
      rw [Option.toList_none, List.append_nil] at hnext
      cases done <;> exact hnext
    | some text =>
      change Hears (call (.emit text) >>= fun _ => pure (if done = true then Sum.inr () else Sum.inl ())) _ _
      refine wp_bind.mpr (wp_lift.mpr ⟨trivial, ?_⟩)
      rintro o _ ⟨-, rfl⟩
      cases o with
      | error e => trivial
      | ok _ => cases done <;> exact hnext

theorem hears_lineRound {t' : Transcript} (hsaid : SaidLines loads t t') :
    Hears (lineRound loads cancel) (saidPost loads t) t' := by
  refine wp_bind.mpr (wp_lift.mpr ⟨trivial, ?_⟩)
  rintro (o : Except Exn (Option Text)) _ ⟨-, rfl⟩
  cases o with
  | error e => trivial
  | ok next =>
    cases next with
    | none => exact hsaid
    | some line => exact wp_bind.mpr (hears_isCancelled (hears_sayLine hsaid line) fun _ => trivial)

theorem hearsOk_streamGenerate (prompt model : Text) (timeout : ℚ) (polls lines : ℕ) :
    HearsOk (streamGenerate settings loads cancel prompt model timeout polls lines)
      (fun _ => SaidLines loads t) t := by
  refine hearsOk_withGenerationSlot (wp_bind.mpr (wp_lift.mpr ⟨trivial, ?_⟩))
  rintro (o : Except Exn ℕ) _ ⟨-, rfl⟩
  cases o with
  | error e => trivial
  | ok status =>
    have hlines : HearsOk (streamLines loads cancel status lines) (fun _ => SaidLines loads t)
        { t with requests := t.requests ++ [generatePayload settings model prompt true] } := by
      unfold streamLines
      split
      · refine wp_loop (fun _ _ => SaidLines loads t) (fun _ _ t' hsaid => hears_lineRound hsaid)
          (fun _ _ _ => trivial) ⟨rfl, [], ?_, ?_⟩
        · exact (List.append_nil _).symm
        · exact (List.append_nil _).symm
      · trivial
    refine wp_finallyDo.mpr (wp_mono hlines fun r t' hr => ?_)
    refine wp_mono (silent_call (c := .closeStream) rfl t' t' rfl) ?_
    rintro (o : Except Exn Unit) _ rfl
    cases o with
    | error e => trivial
    | ok _ => exact hr

/-! ## Answers -/

theorem hearsOk_prepareQuery (question : Text) (ragMode : RagMode) :
    HearsOk (prepareQuery question ragMode)
      (fun p t' => ∃ chunks, p = prepared question ragMode chunks ∧
        t' = { t with retrieved := some chunks }) t := by
  have hretrieved : HearsOk (retrieved question)
      (fun chunks t' => t' = { t with retrieved := some chunks }) t := by
    refine wp_tryCatch.mpr (wp_bind.mpr (wp_lift.mpr ⟨trivial, ?_⟩))
    rintro (o : Except Exn (List Payload)) _ ⟨-, rfl⟩
    cases o with
    | ok chunks => rfl
    | error e => cases e <;> first | rfl | trivial
  refine hretrieved.bind ?_
  rintro chunks _ rfl
  exact ⟨chunks, rfl, rfl⟩

/-- Neither of the replies that need no generation has whitespace around it. -/
theorem strip_directReply {question reply : Text} {ragMode : RagMode} {chunks : Option (List Payload)}
    (h : prepared question ragMode chunks = .directReply reply) : strip reply = reply := by
  have hreply : reply = retrievalUnavailableStrict ∨ reply = noContextReply := by
    rcases chunks with _ | chunks
    · rw [prepared_unavailable] at h
      split at h
      · exact .inl (Prepared.directReply.inj h).symm
      · cases h
    · rcases eq_or_ne chunks [] with rfl | hchunks
      · rw [prepared_nil] at h
        split at h
        · cases h
        · exact .inr (Prepared.directReply.inj h).symm
      · rw [prepared_of_ne_nil hchunks] at h
        cases h
  rcases hreply with rfl | rfl
  · decide
  · decide

theorem hearsOk_ask (question model : Text) (ragMode : RagMode) (polls : ℕ) :
    HearsOk (ask settings cancel question model ragMode polls)
      (fun text t' => ∃ chunks, t'.retrieved = some chunks ∧
        ((∃ reply, prepared question ragMode chunks = .directReply reply ∧ text = reply) ∨
          ∃ prompt sources generated, prepared question ragMode chunks = .promptQuery prompt sources ∧
            t'.generated = some generated ∧ text = strip generated ++ sources)) t := by
  refine HearsOk.isCancelled (HearsOk.bind (hearsOk_prepareQuery question ragMode) ?_)
  rintro p _ ⟨chunks, hprepared, rfl⟩
  cases p with
  | directReply reply => exact ⟨chunks, rfl, .inl ⟨reply, hprepared.symm, rfl⟩⟩
  | promptQuery prompt sources =>
    refine HearsOk.isCancelled (HearsOk.bind (hearsOk_generate prompt model _ polls) ?_)
    rintro v t' ⟨r, hresponse, hfield, hsame⟩
    cases v with
    | str generated =>
      refine ⟨chunks, hsame.1, .inr ⟨prompt, sources, generated, hprepared.symm, ?_, rfl⟩⟩
      rw [Transcript.generated, hresponse]
      dsimp only
      rw [hfield]
    | _ => trivial

theorem hearsOk_askStreamSync (question model : Text) (ragMode : RagMode) (polls lines : ℕ) :
    HearsOk (askStreamSync settings loads cancel question model ragMode polls lines)
      (fun _ t' => ∃ chunks lines, t'.retrieved = some chunks ∧ t'.lines = t.lines ++ lines ∧
        ((∃ reply, prepared question ragMode chunks = .directReply reply ∧ t'.said = t.said ++ [.str reply]) ∨
          ∃ prompt sources, prepared question ragMode chunks = .promptQuery prompt sources ∧
            t'.said = t.said ++ contents loads lines ++ if sources = [] then [] else [.str sources])) t := by
  refine HearsOk.isCancelled (HearsOk.bind (hearsOk_prepareQuery question ragMode) ?_)
  rintro p _ ⟨chunks, hprepared, rfl⟩
  cases p with
  | directReply reply =>
    refine wp_bind.mpr (wp_lift.mpr ⟨trivial, ?_⟩)
    rintro o _ ⟨-, rfl⟩
    cases o with
    | error e => trivial
    | ok _ => exact ⟨chunks, [], rfl, (List.append_nil _).symm, .inl ⟨reply, hprepared.symm, rfl⟩⟩
  | promptQuery prompt sources =>
    refine HearsOk.bind (hearsOk_streamGenerate prompt model _ polls _) ?_
    rintro _ t' ⟨hretrieved, lines, hlines, hsaid⟩
    refine HearsOk.isCancelled ?_
    change HearsOk (if sources = [] then _ else _) _ _
    split
    · next hsources =>
      refine ⟨chunks, lines, hretrieved, hlines, .inr ⟨prompt, sources, hprepared.symm, ?_⟩⟩
      rw [if_pos hsources, List.append_nil]
      exact hsaid
    · next hsources =>
      refine wp_bind.mpr (wp_lift.mpr ⟨trivial, ?_⟩)
      rintro o _ ⟨-, rfl⟩
      cases o with
      | error e => trivial
      | ok _ =>
        refine ⟨chunks, lines, hretrieved, hlines, .inr ⟨prompt, sources, hprepared.symm, ?_⟩⟩
        rw [if_neg hsources]
        exact congrArg (· ++ [Json.str sources]) hsaid

/-- What an answer says, once Ollama has generated a text. -/
abbrev partsOf (question : Text) (ragMode : RagMode) (chunks : Option (List Payload))
    (generated : Text) :
    Text × Text :=
  answerParts generated (prepared question ragMode chunks)

theorem hearsOk_ask_parts (question model : Text) (ragMode : RagMode) (polls : ℕ) :
    HearsOk (ask settings cancel question model ragMode polls)
      (fun text t' => ∃ chunks, t'.retrieved = some chunks ∧ ∀ generated,
        (∀ g, t'.generated = some g → g = generated) →
        text = strip (partsOf question ragMode chunks generated).1 ++
          (partsOf question ragMode chunks generated).2) t := by
  refine wp_mono (hearsOk_ask question model ragMode polls) fun r t' hr => ?_
  cases r with
  | error e => trivial
  | ok text =>
    obtain ⟨chunks, hretrieved, hr⟩ := hr
    refine ⟨chunks, hretrieved, fun generated hgenerated => ?_⟩
    rcases hr with ⟨reply, hprepared, rfl⟩ | ⟨prompt, sources, g, hprepared, hg, rfl⟩
    · rw [partsOf, hprepared, answerParts, strip_directReply hprepared, List.append_nil]
    · rw [partsOf, hprepared, answerParts, hgenerated g hg]

theorem hearsOk_askStreamSync_parts (question model : Text) (ragMode : RagMode) (polls lines : ℕ) :
    HearsOk (askStreamSync settings loads cancel question model ragMode polls lines)
      (fun _ t' => ∃ chunks, t'.retrieved = some chunks ∧
        texts t'.said = (partsOf question ragMode chunks (texts (contents loads t'.lines))).1 ++
          (partsOf question ragMode chunks (texts (contents loads t'.lines))).2) {} := by
  refine wp_mono (hearsOk_askStreamSync question model ragMode polls lines) fun r t' hr => ?_
  cases r with
  | error e => trivial
  | ok _ =>
    obtain ⟨chunks, lines, hretrieved, hlines, hr⟩ := hr
    refine ⟨chunks, hretrieved, ?_⟩
    rw [List.nil_append] at hlines
    rcases hr with ⟨reply, hprepared, hsaid⟩ | ⟨prompt, sources, hprepared, hsaid⟩
    · rw [partsOf, hprepared, hsaid]
      simp [answerParts, texts, textOf]
    · rw [partsOf, hprepared, hsaid, hlines, List.nil_append, texts_append]
      dsimp only [answerParts]
      split
      · next hsources => rw [hsources]; rfl
      · simp [texts, textOf]

/-- Without a cancellation the two ways of answering agree, whatever lines Ollama streams, if these
carry the text of the whole response: what is streamed is that text and what is added to it, and the
other answer strips the text. -/
theorem ask_agrees (settings : Settings) (loads : Text → Option Json) (cancel cancel' : Bool)
    (question model : Text) (ragMode : RagMode) (polls polls' lines : ℕ) (text : Text)
    (t t' : Transcript)
    (hask : (ask settings cancel question model ragMode polls).Steps uncancelled {} (.ret (.ok text)) t)
    (hstream : (askStreamSync settings loads cancel' question model ragMode polls' lines).Steps uncancelled {}
      (.ret (.ok ())) t')
    (hretrieved : t.retrieved = t'.retrieved)
    (hgenerated : ∀ generated, t.generated = some generated → generated = texts (contents loads t'.lines)) :
    ∃ chunks, t.retrieved = some chunks ∧
      let parts := partsOf question ragMode chunks (texts (contents loads t'.lines))
      texts t'.said = parts.1 ++ parts.2 ∧ text = strip parts.1 ++ parts.2 := by
  have hsaid : onOk _ _ (.ok text) t :=
    wp_steps_post (hearsOk_ask_parts question model ragMode polls) hask
  have hstreamed : onOk _ _ (.ok ()) t' :=
    wp_steps_post (hearsOk_askStreamSync_parts question model ragMode polls' lines) hstream
  obtain ⟨chunks, hchunks, hparts⟩ := hsaid
  obtain ⟨chunks', hchunks', hsaid'⟩ := hstreamed
  obtain rfl : chunks = chunks' := by
    rw [hchunks, hchunks'] at hretrieved
    exact Option.some.inj hretrieved
  exact ⟨chunks, hchunks, hsaid', hparts _ hgenerated⟩

/-- Every line carries the text `Hi`. -/
def sampleLoads (_ : Text) : Option Json := some (.obj [("response".toList, .str "Hi".toList)])

/-- A wait that gets its slot at once. -/
theorem sample_wait (t : Transcript) :
    (waitForSlot false 120 1).Steps uncancelled t (.ret (.ok ())) t := by
  have hremaining : ¬ (120 - (0 - 0) : ℚ) ≤ 0 := by decide +kernel
  refine .call (I := RagIface) (c := .monotonic) (o := .ok (0 : ℚ)) ⟨trivial, rfl⟩ ?_
  refine .call (I := RagIface) (c := .monotonic) (o := .ok (0 : ℚ)) ⟨trivial, rfl⟩ ?_
  change Prog.Steps uncancelled (Prog.bind (if (120 - (0 - 0) : ℚ) ≤ 0 then _ else _) _) _ _ _
  rw [if_neg hremaining]
  exact .call (I := RagIface) (c := .acquireSlot _) (o := .ok true) ⟨trivial, rfl⟩ .refl

theorem sample_prepareQuery : (prepareQuery ['?'] .augmented).Steps uncancelled {}
    (.ret (.ok (.promptQuery ['?'] retrievalUnavailableNotice))) { retrieved := some none } :=
  .call (I := RagIface) (c := .retrieveBest _) (o := .error .retrieval) ⟨trivial, rfl⟩ .refl

theorem sample_stream : (streamGenerate {} sampleLoads false ['?'] [] 120 1 2).Steps uncancelled
    { retrieved := some none } (.ret (.ok ()))
    { retrieved := some none
      requests := [generatePayload {} [] ['?'] true]
      lines := [['l']]
      said := [.str "Hi".toList] } := by
  refine Prog.Steps.bind_ok (sample_wait _) ?_
  refine .call (I := RagIface) (c := .openStream _ _ _) (o := .ok (200 : ℕ)) ⟨trivial, rfl⟩ ?_
  refine .call (I := RagIface) (c := .nextLine) (o := .ok (some ['l'])) ⟨trivial, rfl⟩ ?_
  refine .call (I := RagIface) (c := .emit (.str "Hi".toList)) (o := .ok ()) ⟨trivial, rfl⟩ ?_
  refine .call (I := RagIface) (c := .nextLine) (o := .ok none) ⟨trivial, rfl⟩ ?_
  refine .call (I := RagIface) (c := .closeStream) (o := .ok ()) ⟨trivial, rfl⟩ ?_
  exact .call (I := RagIface) (c := .releaseSlot) (o := .ok ()) ⟨trivial, rfl⟩ .refl

/-- Retrieval is unavailable, and the model answers `Hi` to both. -/
theorem ask_agrees_sample : ∃ chunks, some none = some chunks ∧
    let parts := partsOf ['?'] .augmented chunks (texts (contents sampleLoads [['l']]))
    texts [.str "Hi".toList, .str retrievalUnavailableNotice] = parts.1 ++ parts.2 ∧
      "Hi".toList ++ retrievalUnavailableNotice = strip parts.1 ++ parts.2 := by
  let response : Response := ⟨200, sampleLoads []⟩
  refine ask_agrees {} sampleLoads false false ['?'] [] .augmented 1 1 2 _
    { retrieved := some none
      requests := [generatePayload {} [] ['?'] false]
      response := some response }
    { retrieved := some none
      requests := [generatePayload {} [] ['?'] true]
      lines := [['l']]
      said := [.str "Hi".toList, .str retrievalUnavailableNotice] } ?_ ?_ rfl ?_
  · refine Prog.Steps.bind_ok (a := false) .refl (Prog.Steps.bind_ok sample_prepareQuery ?_)
    refine Prog.Steps.bind_ok (a := false) .refl ?_
    refine Prog.Steps.bind_ok (a := Json.str "Hi".toList) (Prog.Steps.bind_ok (a := response) ?_ .refl) .refl
    refine Prog.Steps.bind_ok (sample_wait _) ?_
    refine .call (I := RagIface) (c := .post _ _ _) (o := .ok response) ⟨trivial, rfl⟩ ?_
    exact .call (I := RagIface) (c := .releaseSlot) (o := .ok ()) ⟨trivial, rfl⟩ .refl
  · refine Prog.Steps.bind_ok (a := false) .refl (Prog.Steps.bind_ok sample_prepareQuery ?_)
    refine Prog.Steps.bind_ok sample_stream ?_
    exact .call (I := RagIface) (c := .emit (.str retrievalUnavailableNotice)) (o := .ok ())
      ⟨trivial, rfl⟩ .refl
  · rintro generated ⟨⟩
    rfl

end LocalRag.Rag
