-- SUMMARY: From Ollama to the page: what is generated for a question arrives in the browser, with its sources.
import LocalRag.Api.Grounding
import LocalRag.Web.Exchanges
import LocalRag.Web.Streaming

/-!
# From end to end

A streamed answer passes through a job, the queue of the server, the events of the
response, the reads of the network and the decoder of the page. Each hands on what it
has got, in its order.
-/

namespace LocalRag.ChatUi

open PyText Effects OpenaiCompat SseDeltas

/-! ## Events -/

section

variable {parse : Text → Option Json} {decoder : TextDecoder}

/-- The lines of printable payloads. -/
theorem events_printable {payloads : List Text}
    (hpayloads : ∀ payload ∈ payloads, Json.Printable payload) :
    (∀ line ∈ payloads.flatMap eventLines, '\n' ∉ line) ∧
      ∀ c ∈ (payloads.map sseEvent).flatten, c.toNat < 0x80 := by
  refine ⟨fun line hline hnewline => ?_, fun c hc => ?_⟩
  · exact absurd (printable_eventLines hpayloads hline _ hnewline).1 (by decide)
  · rw [sseEvent_lines] at hc
    obtain ⟨_, hline, hc⟩ := List.mem_flatten.mp hc
    obtain ⟨line, hmem, rfl⟩ := List.mem_map.mp hline
    rcases List.mem_append.mp hc with hc | hc
    · exact lt_of_le_of_lt (printable_eventLines hpayloads hmem c hc).2 (by decide)
    · rw [List.mem_singleton.mp hc]
      decide

/-- However the bytes of events are cut into reads, each payload yields its delta. -/
theorem iterSSEDeltas_events {payloads : List Text}
    (hpayloads : ∀ payload ∈ payloads, Json.Printable payload)
    {reads : List (List UInt8)} (hreads : reads.flatten = encodeUtf8 (payloads.map sseEvent).flatten) :
    iterSSEDeltas parse decoder reads =
      payloads.filterMap fun payload => lineDelta parse ("data: ".toList ++ payload) := by
  obtain ⟨hlines, hascii⟩ := events_printable hpayloads
  obtain ⟨hencoded, hbytes⟩ := encodeUtf8_ascii hascii
  have htexts : (reads.map asciiText).flatten = ((payloads.flatMap eventLines).map (· ++ ['\n'])).flatten := by
    rw [← sseEvent_lines, ← hencoded, ← hreads, asciiText, List.map_flatten]
    rfl
  rw [iterSSEDeltas, deltasFrom_eq decoder.idle_new [] (hreads ▸ hbytes), Lines.readLines_lines '\n' hlines htexts,
    filterMap_eventLines]

end

variable {browser : Browser}

/-- What the page shows of the chunks of an answer. -/
theorem flatMap_contents (hstring : ∀ t, browser.stringOf (.str t) = t) (contents : List Text) :
    ((contents.filter (· ≠ [])).map Json.str).flatMap browser.stringOf = contents.flatten := by
  induction contents with
  | nil => rfl
  | cons content contents ih =>
    rw [List.flatten_cons, ← ih]
    cases content with
    | nil => rfl
    | cons c content =>
      rw [List.filter_cons_of_pos (by simp), List.map_cons, List.flatMap_cons, hstring]

/-- The page shows the contents of an answer, one after the other. -/
theorem shown_events (hstring : ∀ t, browser.stringOf (.str t) = t)
    (hparse : ∀ requestId created model content finishReason,
      browser.parse (Json.dumps (streamChunk requestId created model content finishReason)) =
        some (streamChunk requestId created model content finishReason))
    {model : Text} {answer : ApiServer.Answer} {reads : List (List UInt8)}
    (hreads : reads.flatten = encodeUtf8 (answer.events model).flatten) :
    (browser.deltas reads).flatMap browser.stringOf = (answer.contents ++ answer.errors).flatten := by
  rw [ApiServer.Answer.events, answerEvents_eq] at hreads
  rw [Browser.deltas, iterSSEDeltas_events (fun _ => printable_payloads) hreads,
    filterMap_payloads fun content finishReason => hparse _ _ _ content finishReason]
  exact flatMap_contents hstring _

/-! ## Jobs -/

/-- What the generator of a job raises, as the worker sees it. -/
def raisedBy : Except Rag.Exn Unit → Option ApiServer.Exn
  | .ok _ => none
  | .error .generatorExit => some .generatorExit
  | .error _ => some .other

/-- What is added to an answer whose job has failed. -/
def failureNotice (r : Except Rag.Exn Unit) : Text :=
  ((raisedBy r).filter ApiServer.Exn.isException).elim [] fun _ => ApiServer.generationError

theorem texts_strings (said : List Text) : Rag.texts (said.map .str) = said.flatten := by
  rw [Rag.texts, List.flatMap_map]
  exact List.flatMap_id

open Rag in
/-- However the tasks of the server interleave and however the network cuts the response, if there was
capacity in time and no wait for an item has timed out, the page shows what the job has said, and a
notice if it has failed. Without a failure that is the text which Ollama has generated, and its
sources. -/
theorem answer_arrives (settings : Settings) (loads : Text → Option Json) (cancel : Bool)
    (question model : Text)
    (ragMode : RagMode) (polls lines : ℕ) (r : Except Rag.Exn Unit) (t : Transcript)
    (hjob : (askStreamSync settings loads cancel question model ragMode polls lines).Steps uncancelled {}
      (.ret r) t)
    (said : List Text) (hsaid : t.said = said.map .str)
    (config : ApiServer.Config) (httpRequest : Bool) (iterations : ℕ)
    (henough : said.length < iterations)
    (s : ApiServer.Stream)
    (hstream : Relation.ReflTransGen (ApiServer.Stream.Step said (raisedBy r))
      (ApiServer.Stream.start config question model ragMode httpRequest iterations) s)
    (hend : s.generator = .ret (.ok ()))
    (hcapacity : ¬s.wait.Refused config.settings.ragRequestTimeoutSeconds)
    (htime : s.timedOut = false) (browser : Browser) (hstring : ∀ t, browser.stringOf (.str t) = t)
    (hparse : ∀ requestId created model content finishReason,
      browser.parse (Json.dumps (streamChunk requestId created model content finishReason)) =
        some (streamChunk requestId created model content finishReason))
    (reads : List (List UInt8)) (hreads : reads.flatten = encodeUtf8 s.output.flatten) :
    (browser.deltas reads).flatMap browser.stringOf = said.flatten ++ failureNotice r ∧
      (r = .ok () → ∃ chunks, t.retrieved = some chunks ∧
        let parts := partsOf question ragMode chunks (texts (contents loads t.lines))
        (browser.deltas reads).flatMap browser.stringOf = parts.1 ++ parts.2) := by
  have hstart : (ApiServer.Stream.start config question model ragMode httpRequest iterations).Inv said (raisedBy r)
      (ApiServer.View.Ended config.settings.ragRequestTimeoutSeconds model said (raisedBy r)) :=
    ⟨[], false, nofun, fun _ => ⟨rfl, rfl⟩, nofun,
      ApiServer.emits_ragStreamResponse question model ragMode httpRequest iterations rfl rfl rfl rfl
        henough⟩
  obtain ⟨left, cancelled, -, -, -, hemits⟩ := ApiServer.Stream.inv_run hstream hstart
  rw [hend] at hemits
  obtain ⟨hgranted, -, answer, houtput, hfaithful⟩ := hemits
  have hstarted : s.worker.isSome = true := hgranted.mpr hcapacity
  have hcontents : answer.contents = said := hfaithful.complete hstarted htime
  have herrors := hfaithful.reported hstarted htime
  have houtput' : s.output = answer.events model := houtput
  rw [houtput'] at hreads
  have hshown : (browser.deltas reads).flatMap browser.stringOf = said.flatten ++ failureNotice r := by
    rw [shown_events hstring hparse hreads, List.flatten_append, hcontents, herrors, failureNotice]
    cases (raisedBy r).filter ApiServer.Exn.isException with
    | none => rfl
    | some e => exact congrArg _ (List.append_nil _)
  refine ⟨hshown, ?_⟩
  rintro rfl
  have hanswered : onOk _ _ (.ok ()) t :=
    wp_steps_post (hearsOk_askStreamSync_parts question model ragMode polls lines) hjob
  obtain ⟨chunks, hretrieved, hparts⟩ := hanswered
  rw [hsaid, texts_strings] at hparts
  exact ⟨chunks, hretrieved, hshown.trans ((List.append_nil _).trans hparts)⟩

/-! ## A run -/

/-- The texts that the job yields: what is generated, and the sources. -/
def sampleSaid : List Text := ["Hi".toList, Rag.formatSources [Rag.samplePayload]]

/-- The server's side of the answer, read to its end. -/
def sampleServed : ApiServer.Stream where
  worker := some (.ret (.ok ()))
  queue := []
  output := ApiServer.Answer.events [] ⟨"chatcmpl-7".toList, 5, sampleSaid, []⟩
  cancelEvent := true
  wait := ⟨[0, 0], none⟩
  timedOut := false
  watchRaised := none
  generator := .ret (.ok ())

open ApiServer in
theorem sample_served : Relation.ReflTransGen (Stream.Step sampleSaid none)
    (Stream.start .sample ['?'] [] .strict false 3) sampleServed := by
  refine .head (Stream.step_generator (c := .uuid4) (o := .ok ['7']) rfl) ?_
  refine .head (Stream.step_generator (c := .time) (o := .ok (5 : ℤ)) rfl) ?_
  refine .head (Stream.step_generator (c := .monotonic) (o := .ok (0 : ℚ)) rfl) ?_
  refine .head (Stream.step_generator (c := .acquire 240) (o := .ok ()) rfl) ?_
  refine .head (Stream.step_generator (c := .monotonic) (o := .ok (0 : ℚ)) rfl) ?_
  have hremaining : ¬ (240 - (0 - 0) : ℚ) ≤ 0 := by decide +kernel
  change Relation.ReflTransGen _ (⟨_, Prog.bind (Prog.handle (Prog.bind
    (if (240 - (0 - 0) : ℚ) ≤ 0 then _ else _) _) _) _⟩ : Stream) _
  rw [if_neg hremaining]
  refine .head
    (Stream.step_generator (c := .runInExecutor (.streamRun ['?'] [] .strict)) (o := .ok (0 : ℕ)) rfl) ?_
  refine .head (Stream.step_generator (c := .addDoneCallback 0) (o := .ok ()) rfl) ?_
  -- The worker is ahead of the generator.
  refine .head (.send rfl) ?_
  refine .head (.send rfl) ?_
  refine .head (Stream.step_generator (c := .getItem 120) (o := .ok (.text "Hi".toList)) ⟨_, rfl, rfl⟩) ?_
  refine .head (Stream.step_generator (c := .emit _) (o := .ok ()) rfl) ?_
  refine .head (Stream.step_generator (c := .getItem 120)
    (o := .ok (.text (Rag.formatSources [Rag.samplePayload]))) ⟨_, rfl, rfl⟩) ?_
  refine .head (Stream.step_generator (c := .emit _) (o := .ok ()) rfl) ?_
  refine .head (.send rfl) ?_
  refine .head (Stream.step_generator (c := .getItem 120) (o := .ok .done) ⟨[], rfl, rfl⟩) ?_
  refine .head (Stream.step_generator (c := .setCancelEvent) (o := .ok ()) rfl) ?_
  refine .head (Stream.step_generator (c := .emit _) (o := .ok ()) rfl) ?_
  exact .single (Stream.step_generator (c := .emit _) (o := .ok ()) rfl)

open Rag in
/-- A chunk is found, and Ollama streams one line. -/
theorem sample_job : (askStreamSync {} sampleLoads false ['?'] [] .strict 1 2).Steps uncancelled {}
    (.ret (.ok ()))
    { retrieved := some (some [samplePayload])
      requests := [generatePayload {} [] samplePrompt true]
      lines := [['l']]
      said := sampleSaid.map .str } := by
  have hprepare : (prepareQuery ['?'] .strict).Steps uncancelled {}
      (.ret (.ok (.promptQuery samplePrompt (formatSources [samplePayload]))))
      { retrieved := some (some [samplePayload]) } :=
    .call (I := RagIface) (c := .retrieveBest _) (o := .ok [samplePayload]) ⟨trivial, rfl⟩ .refl
  have hstream : (streamGenerate {} sampleLoads false samplePrompt [] 120 1 2).Steps uncancelled
      { retrieved := some (some [samplePayload]) } (.ret (.ok ()))
      { retrieved := some (some [samplePayload])
        requests := [generatePayload {} [] samplePrompt true]
        lines := [['l']]
        said := [.str "Hi".toList] } := by
    refine Prog.Steps.bind_ok (sample_wait _) ?_
    refine .call (I := RagIface) (c := .openStream _ _ _) (o := .ok (200 : ℕ)) ⟨trivial, rfl⟩ ?_
    refine .call (I := RagIface) (c := .nextLine) (o := .ok (some ['l'])) ⟨trivial, rfl⟩ ?_
    refine .call (I := RagIface) (c := .emit (.str "Hi".toList)) (o := .ok ()) ⟨trivial, rfl⟩ ?_
    refine .call (I := RagIface) (c := .nextLine) (o := .ok none) ⟨trivial, rfl⟩ ?_
    refine .call (I := RagIface) (c := .closeStream) (o := .ok ()) ⟨trivial, rfl⟩ ?_
    exact .call (I := RagIface) (c := .releaseSlot) (o := .ok ()) ⟨trivial, rfl⟩ .refl
  refine Prog.Steps.bind_ok (a := false) .refl (Prog.Steps.bind_ok hprepare ?_)
  refine Prog.Steps.bind_ok hstream ?_
  exact .call (I := RagIface) (c := .emit (.str (formatSources [samplePayload]))) (o := .ok ())
    ⟨trivial, rfl⟩ .refl

/-- An answer with its sources, read byte by byte. -/
theorem answer_arrives_sample :
    (sampleBrowser.deltas ((encodeUtf8 sampleServed.output.flatten).map fun b => [b])).flatMap
      sampleBrowser.stringOf = "Hi".toList ++ Rag.formatSources [Rag.samplePayload] := by
  have hgranted : ¬sampleServed.wait.Refused 240 := by
    rintro (htimedOut | ⟨before, after, hreadings, hbudget⟩)
    · cases htimedOut
    · cases hreadings
      norm_num at hbudget
  refine (answer_arrives {} Rag.sampleLoads false ['?'] [] .strict 1 2 (.ok ()) _ sample_job
    sampleSaid rfl .sample false 3 (by decide) sampleServed sample_served rfl hgranted rfl sampleBrowser
    (fun _ => rfl) (fun _ _ _ _ _ => Json.parse_dumps _) _ (List.flatMap_singleton' _)).1.trans ?_
  exact (List.append_nil _).trans (congrArg _ (List.append_nil _))

end LocalRag.ChatUi
