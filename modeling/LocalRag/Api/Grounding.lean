-- SUMMARY: Every request to the model sends the prompt that was made of what retrieval answered; strict mode never asks it without context.
import LocalRag.Api.Answers
import LocalRag.Api.GenerationSlots

/-!
# Grounding

Whatever fails on the way, a job sends no other prompt than the one `_prepare_query`
has made. In strict mode there is one only where retrieval has found something, and it
holds the text of everything that was found.
-/

namespace LocalRag.Rag

open PyText Effects

/-! ## What a job may do -/

/-- Any answers. -/
def hearing : Answers RagIface Exn Transcript := fun c t o t' => t' = t.heard c o

/-- The question that a job asks. -/
structure Question where
  question : Text
  model : Text
  ragMode : RagMode

def RagJob.Asks (q : Question) : RagJob → Prop
  | .ask _ question model ragMode | .askStreamSync _ question model ragMode =>
    question = q.question ∧ model = q.model ∧ ragMode = q.ragMode
  | _ => False

/-- What was prepared for the question. -/
def Question.prepares (q : Question) (t : Transcript) (p : Prepared) : Prop :=
  ∃ chunks, t.retrieved = some chunks ∧ prepared q.question q.ragMode chunks = p

/-- A payload that sends the prompt that was prepared. -/
def Question.Sends (settings : Settings) (q : Question) (t : Transcript) (payload : Json) : Prop :=
  ∃ prompt sources stream, q.prepares t (.promptQuery prompt sources) ∧
    payload = generatePayload settings q.model prompt stream

/-- Retrieval comes first, requests send the prompt that was prepared, and nothing is said before
there was a request, but for a direct reply. -/
def Grounded (settings : Settings) (q : Question) (c : Call) (t : Transcript) : Prop :=
  match c with
  | .retrieveBest _ => t.requests = [] ∧ t.said = []
  | .post _ payload _ | .openStream _ payload _ => q.Sends settings t payload
  | .emit text => t.requests ≠ [] ∨ t.said = [] ∧ ∃ reply, q.prepares t (.directReply reply) ∧ text = .str reply
  | _ => True

/-- What holds of every transcript of the job. -/
structure Question.Kept (settings : Settings) (q : Question) (t : Transcript) : Prop where
  requests : ∀ payload ∈ t.requests, q.Sends settings t payload
  said : t.requests = [] → t.said = [] ∨ ∃ reply, q.prepares t (.directReply reply) ∧ t.said = [.str reply]

variable {settings : Settings} {loads : Text → Option Json} {q : Question} {α β : Type} {c : Call}
  {t t' : Transcript}

theorem Question.Kept.heard (h : q.Kept settings t) (hguard : Grounded settings q c t)
    (o : Except Exn (Reply c)) :
    q.Kept settings (t.heard c o) := by
  have hpost : ∀ payload, q.Sends settings t payload → ∀ response,
      q.Kept settings { t with requests := t.requests ++ [payload], response := response } := by
    intro payload hsends response
    refine ⟨fun payload' hmem => ?_, fun hnone => absurd hnone (by simp)⟩
    rcases List.mem_append.mp hmem with hmem | hmem
    · exact h.requests payload' hmem
    · rw [List.mem_singleton.mp hmem]
      exact hsends
  have hretrieved : t.requests = [] ∧ t.said = [] → ∀ chunks,
      q.Kept settings { t with retrieved := some chunks } := by
    rintro ⟨hrequests, hsaid⟩ chunks
    refine ⟨fun payload hmem => ?_, fun _ => .inl hsaid⟩
    rw [show ({ t with retrieved := some chunks } : Transcript).requests = [] from hrequests] at hmem
    cases hmem
  cases c with
  | retrieveBest question =>
    cases o with
    | ok chunks => exact hretrieved hguard (some chunks)
    | error e => cases e <;> first | exact hretrieved hguard none | exact h
  | post path payload timeout => cases o <;> exact hpost payload hguard _
  | openStream path payload timeout => cases o <;> exact hpost payload hguard _
  | emit text =>
    cases o with
    | error e => exact h
    | ok _ =>
      refine ⟨h.requests, fun hnone => ?_⟩
      obtain ⟨hsaid, reply, hprepared, rfl⟩ := hguard.resolve_left fun hne => hne hnone
      exact .inr ⟨reply, hprepared, by rw [Transcript.heard, hsaid]; rfl⟩
  | nextLine =>
    cases o with
    | error e => exact h
    | ok next => cases next <;> exact ⟨h.requests, h.said⟩
  | _ => cases o <;> exact h

/-! ## Programs after the retrieval -/

/-- Retrieval has answered, and the prompt is prepared. -/
def Asking (q : Question) (prompt sources : Text) (t : Transcript) : Prop :=
  q.prepares t (.promptQuery prompt sources)

/-- The same, and there was a request. -/
def Asked (q : Question) (prompt sources : Text) (t : Transcript) : Prop :=
  Asking q prompt sources t ∧ t.requests ≠ []

abbrev Ground (settings : Settings) (q : Question) (P : Transcript → Prop) (prog : RagProg α) : Prop :=
  Preserves hearing (Grounded settings q) P prog

variable {prompt sources : Text} {P : Transcript → Prop}

def Call.retrieves : Call → Bool
  | .retrieveBest _ => true
  | _ => false

/-- What every call but a retrieval keeps. -/
def Lasts (P : Transcript → Prop) : Prop :=
  ∀ c t (o : Except Exn (Reply c)), c.retrieves = false → P t → P (t.heard c o)

/-- Only retrieval changes what is prepared. -/
theorem lasts_asking : Lasts (Asking q prompt sources) := by
  intro c t o hc h
  cases c with
  | retrieveBest question => cases hc
  | nextLine =>
    cases o with
    | error e => exact h
    | ok next => cases next <;> exact h
  | _ => cases o <;> exact h

/-- A request is not taken back. -/
theorem requests_heard (h : t.requests ≠ []) (o : Except Exn (Reply c)) :
    (t.heard c o).requests ≠ [] := by
  cases c with
  | post path payload timeout => cases o <;> exact List.append_ne_nil_of_left_ne_nil h _
  | openStream path payload timeout => cases o <;> exact List.append_ne_nil_of_left_ne_nil h _
  | nextLine =>
    cases o with
    | error e => exact h
    | ok next => cases next <;> exact h
  | retrieveBest question =>
    cases o with
    | ok chunks => exact h
    | error e => cases e <;> exact h
  | _ => cases o <;> exact h

theorem lasts_asked : Lasts (Asked q prompt sources) :=
  fun c t o hc h => ⟨lasts_asking c t o hc h.1, requests_heard h.2 o⟩

/-- A program each of whose calls may be made where `P` holds, and none of which retrieves. -/
theorem ground_of_calls {prog : RagProg α} (hP : Lasts P)
    (hprog : prog.Calls fun c : Call => c.retrieves = false ∧ ∀ t, P t → Grounded settings q c t) :
    Ground settings q P prog :=
  hprog.preserves (fun _ t hc ht => hc.2 t ht) fun _ _ o _ hc ht ho => by
    rw [ho]
    exact hP _ _ o hc.1 ht

/-- Calls that are always made are made where `P` holds. -/
theorem ground_always (hP : Lasts P) (hc : c.retrieves = false)
    (halways : ∀ t, Grounded settings q c t) : Ground settings q P (call c) :=
  ground_of_calls hP (.lift ⟨hc, fun t _ => halways t⟩)

theorem ground_isCancelled (hP : Lasts P) (cancel : Bool) : Ground settings q P (isCancelled cancel) :=
  ground_of_calls hP (calls_isCancelled ⟨rfl, fun _ _ => trivial⟩)

theorem ground_waitForSlot (cancel : Bool) (timeout : ℚ) (polls : ℕ) :
    Ground settings q (Asking q prompt sources) (waitForSlot cancel timeout polls) :=
  ground_of_calls lasts_asking
    (calls_waitForSlot ⟨rfl, fun _ _ => trivial⟩ ⟨rfl, fun _ _ => trivial⟩ fun _ => ⟨rfl, fun _ _ => trivial⟩)

theorem sends_of_asking (stream : Bool) (h : Asking q prompt sources t) :
    q.Sends settings t (generatePayload settings q.model prompt stream) :=
  ⟨prompt, sources, stream, h, rfl⟩

theorem ground_generate (cancel : Bool) (timeout : ℚ) (polls : ℕ) :
    Ground settings q (Asking q prompt sources) (generate settings cancel prompt q.model timeout polls) := by
  refine Preserves.bind (Preserves.bind (ground_waitForSlot cancel timeout polls) fun _ => ?_) fun _ => .ret _
  refine Preserves.finallyDo (ground_of_calls lasts_asking (calls_postWithRetry ?_ ?_ ?_))
    (ground_always (c := .releaseSlot) lasts_asking rfl fun _ => trivial)
  · exact ⟨rfl, fun _ _ => trivial⟩
  · exact ⟨rfl, fun t ht => sends_of_asking false ht⟩
  · exact ⟨rfl, fun _ _ => trivial⟩

/-- Once the stream has been opened, there was a request. -/
theorem ground_streamGenerate (cancel : Bool) (timeout : ℚ) (polls lines : ℕ)
    (ht : Asking q prompt sources t) :
    wp hearing (Grounded settings q) (streamGenerate settings loads cancel prompt q.model timeout polls lines)
      (onOk (fun _ => Asked q prompt sources) fun _ _ => True) t := by
  refine (ground_waitForSlot cancel timeout polls).wp_bind ht (fun _ t ht => ?_) fun _ _ _ => trivial
  have hstream : wp hearing (Grounded settings q) (do
      let status : ℕ ← call (.openStream generatePath (generatePayload settings q.model prompt true) timeout)
      (streamLines loads cancel status lines).finallyDo (call .closeStream))
      (fun _ => Asked q prompt sources) t := by
    refine wp_bind.mpr (wp_lift.mpr ⟨sends_of_asking true ht, ?_⟩)
    rintro (o : Except Exn ℕ) _ rfl
    have hasked : Asked q prompt sources (t.heard (.openStream generatePath
        (generatePayload settings q.model prompt true) timeout) o) := by
      refine ⟨lasts_asking (.openStream _ _ _) t o rfl ht, ?_⟩
      cases o <;> exact List.append_ne_nil_of_right_ne_nil _ (List.cons_ne_nil _ _)
    cases o with
    | error e => exact hasked
    | ok status =>
      refine Preserves.finallyDo (ground_of_calls lasts_asked (calls_streamLines ?_ ?_ fun text => ?_))
        (ground_always (c := .closeStream) lasts_asked rfl fun _ => trivial) _ hasked
      · exact ⟨rfl, fun _ _ => trivial⟩
      · exact ⟨rfl, fun _ _ => trivial⟩
      · exact ⟨rfl, fun _ hasked => .inl hasked.2⟩
  refine wp_finallyDo.mpr (wp_mono hstream fun r t hasked => ?_)
  refine wp_mono (ground_always (c := .releaseSlot) lasts_asked rfl (fun _ => trivial) t hasked)
    fun r' t' hasked' => ?_
  cases r' with
  | error e => trivial
  | ok _ => cases r with
    | error e => trivial
    | ok _ => exact hasked'

/-! ## The jobs -/

/-- Nothing was retrieved, requested or said. -/
def Unasked (t : Transcript) : Prop := t.requests = [] ∧ t.said = []

/-- The event is looked at before anything else. -/
theorem ground_start {f : Bool → RagProg α} {Q : Except Exn α → Transcript → Prop} (cancel : Bool)
    (ht : Unasked t) (hf : ∀ cancelled, wp hearing (Grounded settings q) (f cancelled) Q t)
    (herror : ∀ e, Q (.error e) t) :
    wp hearing (Grounded settings q) (isCancelled cancel >>= f) Q t := by
  cases cancel with
  | false => exact hf false
  | true =>
    refine wp_bind.mpr (wp_lift.mpr ⟨trivial, ?_⟩)
    rintro (o : Except Exn Bool) _ rfl
    cases o with
    | error e => exact herror e
    | ok cancelled => exact hf cancelled

/-- After the retrieval, what is prepared is what it has answered. -/
theorem ground_prepareQuery (ht : Unasked t) :
    wp hearing (Grounded settings q) (prepareQuery q.question q.ragMode)
      (onOk (fun p t => q.prepares t p ∧ Unasked t) fun _ _ => True) t := by
  have hretrieved : wp hearing (Grounded settings q) (retrieved q.question)
      (onOk (fun chunks t => t.retrieved = some chunks ∧ Unasked t) fun _ _ => True) t := by
    refine wp_tryCatch.mpr (wp_bind.mpr (wp_lift.mpr ⟨ht, ?_⟩))
    rintro (o : Except Exn (List Payload)) _ rfl
    cases o with
    | ok chunks => exact ⟨rfl, ht⟩
    | error e => cases e <;> first | exact ⟨rfl, ht⟩ | trivial
  refine wp_bind.mpr (wp_mono hretrieved fun r t hr => ?_)
  cases r with
  | error e => trivial
  | ok chunks => exact ⟨⟨chunks, hr.1, rfl⟩, hr.2⟩

/-- A job that asks the question keeps to the guard. -/
theorem ground_program {job : RagJob} (hjob : job.Asks q) (rounds : ℕ) :
    wp hearing (Grounded settings q) (job.program settings loads rounds) (fun _ _ => True) {} := by
  have hstart : Unasked {} := ⟨rfl, rfl⟩
  cases job with
  | generate => exact hjob.elim
  | streamGenerate => exact hjob.elim
  | ask cancel question model ragMode =>
    obtain ⟨rfl, rfl, rfl⟩ := hjob
    refine wp_bind.mpr (ground_start cancel hstart (fun cancelled => ?_) fun _ => trivial)
    split
    · trivial
    refine wp_bind.mpr (wp_mono (ground_prepareQuery hstart) fun r t hr => ?_)
    cases r with
    | error e => trivial
    | ok p =>
      cases p with
      | directReply reply => trivial
      | promptQuery prompt sources =>
        have hasking : Asking q prompt sources t := hr.1
        refine (ground_isCancelled lasts_asking cancel).wp_bind hasking (fun cancelled t hasking => ?_)
          fun _ _ _ => trivial
        split
        · trivial
        refine (ground_generate cancel _ rounds).wp_bind hasking (fun generated t _ => ?_) fun _ _ _ => trivial
        cases stripValue generated <;> trivial
  | askStreamSync cancel question model ragMode =>
    obtain ⟨rfl, rfl, rfl⟩ := hjob
    refine ground_start cancel hstart (fun cancelled => ?_) fun _ => trivial
    split
    · trivial
    refine wp_bind.mpr (wp_mono (ground_prepareQuery hstart) fun r t hr => ?_)
    cases r with
    | error e => trivial
    | ok p =>
      cases p with
      | directReply reply =>
        refine wp_bind.mpr (wp_lift.mpr ⟨.inr ⟨hr.2.2, reply, hr.1, rfl⟩, ?_⟩)
        rintro (o : Except Exn Unit) _ rfl
        cases o <;> trivial
      | promptQuery prompt sources =>
        refine wp_bind.mpr (wp_mono (ground_streamGenerate cancel _ rounds rounds hr.1) fun r t hasked => ?_)
        cases r with
        | error e => trivial
        | ok _ =>
          refine (ground_isCancelled lasts_asked cancel).wp_bind hasked (fun cancelled t hasked => ?_)
            fun _ _ _ => trivial
          split
          · trivial
          split
          · trivial
          refine wp_bind.mpr (wp_lift.mpr ⟨.inl hasked.2, ?_⟩)
          rintro (o : Except Exn Unit) _ rfl
          cases o <;> trivial

theorem Question.Kept.run {job : RagJob} (hjob : job.Asks q) {rounds : ℕ} {prog : RagProg Unit}
    (hrun : (job.program settings loads rounds).Steps hearing {} prog t) : q.Kept settings t := by
  refine wp_steps_preserved (ground_program hjob rounds) hrun ⟨nofun, fun _ => .inl rfl⟩ ?_
  rintro c t o _ hguard hkept rfl
  exact hkept.heard hguard o

/-! ## Strict mode -/

theorem infix_join (sep : Text) {block : Text} {blocks : List Text} (h : block ∈ blocks) :
    block <:+: join sep blocks := by
  obtain ⟨before, after, rfl⟩ := List.append_of_mem h
  have hafter : block <:+: join sep (block :: after) := by
    rcases eq_or_ne after [] with rfl | hne
    · exact (join_singleton sep block).symm ▸ List.infix_rfl
    · rw [join_cons_of_ne_nil sep block hne, List.append_assoc]
      exact (List.prefix_append _ _).isInfix
  rcases eq_or_ne before [] with rfl | hne
  · exact hafter
  · rw [join_append_of_ne_nil sep hne (List.cons_ne_nil _ _)]
    exact hafter.trans (List.suffix_append _ _).isInfix

/-- Every block of the context stands in the prompt. -/
theorem infix_buildPrompt {question block : Text} {chunks : List Payload} {ragMode : RagMode}
    (h : block ∈ enumerated contextBlock chunks) : block <:+: buildPrompt question chunks ragMode := by
  obtain ⟨before, after, hjoin⟩ := infix_join "\n\n---\n\n".toList h
  refine ⟨instructions ragMode ++ "\n\nContext:\n".toList ++ before,
    after ++ "\n\nQuestion:\n".toList ++ question ++ ['\n'], ?_⟩
  simp only [buildPrompt, ← hjoin, List.append_assoc]

/-- Strict mode asks the model only with what retrieval has found. -/
theorem found_of_strict (hstrict : q.ragMode = .strict)
    (h : q.prepares t (.promptQuery prompt sources)) :
    ∃ chunks, t.retrieved = some (some chunks) ∧ chunks ≠ [] ∧
      prompt = buildPrompt q.question chunks .strict := by
  obtain ⟨chunks, hretrieved, hprepared⟩ := h
  rw [hstrict] at hprepared
  rcases chunks with _ | chunks
  · cases hprepared
  rcases eq_or_ne chunks [] with rfl | hne
  · cases hprepared
  · rw [prepared_of_ne_nil hne] at hprepared
    exact ⟨chunks, hretrieved, hne, (Prepared.promptQuery.inj hprepared).1.symm⟩

def samplePayload : Payload := ⟨some "/docs/a.md".toList, none, some 0, some 1, some "text".toList⟩

def samplePrompt : Text := buildPrompt ['?'] [samplePayload] .strict

end LocalRag.Rag
