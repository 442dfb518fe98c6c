-- SUMMARY: The validated settings (`settings.py`): their defaults, `_validate_settings`, and what acceptance gives its readers.
import Mathlib.Algebra.Order.Ring.Cast
import Mathlib.Algebra.Order.Ring.Rat

/-! # Settings -/

namespace LocalRag

inductive RagMode where
  | strict
  | augmented
  | other (raw : String)
  deriving DecidableEq

/-- The settings that `_validate_settings` reads, with the defaults used when the
environment does not override them. Floats are exact rationals. -/
structure Settings where
  qdrantPort : ℤ := 6333
  vectorSize : ℤ := 768
  ragMode : RagMode := .augmented
  sessionExpiryHours : ℤ := 8
  ollamaNumCtx : ℤ := 16384
  ragExecutorWorkers : ℤ := 4
  ragConcurrencyLimit : ℤ := 4
  generationConcurrencyLimit : ℤ := 1
  rateWindowSeconds : ℚ := 60
  rateMaxRequests : ℤ := 30
  rateMaxLoginRequests : ℤ := 10
  streamTimeoutSeconds : ℚ := 120
  ragRequestTimeoutSeconds : ℚ := 240
  ollamaGenerateTimeoutSeconds : ℚ := 120
  ollamaEmbedTimeoutSeconds : ℚ := 60
  ollamaModelListTimeoutSeconds : ℚ := 5
  ollamaWarmupTimeoutSeconds : ℚ := 60
  ollamaMaxRetries : ℤ := 2
  ollamaRetryDelaySeconds : ℚ := 1
  watcherPollIntervalSeconds : ℚ := 30
  recallK : ℤ := 15
  rerankK : ℤ := 15
  finalK : ℤ := 4
  maxChunkChars : ℤ := 2000
  chunkSize : ℤ := 500
  chunkOverlap : ℤ := 100
  maxChatMessages : ℤ := 200
  maxChatContentItems : ℤ := 32
  maxChatMessageChars : ℤ := 8000
  maxChatTotalChars : ℤ := 120000
  maxChatQuestionChars : ℤ := 12000
  maxModelNameChars : ℤ := 128

namespace Settings

/-- `MAX_MD_CHUNK` is an alias. -/
def maxMdChunk (s : Settings) : ℤ := s.maxChunkChars

/-- `MAX_FILE_SIZE`, in bytes. -/
def maxFileSize : ℕ := 1000000

/-- `MAX_EMBED_CHARS`. -/
def maxEmbedChars : ℕ := 6000

end Settings

/-- The `ValueError`s of `_validate_settings`, by the setting they name. -/
inductive SettingsError where
  /-- `settings: {name} must be > 0, got {value}` -/
  | notPositive (name : String) (value : ℚ)
  /-- `settings: {name} must be >= 0, got {value}` -/
  | negative (name : String) (value : ℤ)
  /-- `settings: {name} must be smaller than {bound}, got {value} >= {limit}` -/
  | notSmaller (name bound : String) (value limit : ℤ)
  /-- `settings: {name} must be >= {bound}, got {value} < {limit}` -/
  | belowBound (name bound : String) (value limit : ℤ)
  /-- `settings: {name} must be <= {bound}, got {value} > {limit}` -/
  | aboveBound (name bound : String) (value limit : ℤ)
  /-- `settings: RAG_MODE must be 'strict' or 'augmented', got {raw!r}` -/
  | ragMode (raw : String)
  deriving DecidableEq

def requirePositive (name : String) (value : ℚ) : Except SettingsError Unit :=
  if value ≤ 0 then .error (.notPositive name value) else .ok ()

def requireAllPositive : List (String × ℚ) → Except SettingsError Unit
  | [] => .ok ()
  | (name, value) :: rest => do
    requirePositive name value
    requireAllPositive rest

/-- The two dictionaries that `_validate_settings` walks, in their order. -/
def positiveSettings (s : Settings) : List (String × ℚ) := [
  ("QDRANT_PORT", s.qdrantPort),
  ("VECTOR_SIZE", s.vectorSize),
  ("SESSION_EXPIRY_HOURS", s.sessionExpiryHours),
  ("RAG_EXECUTOR_WORKERS", s.ragExecutorWorkers),
  ("RAG_CONCURRENCY_LIMIT", s.ragConcurrencyLimit),
  ("GENERATION_CONCURRENCY_LIMIT", s.generationConcurrencyLimit),
  ("RATE_MAX_REQUESTS", s.rateMaxRequests),
  ("RATE_MAX_LOGIN_REQUESTS", s.rateMaxLoginRequests),
  ("OLLAMA_NUM_CTX", s.ollamaNumCtx),
  ("RECALL_K", s.recallK),
  ("RERANK_K", s.rerankK),
  ("FINAL_K", s.finalK),
  ("MAX_CHUNK_CHARS", s.maxChunkChars),
  ("CHUNK_SIZE", s.chunkSize),
  ("MAX_CHAT_MESSAGES", s.maxChatMessages),
  ("MAX_CHAT_CONTENT_ITEMS", s.maxChatContentItems),
  ("MAX_CHAT_MESSAGE_CHARS", s.maxChatMessageChars),
  ("MAX_CHAT_TOTAL_CHARS", s.maxChatTotalChars),
  ("MAX_CHAT_QUESTION_CHARS", s.maxChatQuestionChars),
  ("MAX_MODEL_NAME_CHARS", s.maxModelNameChars),
  ("RATE_WINDOW_SECONDS", s.rateWindowSeconds),
  ("STREAM_TIMEOUT_SECONDS", s.streamTimeoutSeconds),
  ("RAG_REQUEST_TIMEOUT_SECONDS", s.ragRequestTimeoutSeconds),
  ("OLLAMA_GENERATE_TIMEOUT_SECONDS", s.ollamaGenerateTimeoutSeconds),
  ("OLLAMA_EMBED_TIMEOUT_SECONDS", s.ollamaEmbedTimeoutSeconds),
  ("OLLAMA_MODEL_LIST_TIMEOUT_SECONDS", s.ollamaModelListTimeoutSeconds),
  ("OLLAMA_WARMUP_TIMEOUT_SECONDS", s.ollamaWarmupTimeoutSeconds),
  ("WATCHER_POLL_INTERVAL_SECONDS", s.watcherPollIntervalSeconds),
  ("OLLAMA_RETRY_DELAY_SECONDS", s.ollamaRetryDelaySeconds)]

/-- The checks that follow the two dictionaries, in source order. -/
def checkRelations (s : Settings) : Except SettingsError Unit :=
  if s.ollamaMaxRetries < 0 then .error (.negative "OLLAMA_MAX_RETRIES" s.ollamaMaxRetries)
  else if s.chunkOverlap < 0 then .error (.negative "CHUNK_OVERLAP" s.chunkOverlap)
  else if s.chunkOverlap ≥ s.chunkSize then
    .error (.notSmaller "CHUNK_OVERLAP" "CHUNK_SIZE" s.chunkOverlap s.chunkSize)
  else if s.maxChunkChars < s.chunkSize then
    .error (.belowBound "MAX_CHUNK_CHARS" "CHUNK_SIZE" s.maxChunkChars s.chunkSize)
  else if s.finalK > s.rerankK then
    .error (.aboveBound "FINAL_K" "RERANK_K" s.finalK s.rerankK)
  else if s.maxChatQuestionChars > s.maxChatTotalChars then
    .error (.aboveBound "MAX_CHAT_QUESTION_CHARS" "MAX_CHAT_TOTAL_CHARS"
      s.maxChatQuestionChars s.maxChatTotalChars)
  else
    match s.ragMode with
    | .strict | .augmented => .ok ()
    | .other raw => .error (.ragMode raw)

/-- `_validate_settings`. -/
def validateSettings (s : Settings) : Except SettingsError Unit := do
  requireAllPositive (positiveSettings s)
  checkRelations s

/-- Settings with which the application starts. -/
def Settings.Accepted (s : Settings) : Prop := validateSettings s = .ok ()

instance (s : Settings) : Decidable s.Accepted :=
  decidable_of_iff ((validateSettings s).toBool = true) (by
    unfold Settings.Accepted
    cases validateSettings s <;> simp [Except.toBool])

theorem defaults_accepted : ({} : Settings).Accepted := by decide

/-! ## What acceptance gives -/

theorem requireAllPositive_ok {l : List (String × ℚ)}
    (h : requireAllPositive l = .ok ()) : ∀ nv ∈ l, 0 < nv.2 := by
  induction l with
  | nil => simp
  | cons nv l ih =>
    obtain ⟨name, value⟩ := nv
    unfold requireAllPositive requirePositive at h
    split at h
    · cases h
    · next hpos =>
      intro x hx
      rcases List.mem_cons.mp hx with rfl | hx
      · exact not_le.mp hpos
      · exact ih h x hx

theorem Settings.Accepted.parts {s : Settings} (h : s.Accepted) :
    (∀ nv ∈ positiveSettings s, 0 < nv.2) ∧ checkRelations s = .ok () := by
  unfold Settings.Accepted validateSettings at h
  cases hpos : requireAllPositive (positiveSettings s) with
  | error e => rw [hpos] at h; cases h
  | ok u =>
    rw [hpos] at h
    exact ⟨requireAllPositive_ok hpos, h⟩

/-- The settings in the dictionaries are positive. -/
theorem Settings.Accepted.pos {s : Settings} (h : s.Accepted) {name : String} {value : ℤ}
    (hmem : (name, (value : ℚ)) ∈ positiveSettings s) : 0 < value := by
  have hpos : (0 : ℚ) < value := h.parts.1 (name, value) hmem
  exact_mod_cast hpos

theorem Settings.Accepted.chunkSize_pos {s : Settings} (h : s.Accepted) : 0 < s.chunkSize :=
  h.pos (show ("CHUNK_SIZE", (s.chunkSize : ℚ)) ∈ positiveSettings s by simp [positiveSettings])

theorem Settings.Accepted.ragConcurrencyLimit_pos {s : Settings} (h : s.Accepted) :
    0 < s.ragConcurrencyLimit :=
  h.pos (show ("RAG_CONCURRENCY_LIMIT", (s.ragConcurrencyLimit : ℚ)) ∈ positiveSettings s by
    simp [positiveSettings])

theorem Settings.Accepted.generationConcurrencyLimit_pos {s : Settings} (h : s.Accepted) :
    0 < s.generationConcurrencyLimit :=
  h.pos (show ("GENERATION_CONCURRENCY_LIMIT", (s.generationConcurrencyLimit : ℚ)) ∈ positiveSettings s by
    simp [positiveSettings])

theorem Settings.Accepted.rateMaxLoginRequests_pos {s : Settings} (h : s.Accepted) :
    0 < s.rateMaxLoginRequests :=
  h.pos (show ("RATE_MAX_LOGIN_REQUESTS", (s.rateMaxLoginRequests : ℚ)) ∈ positiveSettings s by
    simp [positiveSettings])

theorem Settings.Accepted.maxChatTotalChars_pos {s : Settings} (h : s.Accepted) : 0 < s.maxChatTotalChars :=
  h.pos (show ("MAX_CHAT_TOTAL_CHARS", (s.maxChatTotalChars : ℚ)) ∈ positiveSettings s by
    simp [positiveSettings])

theorem Settings.Accepted.maxChatQuestionChars_pos {s : Settings} (h : s.Accepted) : 0 < s.maxChatQuestionChars :=
  h.pos (show ("MAX_CHAT_QUESTION_CHARS", (s.maxChatQuestionChars : ℚ)) ∈ positiveSettings s by
    simp [positiveSettings])

theorem Settings.Accepted.maxChatContentItems_pos {s : Settings} (h : s.Accepted) : 0 < s.maxChatContentItems :=
  h.pos (show ("MAX_CHAT_CONTENT_ITEMS", (s.maxChatContentItems : ℚ)) ∈ positiveSettings s by
    simp [positiveSettings])

theorem Settings.Accepted.maxChatMessages_pos {s : Settings} (h : s.Accepted) : 0 < s.maxChatMessages :=
  h.pos (show ("MAX_CHAT_MESSAGES", (s.maxChatMessages : ℚ)) ∈ positiveSettings s by simp [positiveSettings])

theorem Settings.Accepted.maxModelNameChars_pos {s : Settings} (h : s.Accepted) : 0 < s.maxModelNameChars :=
  h.pos (show ("MAX_MODEL_NAME_CHARS", (s.maxModelNameChars : ℚ)) ∈ positiveSettings s by simp [positiveSettings])

theorem Settings.Accepted.rateWindowSeconds_pos {s : Settings} (h : s.Accepted) :
    0 < s.rateWindowSeconds :=
  h.parts.1 ("RATE_WINDOW_SECONDS", s.rateWindowSeconds) (by simp [positiveSettings])

theorem Settings.Accepted.ollamaMaxRetries_nonneg {s : Settings} (h : s.Accepted) : 0 ≤ s.ollamaMaxRetries := by
  have hrel := h.parts.2
  unfold checkRelations at hrel
  split at hrel
  · cases hrel
  · next hretries => exact not_lt.mp hretries

/-- The relations between the chunking settings. -/
theorem Settings.Accepted.chunking {s : Settings} (h : s.Accepted) :
    0 ≤ s.chunkOverlap ∧ s.chunkOverlap < s.chunkSize ∧ s.chunkSize ≤ s.maxChunkChars := by
  have hrel := h.parts.2
  unfold checkRelations at hrel
  split at hrel; · cases hrel
  split at hrel; · cases hrel
  split at hrel; · cases hrel
  split at hrel; · cases hrel
  omega

end LocalRag
