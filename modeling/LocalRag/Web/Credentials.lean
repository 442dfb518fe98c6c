-- SUMMARY: What becomes of the credential that a request presents, and which strings cannot be compared with a configured one.
import LocalRag.Web.SecurityMiddleware
import LocalRag.Web.UserStore

/-!
# Credentials

A request to a protected path shows a token in its `Authorization` header or in its
cookie. Header bytes are decoded as Latin-1, so the token may hold characters that
`compare_digest` does not take: then there is no decision.
-/

namespace LocalRag.Credentials

open PyText ApiServer RateLimit SecurityMiddleware UserStore

/-! ## Decisions -/

variable (apiKey : Text) (db : Db) (now : ℚ)

/-- `is_valid_token`, against the session table as it is at the time `now`. -/
def isValidToken (token : Text) : Except ApiServer.Exn Bool :=
  if token = [] then .ok false
  else do
    let same ← if apiKey = [] then .ok false else compareDigest token apiKey
    if same then .ok true else .ok (validateSession db token now).isSome

def retrievePath : Text := "/v1/retrieve".toList

/-- The paths that ask for a credential. `/v1/retrieve` asks for one of its own. -/
def IsProtected (path : Text) : Prop :=
  unlimited path = false ∧ path ≠ loginPath ∧ path ≠ "/auth/logout".toList ∧ path ≠ "/auth/status".toList

/-- What the middleware and, on its path, `_check_internal_token` make of a request. -/
def checkCredential (config : SecurityMiddleware.Config) (internalToken : Option Text) (limits : Limits)
    (r : HttpRequest) (clock : ℚ) : Verdict :=
  match (securityMiddleware config limits r clock).1 with
  | .callNext =>
    if r.path = retrievePath then
      match checkInternalToken internalToken (extractBearerToken r) with
      | .ok () => .callNext
      | .error (.http status detail) => .respond status detail
      | .error e => .raise e
    else .callNext
  | verdict => verdict

/-- The settings, with `is_valid_token` as it is at the time `now`. -/
def serving (config : SecurityMiddleware.Config) : SecurityMiddleware.Config :=
  { config with isValidToken := isValidToken apiKey db now }

/-- The rate limiter admits the request. -/
def WithinLimit (config : SecurityMiddleware.Config) (limits : Limits) (r : HttpRequest) (clock : ℚ) : Prop :=
  (checkRateLimit config.settings config.settings.rateMaxRequests limits.rate
    (resolveClientIp config.trustedProxyIps r.client r.forwardedFor) clock).1 = true

/-- The session exists, has not expired, and so does its user. -/
def ValidSession (token : Text) : Prop :=
  ∃ s ∈ db.sessions.rows, s.token = token ∧ now < s.expiresAt ∧ ∃ user ∈ db.users.rows, user.username = s.username

/-- The token is decided on, and as it should be. -/
def TokenDecided (token : Text) : Prop :=
  ∃ valid, isValidToken apiKey db now token = .ok valid ∧
    (valid = true ↔ token ≠ [] ∧ (apiKey ≠ [] ∧ token = apiKey ∨ ValidSession db now token))

/-- `_check_internal_token` returns for the configured token, and otherwise raises `HTTPException`. -/
def InternalDecided (internalToken : Option Text) (token : Text) : Prop :=
  (checkInternalToken internalToken token = .ok () ∧ internalToken = some token) ∨
    internalToken ≠ some token ∧ ∃ status detail, checkInternalToken internalToken token = .error (.http status detail)

/-- A verdict that a request with a credential may get within the rate limit. -/
def Answered (internalToken : Option Text) (path : Text) (verdict : Verdict) : Prop :=
  verdict = .callNext ∨ (∃ detail, verdict = .respond 401 detail) ∨
    (path = retrievePath ∧ internalToken = none ∧ ∃ detail, verdict = .respond 503 detail)

/-! ## Comparing -/

def Ascii (t : Text) : Prop := ∀ c ∈ t, c.toNat < 128

instance (t : Text) : Decidable (Ascii t) := List.decidableBAll (fun c : Char => c.toNat < 128) t

variable {apiKey db now} {token a b : Text}

theorem compareDigest_ascii (ha : Ascii a) (hb : Ascii b) : compareDigest a b = .ok (decide (a = b)) := by
  have hall : (a.all (·.toNat < 128) && b.all (·.toNat < 128)) = true := by
    simpa [Ascii] using And.intro ha hb
  rw [compareDigest, if_pos hall]

theorem compareDigest_not_ascii (h : ¬ (Ascii a ∧ Ascii b)) : compareDigest a b = .error .other := by
  have hall : ¬ (a.all (·.toNat < 128) && b.all (·.toNat < 128)) = true := by
    simpa [Ascii] using h
  rw [compareDigest, if_neg hall]

theorem validateSession_isSome : (validateSession db token now).isSome = true ↔ ValidSession db now token := by
  rw [Option.isSome_iff_exists]
  constructor
  · rintro ⟨username, h⟩
    obtain ⟨s, hs, htoken, rfl, hexpires, huser⟩ := validateSession_eq_some_iff.mp h
    exact ⟨s, hs, htoken, hexpires, huser⟩
  · rintro ⟨s, hs, htoken, hexpires, huser⟩
    exact ⟨s.username, validateSession_eq_some_iff.mpr ⟨s, hs, htoken, rfl, hexpires, huser⟩⟩

/-- The strings that `is_valid_token` can decide on. -/
def Comparable (apiKey token : Text) : Prop := token = [] ∨ apiKey = [] ∨ Ascii token ∧ Ascii apiKey

theorem isValidToken_not_comparable (h : ¬ Comparable apiKey token) :
    isValidToken apiKey db now token = .error .other := by
  simp only [Comparable, not_or] at h
  obtain ⟨htoken, hkey, hascii⟩ := h
  rw [isValidToken, if_neg htoken, if_neg hkey, compareDigest_not_ascii hascii]
  rfl

theorem tokenDecided_of_comparable (h : Comparable apiKey token) : TokenDecided apiKey db now token := by
  by_cases htoken : token = []
  · exact ⟨false, by rw [isValidToken, if_pos htoken], by simp [htoken]⟩
  · by_cases hkey : apiKey = []
    · -- Without a key only the sessions are asked.
      refine ⟨(validateSession db token now).isSome, ?_, ?_⟩
      · rw [isValidToken, if_neg htoken, if_pos hkey]
        rfl
      · rw [validateSession_isSome]
        simp [htoken, hkey]
    · obtain ⟨hascii, hkeyAscii⟩ := (h.resolve_left htoken).resolve_left hkey
      by_cases hsame : token = apiKey
      · refine ⟨true, ?_, by simp [hkey, hsame]⟩
        rw [isValidToken, if_neg htoken, if_neg hkey, compareDigest_ascii hascii hkeyAscii, decide_eq_true hsame]
        rfl
      · refine ⟨(validateSession db token now).isSome, ?_, ?_⟩
        · rw [isValidToken, if_neg htoken, if_neg hkey, compareDigest_ascii hascii hkeyAscii, decide_eq_false hsame]
          rfl
        · rw [validateSession_isSome]
          simp [htoken, hsame]

theorem tokenDecided_iff : TokenDecided apiKey db now token ↔ Comparable apiKey token := by
  refine ⟨?_, tokenDecided_of_comparable⟩
  rintro ⟨valid, hvalid, -⟩
  by_contra h
  rw [isValidToken_not_comparable h] at hvalid
  cases hvalid

/-- The strings that `_check_internal_token` can decide on. -/
def InternalComparable (internalToken : Option Text) (token : Text) : Prop :=
  ∀ configured ∈ internalToken, Ascii token ∧ Ascii configured

variable {internalToken : Option Text}

theorem checkInternalToken_not_comparable (h : ¬ InternalComparable internalToken token) :
    checkInternalToken internalToken token = .error .other := by
  cases internalToken with
  | none => exact absurd nofun h
  | some configured =>
    have hascii : ¬ (Ascii token ∧ Ascii configured) := by
      simpa [InternalComparable] using h
    rw [checkInternalToken, compareDigest_not_ascii hascii]
    rfl

theorem checkInternalToken_some {configured : Text} (h : InternalComparable (some configured) token) :
    checkInternalToken (some configured) token =
      if token = configured then .ok () else .error (.http 401 "Unauthorized".toList) := by
  obtain ⟨hascii, hconfigured⟩ := h configured rfl
  rw [checkInternalToken, compareDigest_ascii hascii hconfigured]
  by_cases hsame : token = configured
  · rw [if_pos hsame, decide_eq_true hsame]
    rfl
  · rw [if_neg hsame, decide_eq_false hsame]
    rfl

theorem internalDecided_of_comparable (h : InternalComparable internalToken token) :
    InternalDecided internalToken token := by
  cases internalToken with
  | none => exact .inr ⟨nofun, _, _, rfl⟩
  | some configured =>
    have hcheck := checkInternalToken_some h
    by_cases hsame : token = configured
    · rw [if_pos hsame] at hcheck
      exact .inl ⟨hcheck, congrArg some hsame.symm⟩
    · rw [if_neg hsame] at hcheck
      exact .inr ⟨fun heq => hsame (Option.some.inj heq).symm, _, _, hcheck⟩

theorem internalDecided_iff : InternalDecided internalToken token ↔ InternalComparable internalToken token := by
  refine ⟨?_, internalDecided_of_comparable⟩
  intro hdecided
  by_contra h
  have hcheck := checkInternalToken_not_comparable h
  rcases hdecided with ⟨hok, -⟩ | ⟨-, status, detail, herror⟩
  · rw [hok] at hcheck
    cases hcheck
  · rw [herror] at hcheck
    cases hcheck

/-! ## Requests -/

variable {config : SecurityMiddleware.Config} {limits : Limits} {r : HttpRequest} {clock : ℚ}

/-- The token of the request can be compared with what it is compared with. -/
def RequestComparable (config : SecurityMiddleware.Config) (apiKey : Text) (internalToken : Option Text)
    (r : HttpRequest) : Prop :=
  if r.path = retrievePath then InternalComparable internalToken (extractBearerToken r)
  else config.allowInsecureLocalonly = true ∨ Comparable apiKey (extractBearerToken r)

/-- The middleware leaves `/v1/retrieve` to its own check. -/
theorem securityMiddleware_protected (hprotected : IsProtected r.path) (hwithin : WithinLimit config limits r clock) :
    (securityMiddleware config limits r clock).1 =
      if r.path = retrievePath ∨ config.allowInsecureLocalonly = true then .callNext
      else match config.isValidToken (extractBearerToken r) with
        | .ok true => .callNext
        | .ok false => .respond 401 "Unauthorized".toList
        | .error e => .raise e := by
  obtain ⟨hlimited, hlogin, hlogout, hstatus⟩ := hprotected
  unfold securityMiddleware
  dsimp only
  rw [hlimited, if_neg Bool.false_ne_true, if_neg hlogin, if_neg hlogout, hwithin, if_neg (by decide)]
  by_cases hpath : r.path = retrievePath
  · have hfree : r.path = "/auth/status".toList ∨ r.path = "/v1/retrieve".toList := .inr hpath
    rw [if_pos hfree, if_pos (.inl hpath)]
  · have hchecked : ¬ (r.path = "/auth/status".toList ∨ r.path = "/v1/retrieve".toList) :=
      not_or.mpr ⟨hstatus, hpath⟩
    rw [if_neg hchecked]
    by_cases hinsecure : config.allowInsecureLocalonly = true
    · rw [if_pos hinsecure, if_pos (.inr hinsecure)]
    · rw [if_neg hinsecure, if_neg (not_or.mpr ⟨hpath, hinsecure⟩)]
      cases config.isValidToken (extractBearerToken r) with
      | error e => rfl
      | ok valid => cases valid <;> rfl

theorem checkCredential_retrieve (hprotected : IsProtected r.path) (hpath : r.path = retrievePath)
    (hwithin : WithinLimit config limits r clock) : checkCredential config internalToken limits r clock =
      match checkInternalToken internalToken (extractBearerToken r) with
      | .ok () => .callNext
      | .error (.http status detail) => .respond status detail
      | .error e => .raise e := by
  unfold checkCredential
  rw [securityMiddleware_protected hprotected hwithin, if_pos (.inl hpath)]
  exact if_pos hpath

theorem checkCredential_insecure (hprotected : IsProtected r.path) (hpath : r.path ≠ retrievePath)
    (hwithin : WithinLimit config limits r clock) (hinsecure : config.allowInsecureLocalonly = true) :
    checkCredential config internalToken limits r clock = .callNext := by
  unfold checkCredential
  rw [securityMiddleware_protected hprotected hwithin, if_pos (.inr hinsecure)]
  exact if_neg hpath

theorem checkCredential_token (hprotected : IsProtected r.path) (hpath : r.path ≠ retrievePath)
    (hwithin : WithinLimit config limits r clock) (hsecure : ¬ config.allowInsecureLocalonly = true) :
    checkCredential config internalToken limits r clock =
      match config.isValidToken (extractBearerToken r) with
      | .ok true => .callNext
      | .ok false => .respond 401 "Unauthorized".toList
      | .error e => .raise e := by
  unfold checkCredential
  rw [securityMiddleware_protected hprotected hwithin, if_neg (not_or.mpr ⟨hpath, hsecure⟩)]
  cases config.isValidToken (extractBearerToken r) with
  | error e => rfl
  | ok valid =>
    cases valid with
    | true => exact if_neg hpath
    | false => rfl

/-- An exception that escapes is no answer. -/
theorem not_answered_raise {path : Text} {e : ApiServer.Exn} : ¬ Answered internalToken path (.raise e) := by
  rintro (hnext | ⟨detail, h401⟩ | ⟨-, -, detail, h503⟩)
  · cases hnext
  · cases h401
  · cases h503

theorem answered_retrieve (hprotected : IsProtected r.path) (hpath : r.path = retrievePath)
    (hwithin : WithinLimit config limits r clock) :
    Answered internalToken r.path (checkCredential config internalToken limits r clock) ↔
      InternalComparable internalToken (extractBearerToken r) := by
  rw [checkCredential_retrieve hprotected hpath hwithin]
  constructor
  · intro hanswered
    by_contra h
    rw [checkInternalToken_not_comparable h] at hanswered
    exact not_answered_raise hanswered
  · intro h
    cases internalToken with
    | none => exact .inr (.inr ⟨hpath, rfl, _, rfl⟩)
    | some configured =>
      rw [checkInternalToken_some h]
      by_cases hsame : extractBearerToken r = configured
      · rw [if_pos hsame]
        exact .inl rfl
      · rw [if_neg hsame]
        exact .inr (.inl ⟨_, rfl⟩)

theorem answered_of_ne (hprotected : IsProtected r.path) (hpath : r.path ≠ retrievePath)
    (hwithin : WithinLimit config limits r clock) :
    Answered internalToken r.path (checkCredential (serving apiKey db now config) internalToken limits r clock) ↔
      config.allowInsecureLocalonly = true ∨ Comparable apiKey (extractBearerToken r) := by
  have hserved : WithinLimit (serving apiKey db now config) limits r clock := hwithin
  by_cases hinsecure : config.allowInsecureLocalonly = true
  · rw [checkCredential_insecure hprotected hpath hserved hinsecure]
    exact iff_of_true (.inl rfl) (.inl hinsecure)
  · have hcheck : (serving apiKey db now config).isValidToken = isValidToken apiKey db now := rfl
    rw [checkCredential_token hprotected hpath hserved hinsecure, hcheck]
    by_cases h : Comparable apiKey (extractBearerToken r)
    · have hdecided : TokenDecided apiKey db now (extractBearerToken r) := tokenDecided_of_comparable h
      obtain ⟨valid, hvalid, -⟩ := hdecided
      rw [hvalid]
      refine iff_of_true ?_ (.inr h)
      cases valid with
      | true => exact .inl rfl
      | false => exact .inr (.inl ⟨_, rfl⟩)
    · rw [isValidToken_not_comparable h]
      exact iff_of_false not_answered_raise (not_or.mpr ⟨hinsecure, h⟩)

theorem answered_iff (hprotected : IsProtected r.path) (hwithin : WithinLimit config limits r clock) :
    Answered internalToken r.path (checkCredential (serving apiKey db now config) internalToken limits r clock) ↔
      RequestComparable config apiKey internalToken r := by
  unfold RequestComparable
  by_cases hpath : r.path = retrievePath
  · rw [if_pos hpath]
    exact answered_retrieve hprotected hpath hwithin
  · rw [if_neg hpath]
    exact answered_of_ne hprotected hpath hwithin

/-- A credential gets a decision exactly if it is not a comparison of strings of which one is not ASCII:
by each of the two checks, and as a request to a protected path. -/
theorem credential_decided_iff (config : SecurityMiddleware.Config) (apiKey : Text) (internalToken : Option Text)
    (db : Db) (limits : Limits) (r : HttpRequest) (now clock : ℚ) :
    (TokenDecided apiKey db now (extractBearerToken r) ↔ Comparable apiKey (extractBearerToken r)) ∧
      (InternalDecided internalToken (extractBearerToken r) ↔
        InternalComparable internalToken (extractBearerToken r)) ∧
      (IsProtected r.path → WithinLimit config limits r clock →
        (Answered internalToken r.path
            (checkCredential (serving apiKey db now config) internalToken limits r clock) ↔
          RequestComparable config apiKey internalToken r)) :=
  ⟨tokenDecided_iff, internalDecided_iff, answered_iff⟩

/-! ## Example -/

def sampleRequest (token : Text) : HttpRequest :=
  ⟨"/v1/models".toList, some "203.0.113.9".toList, none, some token, none⟩

theorem withinLimit_sample (token : Text) : WithinLimit .sample ⟨∅, ∅⟩ (sampleRequest token) 0 := by
  refine checkRateLimit_allowed.mpr ?_
  simp [bucket, SlidingWindow.recent, SecurityMiddleware.Config.sample]

theorem isProtected_models : IsProtected "/v1/models".toList := ⟨by decide, by decide, by decide, by decide⟩

/-- A wrong key is answered. -/
theorem credential_decided_iff_sample : Answered none "/v1/models".toList
    (checkCredential (serving ['k'] UserStore.initDb 0 .sample) none ⟨∅, ∅⟩ (sampleRequest ['x']) 0) := by
  refine ((credential_decided_iff .sample ['k'] none UserStore.initDb ⟨∅, ∅⟩ (sampleRequest ['x']) 0 0).2.2
    isProtected_models (withinLimit_sample _)).mpr (.inr (.inr (.inr ?_)))
  have htoken : extractBearerToken (sampleRequest ['x']) = ['x'] := rfl
  rw [htoken]
  decide

def Latin1 (t : Text) : Prop := ∀ c ∈ t, c.toNat < 256

/-- A key with an accent is not. -/
theorem credential_undecided : ¬ ∀ (config : SecurityMiddleware.Config) (apiKey : Text) (internalToken : Option Text)
    (db : Db) (limits : Limits) (r : HttpRequest) (now clock : ℚ),
    (∀ header ∈ r.authorization, Latin1 header) → (∀ cookie ∈ r.cookie, Latin1 cookie) →
    TokenDecided apiKey db now (extractBearerToken r) ∧ InternalDecided internalToken (extractBearerToken r) ∧
      (IsProtected r.path → WithinLimit config limits r clock → Answered internalToken r.path
        (checkCredential (serving apiKey db now config) internalToken limits r clock)) := by
  intro h
  have hlatin : ∀ header ∈ (sampleRequest ['é']).authorization, Latin1 header := by
    rintro header ⟨⟩
    simp [Latin1]
  obtain ⟨-, -, hanswered⟩ := h .sample ['k'] none UserStore.initDb ⟨∅, ∅⟩ (sampleRequest ['é']) 0 0 hlatin nofun
  have hcomparable := (answered_iff isProtected_models (withinLimit_sample _)).mp
    (hanswered isProtected_models (withinLimit_sample _))
  have htoken : extractBearerToken (sampleRequest ['é']) = ['é'] := rfl
  rw [RequestComparable, if_neg (by decide), htoken] at hcomparable
  rcases hcomparable with hinsecure | hempty | hkey | ⟨hascii, -⟩
  · cases hinsecure
  · cases hempty
  · cases hkey
  · revert hascii
    decide

end LocalRag.Credentials
