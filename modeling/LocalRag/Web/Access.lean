-- SUMMARY: Who gets in: requests, logins and changes of the users in any order, and what a request has shown that is let in.
import LocalRag.Web.Credentials
import LocalRag.Web.Login

/-!
# Access

Requests arrive, logins go on, and users are written and deleted beside them. A
request to a protected path is let in for what it shows, as things stand at that
moment. A session stands for a login whose password matched a hash that was stored.
-/

namespace LocalRag.Access

open PyText Effects SecurityMiddleware UserStore Credentials Login

/-! ## The site -/

/-- What is configured, and the dummy hash and the check of `bcrypt`. -/
structure Setup where
  config : SecurityMiddleware.Config
  apiKey : Text
  internalToken : Option Text
  dummyHash : Text
  expiryHours : ℤ
  checkpw : Text → Text → Bool

/-- A request that was let in. -/
structure Entry where
  request : HttpRequest
  now : ℚ
  /-- The operations on the tables before it. -/
  ops : List UserStore.Timed

structure Site where
  limits : Limits
  attempts : List Login.Attempt
  /-- The operations on the tables so far. -/
  ops : List UserStore.Timed
  issued : List Issue
  entered : List Entry

def Site.start : Site := ⟨⟨∅, ∅⟩, [], [], [], []⟩

def Site.db (s : Site) : Db := UserStore.run s.ops

variable (setup : Setup)

/-- The middleware and `/v1/retrieve`'s own check, against the tables as they are. -/
def Site.verdict (s : Site) (r : HttpRequest) (now clock : ℚ) : Verdict :=
  checkCredential (serving setup.apiKey s.db now setup.config) setup.internalToken s.limits r clock

/-- The limits after a request. -/
def Site.limited (s : Site) (r : HttpRequest) (now clock : ℚ) : Limits :=
  (securityMiddleware (serving setup.apiKey s.db now setup.config) s.limits r clock).2

/-- What a call of a login answers, and which operation it is. Any call may fail. -/
def Served (checkpw : Text → Text → Bool) (ops : List UserStore.Timed) (c : Login.Call)
    (o : Except ApiServer.Exn (Login.Reply c)) (ops' : List UserStore.Timed) : Prop :=
  match c, o with
  | .getHash username, .ok (answer : Option Text) =>
    answer = UserStore.getHash (UserStore.run ops) username ∧ ops' = ops
  | .checkpw password hash, .ok (passwordMatches : Bool) => passwordMatches = checkpw password hash ∧ ops' = ops
  | .createSession username expiryHours, .ok (token : Text) =>
    ∃ now, (UserStore.createSession (UserStore.run ops) username expiryHours token now).isSome ∧
      ops' = ops ++ [⟨now, .createSession username expiryHours token⟩]
  | _, .error _ => ops' = ops

inductive Site.Step : Site → Site → Prop where
  /-- A login request is let in. -/
  | arrive {s : Site} (r : HttpRequest) (request : LoginRequest) (now clock : ℚ) (hpath : r.path = loginPath)
    (hnext : s.verdict setup r now clock = .callNext) : Step s
      { s with
        limits := s.limited setup r now clock
        attempts := s.attempts ++
          [⟨request.toCredentials, login setup.dummyHash setup.expiryHours request, none⟩] }
  /-- Any other request is let in. -/
  | enter {s : Site} (r : HttpRequest) (now clock : ℚ) (hpath : r.path ≠ loginPath)
    (hnext : s.verdict setup r now clock = .callNext) : Step s
      { s with
        limits := s.limited setup r now clock
        entered := ⟨r, now, s.ops⟩ :: s.entered }
  | refuse {s : Site} (r : HttpRequest) (now clock : ℚ) (hrefused : s.verdict setup r now clock ≠ .callNext) :
    Step s { s with limits := s.limited setup r now clock }
  | sweepRate {s : Site} (clock : ℚ) : Step s
      { s with
        limits :=
          { s.limits with rate := RateLimit.sweepExpired setup.config.settings s.limits.rate clock } }
  | sweepLogin {s : Site} (clock : ℚ) : Step s
      { s with
        limits :=
          { s.limits with login := RateLimit.sweepExpired setup.config.settings s.limits.login clock } }
  /-- A login makes its next call. -/
  | serve {s : Site} {before after : List Login.Attempt} {credentials : Login.Credentials} {c : Login.Call}
    {k : Except ApiServer.Exn (Login.Reply c) → Auth SessionCookie} {stored : Option Text}
    {o : Except ApiServer.Exn (Login.Reply c)} {ops : List UserStore.Timed}
    (hattempts : s.attempts = before ++ ⟨credentials, .call c k, stored⟩ :: after)
    (hserved : Served setup.checkpw s.ops c o ops) : Step s
      { s with
        attempts := before ++ ⟨credentials, k o, heard stored c o⟩ :: after
        ops := ops
        issued := Login.Attempt.issues ⟨credentials, .call c k, stored⟩ c o ++ s.issued }
  /-- `logout`, `manage_users` and the purge of the expired sessions. -/
  | transaction {s : Site} (o : UserStore.Timed) (ho : createdToken o = none) :
    Step s { s with ops := s.ops ++ [o] }

/-! ## What a request has shown -/

/-- The hash was the user's at some time. -/
def WasStored (ops : List UserStore.Timed) (username hash : Text) : Prop :=
  ∃ before, before <+: ops ∧ UserStore.getHash (UserStore.run before) username = some hash

/-- The session was created by a login with a password that matched the hash that was stored. -/
structure Backs (ops : List UserStore.Timed) (session : Session) (issue : Issue) : Prop where
  token : issue.token = session.token
  username : issue.username = session.username
  checked : ∃ hash, WasStored ops session.username hash ∧ setup.checkpw issue.password hash = true

/-- Why a request to a protected path is let in. -/
inductive Granted (issued : List Issue) (entry : Entry) : Prop where
  | internalToken (hpath : entry.request.path = retrievePath)
    (htoken : setup.internalToken = some (extractBearerToken entry.request))
  | insecure (hpath : entry.request.path ≠ retrievePath)
    (hinsecure : setup.config.allowInsecureLocalonly = true)
  | apiKey (hpath : entry.request.path ≠ retrievePath) (hkey : setup.apiKey ≠ [])
    (htoken : extractBearerToken entry.request = setup.apiKey)
  | session (hpath : entry.request.path ≠ retrievePath) (session : Session)
    (htoken : session.token = extractBearerToken entry.request) (hopen : Open entry.ops session)
    (hexpires : entry.now < session.expiresAt) (hregistered : Registered entry.ops session.username)
    (hbacked : ∃ issue ∈ issued, Backs setup entry.ops session issue)

/-! ## The check -/

variable {setup} {s s' : Site} {r : HttpRequest} {now clock : ℚ}

theorem verdict_limited (hprotected : IsProtected r.path)
    (hlimited : ¬ WithinLimit setup.config s.limits r clock) :
    s.verdict setup r now clock = .respond 429 "Rate limit exceeded".toList := by
  obtain ⟨hunlimited, hlogin, hlogout, -⟩ := hprotected
  have hallowed : (RateLimit.checkRateLimit setup.config.settings
      setup.config.settings.rateMaxRequests s.limits.rate
      (resolveClientIp setup.config.trustedProxyIps r.client r.forwardedFor) clock).1 = false :=
    Bool.eq_false_of_not_eq_true hlimited
  have hverdict : (securityMiddleware (serving setup.apiKey s.db now setup.config) s.limits r clock).1 =
      .respond 429 "Rate limit exceeded".toList := by
    unfold securityMiddleware serving
    dsimp only
    rw [hunlimited, if_neg Bool.false_ne_true, if_neg hlogin, if_neg hlogout, if_pos hallowed]
  unfold Site.verdict checkCredential
  rw [hverdict]

theorem checkInternalToken_eq_ok {internalToken : Option Text} {token : Text}
    (h : ApiServer.checkInternalToken internalToken token = .ok ()) : internalToken = some token := by
  by_cases hcomparable : InternalComparable internalToken token
  · rcases internalDecided_of_comparable hcomparable with ⟨-, hsame⟩ | ⟨-, status, detail, herror⟩
    · exact hsame
    · rw [herror] at h
      cases h
  · rw [checkInternalToken_not_comparable hcomparable] at h
    cases h

theorem isValidToken_true {apiKey : Text} {db : Db} {token : Text}
    (h : isValidToken apiKey db now token = .ok true) :
    apiKey ≠ [] ∧ token = apiKey ∨ ValidSession db now token := by
  by_cases hcomparable : Comparable apiKey token
  · obtain ⟨valid, hvalid, hiff⟩ := (tokenDecided_of_comparable hcomparable : TokenDecided apiKey db now token)
    obtain rfl : valid = true := Except.ok.inj (hvalid.symm.trans h)
    exact (hiff.mp rfl).2
  · rw [isValidToken_not_comparable hcomparable] at h
    cases h

/-- A request to a protected path that is let in shows a credential that is valid then. -/
theorem verdict_callNext (hprotected : IsProtected r.path)
    (hnext : s.verdict setup r now clock = .callNext) :
    if r.path = retrievePath then setup.internalToken = some (extractBearerToken r)
    else setup.config.allowInsecureLocalonly = true ∨
      setup.apiKey ≠ [] ∧ extractBearerToken r = setup.apiKey ∨
      ValidSession s.db now (extractBearerToken r) := by
  have hwithin : WithinLimit setup.config s.limits r clock := by
    by_contra hlimited
    rw [verdict_limited hprotected hlimited] at hnext
    cases hnext
  have hserved : WithinLimit (serving setup.apiKey s.db now setup.config) s.limits r clock := hwithin
  unfold Site.verdict at hnext
  by_cases hpath : r.path = retrievePath
  · rw [if_pos hpath]
    rw [checkCredential_retrieve hprotected hpath hserved] at hnext
    split at hnext
    · next hok => exact checkInternalToken_eq_ok hok
    · cases hnext
    · cases hnext
  · rw [if_neg hpath]
    by_cases hinsecure : setup.config.allowInsecureLocalonly = true
    · exact .inl hinsecure
    · rw [checkCredential_token hprotected hpath hserved hinsecure] at hnext
      split at hnext
      · next hvalid => exact .inr (isValidToken_true hvalid)
      · cases hnext
      · cases hnext

/-! ## What logins have checked -/

variable {ops ops' : List UserStore.Timed} {session : Session} {issue : Issue} {issued issued' : List Issue}
  {entry : Entry} {c : Login.Call} {o : Except ApiServer.Exn (Login.Reply c)} {credentials : Login.Credentials}
  {rest : Auth SessionCookie} {stored : Option Text}

theorem WasStored.mono {username hash : Text} (h : WasStored ops username hash) (hops : ops <+: ops') :
    WasStored ops' username hash := by
  obtain ⟨before, hbefore, hhash⟩ := h
  exact ⟨before, hbefore.trans hops, hhash⟩

theorem Backs.mono (h : Backs setup ops session issue) (hops : ops <+: ops') :
    Backs setup ops' session issue := by
  obtain ⟨hash, hstored, hmatch⟩ := h.checked
  exact ⟨h.token, h.username, hash, hstored.mono hops, hmatch⟩

theorem Granted.mono (h : Granted setup issued entry) (hissued : ∀ issue ∈ issued, issue ∈ issued') :
    Granted setup issued' entry := by
  cases h with
  | internalToken hpath htoken => exact .internalToken hpath htoken
  | insecure hpath hinsecure => exact .insecure hpath hinsecure
  | apiKey hpath hkey htoken => exact .apiKey hpath hkey htoken
  | session hpath session htoken hopen hexpires hregistered hbacked =>
    obtain ⟨issue, hissue, hbacks⟩ := hbacked
    exact .session hpath session htoken hopen hexpires hregistered ⟨issue, hissued issue hissue, hbacks⟩

/-- A call of a login does to the tables what its operation does. -/
theorem serves_of_served {checkpw : Text → Text → Bool} (hserved : Served checkpw ops c o ops') :
    Serves checkpw (UserStore.run ops) c o (UserStore.run ops') := by
  cases o with
  | error e =>
    have hsame : ops' = ops := by cases c <;> exact hserved
    rw [hsame]
    cases c <;> rfl
  | ok answer =>
    cases c with
    | getHash username => exact ⟨hserved.1, congrArg UserStore.run hserved.2⟩
    | checkpw password hash => exact ⟨hserved.1, congrArg UserStore.run hserved.2⟩
    | createSession username hours =>
      obtain ⟨now, hsome, rfl⟩ := hserved
      obtain ⟨db, hdb⟩ := Option.isSome_iff_exists.mp hsome
      have hstep : UserStore.step (UserStore.run ops) ⟨now, .createSession username hours answer⟩ =
          (createSession (UserStore.run ops) username hours answer now).getD (UserStore.run ops) := rfl
      refine ⟨now, ?_⟩
      rw [UserStore.run_append_singleton, hstep, hdb]
      rfl

theorem prefix_of_served {checkpw : Text → Text → Bool} (hserved : Served checkpw ops c o ops') :
    ops <+: ops' := by
  cases o with
  | error e =>
    have hsame : ops' = ops := by cases c <;> exact hserved
    rw [hsame]
  | ok answer =>
    cases c with
    | getHash username => rw [hserved.2]
    | checkpw password hash => rw [hserved.2]
    | createSession username hours =>
      obtain ⟨now, -, rfl⟩ := hserved
      exact List.prefix_append ..

/-- What a login hears from `get_hash` was stored. -/
theorem heard_of_served (hchecked : Checked setup.checkpw credentials c stored)
    (hserved : Served setup.checkpw ops c o ops')
    (hheard : ∀ hash ∈ stored, WasStored ops credentials.username hash) :
    ∀ hash ∈ heard stored c o, WasStored ops' credentials.username hash := by
  have hkept : ∀ hash ∈ stored, WasStored ops' credentials.username hash :=
    fun hash hhash => (hheard hash hhash).mono (prefix_of_served hserved)
  cases o with
  | error e => cases c <;> exact hkept
  | ok answer =>
    cases c with
    | getHash username =>
      obtain ⟨rfl, rfl⟩ := hserved
      obtain rfl : username = credentials.username := hchecked
      exact fun hash hhash => ⟨_, List.prefix_refl _, hhash⟩
    | checkpw password hash => exact hkept
    | createSession username hours => exact hkept

/-- Behind every session that is open stands a login. -/
def Created (setup : Setup) (ops : List UserStore.Timed) (issued : List Issue) : Prop :=
  ∀ session, Open ops session → ∃ issue ∈ issued, Backs setup ops session issue

theorem Created.served (hcreated : Created setup ops issued)
    (hchecked : Checked setup.checkpw credentials c stored)
    (hserved : Served setup.checkpw ops c o ops')
    (hheard : ∀ hash ∈ stored, WasStored ops credentials.username hash) :
    Created setup ops' (Login.Attempt.issues ⟨credentials, rest, stored⟩ c o ++ issued) := by
  have hsame : ops' = ops →
      Created setup ops' (Login.Attempt.issues ⟨credentials, rest, stored⟩ c o ++ issued) := by
    rintro rfl session hopen
    obtain ⟨issue, hissue, hbacks⟩ := hcreated session hopen
    exact ⟨issue, List.mem_append_right _ hissue, hbacks⟩
  cases o with
  | error e => exact hsame (by cases c <;> exact hserved)
  | ok answer =>
    cases c with
    | getHash username => exact hsame hserved.2
    | checkpw password hash => exact hsame hserved.2
    | createSession username hours =>
      obtain ⟨now, -, rfl⟩ := hserved
      obtain ⟨rfl, hash, hstored, hmatch⟩ := hchecked
      intro session hopen
      rcases open_append_singleton.mp hopen with ⟨opened, hop, -⟩ | ⟨hopen, -⟩
      · obtain ⟨husername, -, htoken⟩ := Op.createSession.inj hop
        refine ⟨_, List.mem_cons_self .., htoken, husername, hash, ?_, hmatch⟩
        rw [← husername]
        exact (hheard hash hstored).mono (List.prefix_append ..)
      · obtain ⟨issue, hissue, hbacks⟩ := hcreated session hopen
        exact ⟨issue, List.mem_append_right _ hissue, hbacks.mono (List.prefix_append ..)⟩

theorem Created.transaction {o : UserStore.Timed} (hcreated : Created setup ops issued)
    (ho : createdToken o = none) :
    Created setup (ops ++ [o]) issued := by
  intro session hopen
  rcases open_append_singleton.mp hopen with hopens | ⟨hopen, -⟩
  · rw [createdToken_of_opens hopens] at ho
    cases ho
  · obtain ⟨issue, hissue, hbacks⟩ := hcreated session hopen
    exact ⟨issue, hissue, hbacks.mono (List.prefix_append ..)⟩

/-! ## Runs -/

structure Site.Inv (setup : Setup) (s : Site) : Prop where
  attempts : ∀ attempt ∈ s.attempts, Checks setup.checkpw attempt.toCredentials attempt.rest attempt.stored
  heard : ∀ attempt ∈ s.attempts, ∀ hash ∈ attempt.stored, WasStored s.ops attempt.username hash
  created : Created setup s.ops s.issued
  entered : ∀ entry ∈ s.entered, IsProtected entry.request.path → Granted setup s.issued entry

theorem Site.Inv.start : Site.start.Inv setup :=
  ⟨nofun, nofun, fun _ hopen => absurd hopen not_open_nil, nofun⟩

/-- What is let in is granted. -/
theorem granted_of_callNext (hcreated : Created setup s.ops s.issued) (hprotected : IsProtected r.path)
    (hnext : s.verdict setup r now clock = .callNext) : Granted setup s.issued ⟨r, now, s.ops⟩ := by
  have hshown := verdict_callNext hprotected hnext
  by_cases hpath : r.path = retrievePath
  · rw [if_pos hpath] at hshown
    exact .internalToken hpath hshown
  · rw [if_neg hpath] at hshown
    rcases hshown with hinsecure | ⟨hkey, htoken⟩ | ⟨session, hsession, htoken, hexpires, huser⟩
    · exact .insecure hpath hinsecure
    · exact .apiKey hpath hkey htoken
    · have hopen : Open s.ops session := open_of_session_mem_run hsession
      exact .session hpath session htoken hopen hexpires (user_mem_run.mp huser) (hcreated session hopen)

theorem Site.Inv.step (hinv : s.Inv setup) (hstep : Site.Step setup s s') : s'.Inv setup := by
  cases hstep with
  | arrive r request now clock hpath hnext =>
    refine ⟨fun attempt hattempt => ?_, fun attempt hattempt => ?_, hinv.created, hinv.entered⟩
    · rcases List.mem_append.mp hattempt with hattempt | hattempt
      · exact hinv.attempts attempt hattempt
      · rw [List.mem_singleton.mp hattempt]
        exact checks_login request
    · rcases List.mem_append.mp hattempt with hattempt | hattempt
      · exact hinv.heard attempt hattempt
      · rw [List.mem_singleton.mp hattempt]
        nofun
  | enter r now clock hpath hnext =>
    refine ⟨hinv.attempts, hinv.heard, hinv.created, fun entry hentry hprotected => ?_⟩
    rcases List.mem_cons.mp hentry with rfl | hentry
    · have hgranted : Granted setup s.issued ⟨r, now, s.ops⟩ :=
        granted_of_callNext hinv.created hprotected hnext
      exact hgranted
    · exact hinv.entered entry hentry hprotected
  | refuse r now clock hrefused => exact ⟨hinv.attempts, hinv.heard, hinv.created, hinv.entered⟩
  | sweepRate clock => exact ⟨hinv.attempts, hinv.heard, hinv.created, hinv.entered⟩
  | sweepLogin clock => exact ⟨hinv.attempts, hinv.heard, hinv.created, hinv.entered⟩
  | @serve before after credentials c k stored o ops hattempts hserved =>
    have hmem : (⟨credentials, .call c k, stored⟩ : Login.Attempt) ∈ s.attempts := by simp [hattempts]
    obtain ⟨hchecked, hrest⟩ := hinv.attempts _ hmem
    have hheard := hinv.heard _ hmem
    -- The other logins stay as they are.
    have hother : ∀ attempt ∈ before ++ ⟨credentials, k o, Login.heard stored c o⟩ :: after,
        attempt = ⟨credentials, k o, Login.heard stored c o⟩ ∨ attempt ∈ s.attempts := by
      intro attempt hattempt
      rw [hattempts]
      rcases List.mem_append.mp hattempt with hattempt | hattempt
      · exact .inr (List.mem_append_left _ hattempt)
      · rcases List.mem_cons.mp hattempt with rfl | hattempt
        · exact .inl rfl
        · exact .inr (List.mem_append_right _ (List.mem_cons_of_mem _ hattempt))
    refine ⟨fun attempt hattempt => ?_, fun attempt hattempt => ?_, hinv.created.served hchecked hserved hheard,
      fun entry hentry hprotected => ?_⟩
    · rcases hother attempt hattempt with rfl | hattempt
      · exact hrest o _ (listening_of_serves (serves_of_served hserved))
      · exact hinv.attempts attempt hattempt
    · rcases hother attempt hattempt with rfl | hattempt
      · exact heard_of_served hchecked hserved hheard
      · exact fun hash hhash => (hinv.heard attempt hattempt hash hhash).mono (prefix_of_served hserved)
    · exact (hinv.entered entry hentry hprotected).mono fun issue hissue => List.mem_append_right _ hissue
  | transaction o ho =>
    refine ⟨hinv.attempts, fun attempt hattempt hash hhash => ?_, hinv.created.transaction ho, hinv.entered⟩
    exact (hinv.heard attempt hattempt hash hhash).mono (List.prefix_append ..)

/-- Whatever happens, a request to a protected path is let in only in insecure mode, with the configured
key or token, or with an open session: one that has not expired, of a user who is registered and was
neither written nor deleted since a login created it, whose password matched a hash of that user. -/
theorem entered_granted (setup : Setup) (s : Site)
    (hrun : Relation.ReflTransGen (Site.Step setup) .start s) :
    ∀ entry ∈ s.entered, IsProtected entry.request.path → Granted setup s.issued entry := by
  have hinv : s.Inv setup := by
    induction hrun with
    | refl => exact .start
    | tail _ hstep ih => exact ih.step hstep
  exact hinv.entered

/-! ## Example -/

/-- Sessions only, with the default settings. -/
def sampleSetup : Setup where
  config := .sample
  apiKey := []
  internalToken := none
  dummyHash := []
  expiryHours := 8
  checkpw := sampleCheckpw

def sampleLogin : HttpRequest := ⟨loginPath, some "203.0.113.9".toList, none, none, none⟩

/-- The user is written, and logs in. -/
def sampleOps : List UserStore.Timed :=
  [⟨0, .upsertUser ['a'] ['1']⟩, ⟨0, .createSession ['a'] 8 ['t']⟩]

def sampleEntry : Entry := ⟨Credentials.sampleRequest ['t'], 1, sampleOps⟩

/-- The request that the user then makes is let in. -/
def sampleSite (limits : Limits) : Site where
  limits := limits
  attempts := [⟨Login.sampleRequest.toCredentials, .ret (.ok ⟨['t'], false, 28800⟩), some ['1']⟩]
  ops := sampleOps
  issued := [⟨Login.sampleRequest.toCredentials, ['t'], some ['1']⟩]
  entered := [sampleEntry]

/-- The only login makes its next call. -/
theorem Site.Step.serve_only {limits : Limits} {entered : List Entry}
    {k : Except ApiServer.Exn (Login.Reply c) → Auth SessionCookie}
    (hserved : Served setup.checkpw ops c o ops') :
    Site.Step setup ⟨limits, [⟨credentials, .call c k, stored⟩], ops, issued, entered⟩
      ⟨limits, [⟨credentials, k o, heard stored c o⟩], ops',
        Login.Attempt.issues ⟨credentials, .call c k, stored⟩ c o ++ issued,
        entered⟩ := by
  have hstep : Site.Step setup ⟨limits, [] ++ ⟨credentials, .call c k, stored⟩ :: [], ops, issued, entered⟩
      ⟨limits, [] ++ ⟨credentials, k o, heard stored c o⟩ :: [], ops', _, entered⟩ := .serve rfl hserved
  exact hstep

theorem verdict_sampleLogin (hlimits : s.limits.login = ∅) :
    s.verdict sampleSetup sampleLogin 0 0 = .callNext := by
  have hallowed : (RateLimit.checkLoginRateLimit sampleSetup.config.settings s.limits.login
      (resolveClientIp sampleSetup.config.trustedProxyIps sampleLogin.client
        sampleLogin.forwardedFor) 0).1 = true := by
    rw [hlimits]
    decide
  have hnext : (securityMiddleware (serving sampleSetup.apiKey s.db 0 sampleSetup.config)
      s.limits sampleLogin 0).1 =
      .callNext := (securityMiddleware_login s.limits rfl 0).1.mpr hallowed
  unfold Site.verdict checkCredential
  rw [hnext]
  rfl

theorem verdict_sampleEntry (hlimits : s.limits.rate = ∅) (hops : s.ops = sampleOps) :
    s.verdict sampleSetup sampleEntry.request 1 0 = .callNext := by
  have hroom : (RateLimit.checkRateLimit sampleSetup.config.settings
      sampleSetup.config.settings.rateMaxRequests ∅
      (resolveClientIp sampleSetup.config.trustedProxyIps sampleEntry.request.client
        sampleEntry.request.forwardedFor) 0).1 =
        true := by decide
  have hwithin : WithinLimit (serving sampleSetup.apiKey s.db 1 sampleSetup.config) s.limits
      sampleEntry.request 0 := by
    rw [WithinLimit, hlimits]
    exact hroom
  have hsecure : ¬ sampleSetup.config.allowInsecureLocalonly = true := by decide
  have hvalid : isValidToken [] (UserStore.run sampleOps) 1 (extractBearerToken sampleEntry.request) =
      .ok true := by
    decide +kernel
  have hcheck : (serving sampleSetup.apiKey s.db 1 sampleSetup.config).isValidToken
      (extractBearerToken sampleEntry.request) =
      .ok true := by
    rw [Site.db, hops]
    exact hvalid
  unfold Site.verdict
  rw [checkCredential_token isProtected_models (by decide) hwithin hsecure, hcheck]

theorem sample_run :
    ∃ limits, Relation.ReflTransGen (Site.Step sampleSetup) .start (sampleSite limits) := by
  apply Exists.intro
  refine .head (.transaction ⟨0, .upsertUser ['a'] ['1']⟩ rfl) ?_
  refine .head (.arrive sampleLogin Login.sampleRequest 0 0 rfl (verdict_sampleLogin rfl)) ?_
  refine .head (Site.Step.serve_only (c := .getHash ['a']) (o := .ok (some ['1'])) ⟨rfl, rfl⟩) ?_
  refine .head (Site.Step.serve_only (c := .checkpw ['1'] ['1']) (o := .ok true) ⟨rfl, rfl⟩) ?_
  refine .head (Site.Step.serve_only (c := .createSession ['a'] 8) (o := .ok ['t'])
    ⟨0, by decide +kernel, rfl⟩) ?_
  refine .single (.enter sampleEntry.request 1 0 (by decide) (verdict_sampleEntry ?_ rfl))
  exact congrArg Limits.rate (securityMiddleware_login _ rfl 0).2

/-- The request shows the session of the login. -/
theorem entered_granted_sample :
    Granted sampleSetup [⟨Login.sampleRequest.toCredentials, ['t'], some ['1']⟩] sampleEntry := by
  obtain ⟨limits, hrun⟩ := sample_run
  exact entered_granted sampleSetup (sampleSite limits) hrun sampleEntry (List.mem_singleton_self _)
    isProtected_models

end LocalRag.Access
