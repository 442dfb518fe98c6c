-- SUMMARY: Logins beside changes of the users: when a session stands for the password that is stored.
import LocalRag.Base.Wp
import LocalRag.Web.ApiServer
import LocalRag.Web.UserStore

/-!
# Logins

A login reads the stored hash, checks the password against it in a thread, and then
stores a session. Between these steps `manage_users` may write or delete the user:
that deletes the sessions the user has, and not the one that is about to be created.
-/

namespace LocalRag.Login

open PyText Effects UserStore Sql

/-! ## The endpoint -/

inductive Call where
  | getHash (username : Text)
  /-- `asyncio.to_thread(_bcrypt.checkpw, …)` -/
  | checkpw (password hash : Text)
  | createSession (username : Text) (expiryHours : ℤ)

def Reply : Call → Type
  | .getHash _ => Option Text
  | .checkpw _ _ => Bool
  | .createSession _ _ => Text

abbrev AuthIface : Iface := ⟨Call, Reply⟩

abbrev Auth (α : Type) := Prog AuthIface ApiServer.Exn α

def call (c : Call) : Auth (Reply c) := Prog.lift (I := AuthIface) c

structure Credentials where
  username : Text
  password : Text

/-- What `login` reads of the request. -/
structure LoginRequest extends Credentials where
  scheme : Text
  /-- `X-Forwarded-Proto` -/
  forwardedProto : Option Text

/-- The cookie of the response. -/
structure SessionCookie where
  token : Text
  secure : Bool
  maxAge : ℤ

def LoginRequest.isSecure (request : LoginRequest) : Bool :=
  request.scheme = "https".toList ||
    strip ((request.forwardedProto.getD []).takeWhile (· ≠ ',')) = "https".toList

variable (dummyHash : Text) (expiryHours : ℤ)

/-- `login`. An empty hash counts as no hash. -/
def login (request : LoginRequest) : Auth SessionCookie := do
  let answer : Option Text ← call (.getHash request.username)
  let stored := answer.filter (· ≠ [])
  let passwordMatches : Bool ← call (.checkpw request.password (stored.getD dummyHash))
  if stored = none ∨ passwordMatches = false then throw (ApiServer.Exn.http 401 "Invalid credentials".toList)
  else do
    let token : Text ← call (.createSession request.username expiryHours)
    pure ⟨token, request.isSecure, expiryHours * 3600⟩

/-! ## Logins beside other transactions -/

/-- A login in progress: what is left of it, and what `get_hash` has answered. -/
structure Attempt extends Credentials where
  rest : Auth SessionCookie
  stored : Option Text

/-- A session that was created, with the login that it was created for. -/
structure Issue extends Credentials where
  token : Text
  stored : Option Text

structure State where
  db : Db
  attempts : List Attempt
  issued : List Issue

variable (checkpw : Text → Text → Bool)

/-- What a call answers, and does to the tables. Any call may fail. -/
def Serves (db : Db) (c : Call) (o : Except ApiServer.Exn (Reply c)) (db' : Db) : Prop :=
  match c, o with
  | .getHash username, .ok (answer : Option Text) => answer = UserStore.getHash db username ∧ db' = db
  | .checkpw password hash, .ok (passwordMatches : Bool) =>
    passwordMatches = checkpw password hash ∧ db' = db
  | .createSession username expiryHours, .ok (token : Text) =>
    ∃ now, createSession db username expiryHours token now = some db'
  | _, .error _ => db' = db

/-- What `get_hash` has answered. -/
def heard (stored : Option Text) : (c : Call) → Except ApiServer.Exn (Reply c) → Option Text
  | .getHash _, .ok (answer : Option Text) => answer
  | _, _ => stored

def Attempt.issues (attempt : Attempt) : (c : Call) → Except ApiServer.Exn (Reply c) → List Issue
  | .createSession _ _, .ok (token : Text) => [⟨attempt.toCredentials, token, attempt.stored⟩]
  | _, _ => []

/-- A login arrives, a login makes a call that `meets` allows, or another transaction runs: users are
written and deleted, sessions are deleted, purged and validated. -/
inductive Step (meets : Db → Attempt → Call → Prop) : State → State → Prop where
  | arrive {s : State} (request : LoginRequest) :
    Step meets s
      { s with attempts := s.attempts ++ [⟨request.toCredentials, login dummyHash expiryHours request, none⟩] }
  | serve {s : State} {before after : List Attempt} {credentials : Credentials} {c : Call}
    {k : Except ApiServer.Exn (Reply c) → Auth SessionCookie} {stored : Option Text} {o : Except ApiServer.Exn (Reply c)}
    {db : Db} (hattempts : s.attempts = before ++ ⟨credentials, .call c k, stored⟩ :: after)
    (hmeets : meets s.db ⟨credentials, .call c k, stored⟩ c) (hserves : Serves checkpw s.db c o db) :
    Step meets s
      { db := db
        attempts := before ++ ⟨credentials, k o, heard stored c o⟩ :: after
        issued := Attempt.issues ⟨credentials, .call c k, stored⟩ c o ++ s.issued }
  | transaction {s : State} (o : Timed) (ho : createdToken o = none) :
    Step meets s { s with db := step s.db o }

def State.start : State := ⟨UserStore.initDb, [], []⟩

/-- A token that `validate_session` accepts was issued by a login whose password was checked against
the hash that is stored. -/
def State.Current (s : State) : Prop :=
  ∀ token now username, validateSession s.db token now = some username →
    ∃ issue ∈ s.issued, issue.token = token ∧ issue.username = username ∧
      ∃ hash, UserStore.getHash s.db username = some hash ∧ issue.stored = some hash ∧
        checkpw issue.password hash = true

/-- A session is created only if its user is gone, or still has the hash that `get_hash` answered. -/
def Unchanged (db : Db) (attempt : Attempt) (c : Call) : Prop :=
  match c with
  | .createSession username _ => ∀ hash, UserStore.getHash db username = some hash → attempt.stored = some hash
  | _ => True

/-! ## What a login checks -/

variable {dummyHash expiryHours checkpw} {db : Db} {c : Call} {stored : Option Text}

/-- The answers, with what `get_hash` has answered. -/
def listening (checkpw : Text → Text → Bool) : Answers AuthIface ApiServer.Exn (Option Text) :=
  fun c stored o stored' => stored' = heard stored c o ∧
    match c, o with
    | .checkpw password hash, .ok (passwordMatches : Bool) => passwordMatches = checkpw password hash
    | _, _ => True

/-- A session is created for a password that matches the hash that `get_hash` has answered. -/
def Checked (checkpw : Text → Text → Bool) (credentials : Credentials) (c : Call)
    (stored : Option Text) : Prop :=
  match c with
  | .getHash username => username = credentials.username
  | .checkpw _ _ => True
  | .createSession username _ => username = credentials.username ∧
    ∃ hash, stored = some hash ∧ checkpw credentials.password hash = true

abbrev Checks (checkpw : Text → Text → Bool) (credentials : Credentials) {α : Type} (prog : Auth α)
    (stored : Option Text) : Prop :=
  wp (listening checkpw) (Checked checkpw credentials) prog (fun _ _ => True) stored

theorem checks_login (request : LoginRequest) :
    Checks checkpw request.toCredentials (login dummyHash expiryHours request) none := by
  refine wp_bind.mpr (wp_lift.mpr ⟨rfl, ?_⟩)
  rintro o stored ⟨rfl, -⟩
  cases o with
  | error e => trivial
  | ok answer =>
    refine wp_bind.mpr (wp_lift.mpr ⟨trivial, ?_⟩)
    rintro o stored ⟨rfl, hmatches⟩
    cases o with
    | error e => trivial
    | ok passwordMatches =>
      dsimp only [onOk]
      split
      · trivial
      · next hok =>
        obtain ⟨hstored, hpassed⟩ := not_or.mp hok
        obtain ⟨hash, hanswer⟩ := Option.ne_none_iff_exists'.mp hstored
        have hmatch : checkpw request.password hash = true := by
          have hchecked : (passwordMatches : Bool) = checkpw request.password
              ((Option.filter (fun hash => decide (hash ≠ [])) stored).getD dummyHash) := hmatches
          rw [hanswer, Option.getD_some] at hchecked
          rw [← hchecked]
          exact Bool.eq_true_of_not_eq_false hpassed
        have hread : stored = some hash := (Option.filter_eq_some_iff.mp hanswer).1
        exact wp_bind.mpr (wp_lift.mpr ⟨⟨rfl, hash, hread, hmatch⟩, fun o stored _ => by cases o <;> trivial⟩)

/-! ## What the stored sessions stand for -/

/-- Every session of a user that is stored stands for the hash that is stored. -/
structure State.Inv (checkpw : Text → Text → Bool) (s : State) : Prop where
  attempts : ∀ attempt ∈ s.attempts, Checks checkpw attempt.toCredentials attempt.rest attempt.stored
  sessions : ∀ session ∈ s.db.sessions.rows, ∀ hash, UserStore.getHash s.db session.username = some hash →
    ∃ issue ∈ s.issued, issue.token = session.token ∧ issue.username = session.username ∧
      issue.stored = some hash ∧ checkpw issue.password hash = true

variable {s s' : State}

theorem createSession_eq_some {username token : Text} {now : ℚ} {db' : Db}
    (hcreate : createSession db username expiryHours token now = some db') :
    db'.users = db.users ∧ ∀ session, session ∈ db'.sessions.rows ↔
      session ∈ db.sessions.rows ∨ session = ⟨token, username, now + expiryHours * 3600⟩ := by
  obtain ⟨sessions, hinsert, hdb⟩ := Option.bind_eq_some_iff.mp hcreate
  obtain rfl := Option.some.inj hdb
  exact ⟨rfl, fun session => Table.mem_insert hinsert⟩

theorem listening_of_serves {o : Except ApiServer.Exn (Reply c)} {db' : Db} (hserves : Serves checkpw db c o db') :
    listening checkpw c stored o (heard stored c o) := by
  refine ⟨rfl, ?_⟩
  cases o with
  | error e => cases c <;> trivial
  | ok answer =>
    cases c with
    | checkpw password hash => exact hserves.1
    | _ => trivial

/-- A session that survives a transaction stands for the same hash. -/
theorem survives_step {o : Timed} (ho : createdToken o = none) {session : Session}
    (hsession : session ∈ (step db o).sessions.rows) {hash : Text}
    (hhash : UserStore.getHash (step db o) session.username = some hash) :
    session ∈ db.sessions.rows ∧ UserStore.getHash db session.username = some hash := by
  have hopens : ¬ Opens session o := by
    intro hopens
    rw [createdToken_of_opens hopens] at ho
    cases ho
  obtain ⟨hmem, hcloses, -⟩ := (session_mem_step.mp hsession).resolve_left fun h => hopens h.1
  refine ⟨hmem, ?_⟩
  obtain ⟨now, op⟩ := o
  cases op with
  | upsertUser username passwordHash =>
    have hne : session.username ≠ username := by
      rintro rfl
      exact hcloses (.inr (.inl ⟨passwordHash, rfl⟩))
    have hfind : (db.users.upsert ⟨username, passwordHash⟩).find session.username =
        db.users.find session.username := Table.find_upsert_of_ne hne
    have hafter : ((db.users.upsert ⟨username, passwordHash⟩).find session.username).map
        User.passwordHash = some hash := hhash
    rw [hfind] at hafter
    exact hafter
  | deleteUser username =>
    have hne : session.username ≠ username := by
      rintro rfl
      exact hcloses (.inr (.inr rfl))
    have hfind := Table.find_deleteWhere_key (t := db.users) (q := fun u => decide (u = username))
      (k := session.username)
    rw [if_neg (by simpa using hne)] at hfind
    have hafter : ((db.users.deleteWhere fun u => u.username = username).find session.username).map
        User.passwordHash = some hash := hhash
    rw [hfind] at hafter
    exact hafter
  | createSession username expiryHours token => cases ho
  | _ => exact hhash

theorem State.Inv.start : State.start.Inv checkpw := ⟨nofun, nofun⟩

theorem State.Inv.step (hinv : s.Inv checkpw)
    (hstep : Step dummyHash expiryHours checkpw Unchanged s s') : s'.Inv checkpw := by
  cases hstep with
  | arrive request =>
    refine ⟨fun attempt hattempt => ?_, hinv.sessions⟩
    rcases List.mem_append.mp hattempt with hattempt | hattempt
    · exact hinv.attempts attempt hattempt
    · obtain rfl := List.mem_singleton.mp hattempt
      exact checks_login request
  | @serve before after credentials c k stored o db hattempts hmeets hserves =>
    have hmem : (⟨credentials, .call c k, stored⟩ : Attempt) ∈ s.attempts := by simp [hattempts]
    obtain ⟨hchecked, hrest⟩ := hinv.attempts _ hmem
    refine ⟨fun attempt hattempt => ?_, ?_⟩
    · rcases List.mem_append.mp hattempt with hattempt | hattempt
      · exact hinv.attempts attempt (by simp [hattempts, hattempt])
      · rcases List.mem_cons.mp hattempt with rfl | hattempt
        · exact hrest o _ (listening_of_serves hserves)
        · exact hinv.attempts attempt (by simp [hattempts, hattempt])
    · -- Only a session that is created can stand for another hash.
      have hsame : db = s.db → ∀ session ∈ db.sessions.rows, ∀ hash,
          UserStore.getHash db session.username = some hash →
          ∃ issue ∈ Attempt.issues ⟨credentials, .call c k, stored⟩ c o ++ s.issued,
            issue.token = session.token ∧ issue.username = session.username ∧
              issue.stored = some hash ∧ checkpw issue.password hash = true := by
        rintro rfl session hsession hash hhash
        obtain ⟨issue, hissue, hstands⟩ := hinv.sessions session hsession hash hhash
        exact ⟨issue, List.mem_append_right _ hissue, hstands⟩
      cases o with
      | error e =>
        refine hsame ?_
        cases c <;> exact hserves
      | ok answer =>
        cases c with
        | getHash username => exact hsame hserves.2
        | checkpw password hash => exact hsame hserves.2
        | createSession username hours =>
          obtain ⟨now, hcreate⟩ := hserves
          obtain ⟨husers, hsessions⟩ := createSession_eq_some hcreate
          obtain ⟨(husername : username = credentials.username), checked, hstored, hmatch⟩ := hchecked
          intro session hsession hash hhash
          have hhash : UserStore.getHash s.db session.username = some hash := by
            rw [UserStore.getHash, ← husers]
            exact hhash
          rcases (hsessions session).mp hsession with hsession | rfl
          · obtain ⟨issue, hissue, hstands⟩ := hinv.sessions session hsession hash hhash
            exact ⟨issue, List.mem_append_right _ hissue, hstands⟩
          · have hcurrent : stored = some hash := hmeets hash hhash
            obtain rfl : checked = hash := Option.some.inj (hstored.symm.trans hcurrent)
            exact ⟨_, List.mem_cons_self .., rfl, husername.symm, hstored, hmatch⟩
  | transaction o ho =>
    refine ⟨hinv.attempts, fun session hsession hash hhash => ?_⟩
    obtain ⟨hbefore, hhash⟩ := survives_step ho hsession hhash
    exact hinv.sessions session hbefore hash hhash

theorem State.inv_run (hrun : Relation.ReflTransGen (Step dummyHash expiryHours checkpw Unchanged) .start s) :
    s.Inv checkpw := by
  induction hrun with
  | refl => exact .start
  | tail _ hstep ih => exact ih.step hstep

/-- In every run in which each session is created while its user has the hash that `get_hash` has
answered, or is gone, every token that is accepted was issued for the hash that is stored. -/
theorem validateSession_current (dummyHash : Text) (expiryHours : ℤ) (checkpw : Text → Text → Bool) (s : State)
    (hrun : Relation.ReflTransGen (Step dummyHash expiryHours checkpw Unchanged) .start s) :
    s.Current checkpw := by
  intro token now username hvalid
  obtain ⟨session, hsession, rfl, rfl, -, user, huser, hname⟩ := validateSession_eq_some_iff.mp hvalid
  have hhash : UserStore.getHash s.db session.username = some user.passwordHash := by
    rw [UserStore.getHash, Table.find_eq_some_iff.mpr ⟨huser, hname⟩]
    rfl
  obtain ⟨issue, hissue, htoken, husername, hstands⟩ :=
    (State.inv_run hrun).sessions session hsession _ hhash
  exact ⟨issue, hissue, htoken, husername, _, hhash, hstands⟩

/-! ## A password that is changed during a login -/

/-- A login that makes its next call. -/
theorem Step.serve_only {meets : Db → Attempt → Call → Prop} {db db' : Db} {issued : List Issue}
    {credentials : Credentials} {k : Except ApiServer.Exn (Reply c) → Auth SessionCookie} {o : Except ApiServer.Exn (Reply c)}
    (hmeets : meets db ⟨credentials, .call c k, stored⟩ c) (hserves : Serves checkpw db c o db') :
    Step dummyHash expiryHours checkpw meets ⟨db, [⟨credentials, .call c k, stored⟩], issued⟩
      ⟨db', [⟨credentials, k o, heard stored c o⟩],
        Attempt.issues ⟨credentials, .call c k, stored⟩ c o ++ issued⟩ := by
  have hstep : Step dummyHash expiryHours checkpw meets
      ⟨db, [] ++ ⟨credentials, .call c k, stored⟩ :: [], issued⟩
      ⟨db', [] ++ ⟨credentials, k o, heard stored c o⟩ :: [], _⟩ := .serve rfl hmeets hserves
  exact hstep

/-- The hash of a password is the password itself. -/
def sampleCheckpw (password hash : Text) : Bool := password = hash

def sampleRequest : LoginRequest := ⟨⟨['a'], ['1']⟩, "http".toList, none⟩

/-- The tables with a user and a session. -/
def sampleDb (hash : Text) : Db :=
  let db := upsertUser UserStore.initDb ['a'] hash
  (createSession db ['a'] 8 ['t'] 0).getD db

/-- The user has the hash, and the login with the password `1` has got its session. -/
def sampleState (hash : Text) : State where
  db := sampleDb hash
  attempts := [⟨sampleRequest.toCredentials, .ret (.ok ⟨['t'], false, 28800⟩), some ['1']⟩]
  issued := [⟨sampleRequest.toCredentials, ['t'], some ['1']⟩]

/-- What is left of the login when its session is created. -/
def sampleEnd (o : Except ApiServer.Exn Text) : Auth SessionCookie :=
  (Prog.ret o).bind fun token => pure ⟨token, sampleRequest.isSecure, 8 * 3600⟩

/-- The login up to the creation of its session. -/
theorem sample_checked (meets : Db → Attempt → Call → Prop)
    (hmeets : ∀ db attempt c, (∀ username hours, c ≠ .createSession username hours) → meets db attempt c) :
    Relation.ReflTransGen (Step [] 8 sampleCheckpw meets) .start
      ⟨upsertUser UserStore.initDb ['a'] ['1'],
        [⟨sampleRequest.toCredentials, .call (.createSession ['a'] 8) sampleEnd, some ['1']⟩], []⟩ := by
  refine .head (.transaction ⟨0, .upsertUser ['a'] ['1']⟩ rfl) ?_
  refine .head (.arrive sampleRequest) ?_
  refine .head (Step.serve_only (c := .getHash ['a']) (o := .ok (some ['1'])) (hmeets _ _ _ nofun) ⟨rfl, rfl⟩) ?_
  exact .single (Step.serve_only (c := .checkpw ['1'] ['1']) (o := .ok true) (hmeets _ _ _ nofun) ⟨rfl, rfl⟩)

/-- The user is still there with the same hash. -/
theorem validateSession_current_sample :
    ∃ issue ∈ (sampleState ['1']).issued, issue.token = ['t'] ∧ issue.username = ['a'] ∧
      ∃ hash, UserStore.getHash (sampleState ['1']).db ['a'] = some hash ∧ issue.stored = some hash ∧
        sampleCheckpw issue.password hash = true := by
  have hrun : Relation.ReflTransGen (Step [] 8 sampleCheckpw Unchanged) .start (sampleState ['1']) := by
    refine .tail (sample_checked Unchanged fun _ _ c hc => ?_) ?_
    · cases c with
      | createSession username hours => exact absurd rfl (hc username hours)
      | _ => trivial
    · have hunchanged : Unchanged (upsertUser UserStore.initDb ['a'] ['1'])
          ⟨sampleRequest.toCredentials, .call (.createSession ['a'] 8) sampleEnd, some ['1']⟩
          (.createSession ['a'] 8) := fun hash hhash => hhash
      exact Step.serve_only (c := .createSession ['a'] 8) (o := .ok ['t']) hunchanged ⟨0, rfl⟩
  exact validateSession_current [] 8 sampleCheckpw (sampleState ['1']) hrun ['t'] 0 ['a'] (by decide +kernel)

/-- The password is changed between the check and the creation of the session: the token is accepted,
and its login has checked another hash. -/
theorem validateSession_outdated : ¬ ∀ s,
    Relation.ReflTransGen (Step [] 8 sampleCheckpw fun _ _ _ => True) .start s → s.Current sampleCheckpw := by
  intro hcurrent
  have hrun : Relation.ReflTransGen (Step [] 8 sampleCheckpw fun _ _ _ => True) .start (sampleState ['2']) := by
    refine .tail (.tail (sample_checked _ fun _ _ _ _ => trivial) (.transaction ⟨0, .upsertUser ['a'] ['2']⟩ rfl)) ?_
    exact Step.serve_only (c := .createSession ['a'] 8) (o := .ok ['t']) trivial ⟨0, rfl⟩
  obtain ⟨issue, hissue, -, -, hash, hhash, hstored, -⟩ := hcurrent _ hrun ['t'] 0 ['a'] (by decide +kernel)
  obtain rfl := List.mem_singleton.mp hissue
  have hsame : UserStore.getHash (sampleState ['2']).db ['a'] = some ['1'] := hhash.trans hstored.symm
  exact absurd hsame (by decide)

end LocalRag.Login
