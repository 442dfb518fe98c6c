-- SUMMARY: Users as `manage_users.py` writes them, and when a login answers by the password that was set last.
import LocalRag.Web.Login
import LocalRag.Web.SseDeltas

/-!
# Passwords

`manage_users.py` stores a bcrypt hash for a user, and `login` checks a password against
it. The password of a login has up to 128 characters; bcrypt takes 72 bytes.
-/

namespace LocalRag.Passwords

open PyText Effects UserStore Login Sql

/-! ## bcrypt -/

/-- A hash function for passwords of up to 72 bytes, and its check. The salt is drawn by `gensalt`. -/
structure Bcrypt where
  hash : List UInt8 → Text → Text
  check : List UInt8 → Text → Bool
  check_hash : ∀ p q salt, p.length ≤ 72 → q.length ≤ 72 → (check p (hash q salt) = true ↔ p = q)
  hash_ne_nil : ∀ p salt, hash p salt ≠ []

/-- `password.encode()`. -/
def encode (password : Text) : List UInt8 := SseDeltas.encodeUtf8 password

/-- The password is not too long for bcrypt. -/
def Fits (password : Text) : Prop := (encode password).length ≤ 72

instance (password : Text) : Decidable (Fits password) := inferInstanceAs (Decidable (_ ≤ _))

variable (bcrypt : Bcrypt)

/-- `bcrypt.hashpw`, which raises `ValueError` for a longer password. -/
def hashpw (password salt : Text) : Except ApiServer.Exn Text :=
  if Fits password then .ok (bcrypt.hash (encode password) salt) else .error .other

/-- `bcrypt.checkpw`. -/
def checkpw (password hash : Text) : Except ApiServer.Exn Bool :=
  if Fits password then .ok (bcrypt.check (encode password) hash) else .error .other

/-! ## Managing users -/

/-- How a command ends that does not succeed. -/
inductive Failure where
  /-- `sys.exit(1)`, with a message on stderr -/
  | exit (message : Text)
  | raised (e : ApiServer.Exn)

/-- `cmd_add`, with the passwords that are typed. -/
def cmdAdd (db : Db) (username password confirm salt : Text) : Except Failure Db :=
  if strip username = [] then .error (.exit "Username cannot be empty.".toList)
  else if password ≠ confirm then .error (.exit "Passwords do not match.".toList)
  else
    match hashpw bcrypt password salt with
    | .error e => .error (.raised e)
    | .ok passwordHash => .ok (upsertUser db username passwordHash)

/-- `cmd_remove`. -/
def cmdRemove (db : Db) (username : Text) : Except Failure Db := .ok (deleteUser db username)

inductive Command where
  | add (username password confirm salt : Text)
  | remove (username : Text)

/-- A command that fails leaves the tables as they are. -/
def manage (db : Db) : Command → Db
  | .add username password confirm salt => (cmdAdd bcrypt db username password confirm salt).toOption.getD db
  | .remove username => (cmdRemove db username).toOption.getD db

def manageAll (commands : List Command) : Db := commands.foldl (manage bcrypt) UserStore.initDb

/-- The password of a user after a command. -/
def setPassword (username : Text) (last : Option Text) : Command → Option Text
  | .add user password confirm _ =>
    if user = username ∧ strip user ≠ [] ∧ password = confirm ∧ Fits password then some password else last
  | .remove user => if user = username then none else last

/-- The password that was last set for a user who is registered. -/
def passwordOf (commands : List Command) (username : Text) : Option Text := commands.foldl (setPassword username) none

/-! ## Logging in -/

/-- What `LoginRequest` admits. -/
def Admitted (credentials : Credentials) : Prop :=
  (1 ≤ credentials.username.length ∧ credentials.username.length ≤ 128) ∧
    (1 ≤ credentials.password.length ∧ credentials.password.length ≤ 128)

/-- The calls of a login, with the token that is drawn and the clock. -/
def server (token : Text) (now : ℚ) : Machine AuthIface ApiServer.Exn Db where
  step
    | .getHash username, db => (.ok (UserStore.getHash db username), db)
    | .checkpw password hash, db => (checkpw bcrypt password hash, db)
    | .createSession username expiryHours, db =>
      match createSession db username expiryHours token now with
      | some db' => (.ok token, db')
      | none => (.error .other, db)
  fault _ := .other

/-- `_DUMMY_HASH`. -/
def dummyHash (salt : Text) : Text := bcrypt.hash (encode "__sentinel__".toList) salt

/-- What `login` returns or raises, and the tables that it leaves. -/
def loginOutcome (salt : Text) (expiryHours : ℤ) (token : Text) (now : ℚ) (db : Db) (request : LoginRequest) :
    Except ApiServer.Exn SessionCookie × Db :=
  (login (dummyHash bcrypt salt) expiryHours request).exec (server bcrypt token now) db

/-- The users that the commands have left, and sessions. -/
def tables (commands : List Command) (sessions : Table Session.token) : Db :=
  { manageAll bcrypt commands with sessions := sessions }

/-- The cookie that a login sets. -/
def sessionCookie (expiryHours : ℤ) (request : LoginRequest) (token : Text) : SessionCookie :=
  ⟨token, request.isSecure, expiryHours * 3600⟩

/-- The login succeeds with a session for the right password, and is refused for any other. -/
def LoginExact (password : Option Text) (expiryHours : ℤ) (token : Text) (now : ℚ) (db : Db) (request : LoginRequest)
    (outcome : Except ApiServer.Exn SessionCookie × Db) : Prop :=
  (password = some request.password ∧ ∃ db', createSession db request.username expiryHours token now = some db' ∧
      outcome = (.ok (sessionCookie expiryHours request token), db')) ∨
    (password ≠ some request.password ∧ outcome = (.error (.http 401 "Invalid credentials".toList), db))

variable {bcrypt} {username password : Text} {last : Option Text} {db : Db}

/-! ## bcrypt on passwords -/

theorem encode_injective : Function.Injective encode := by
  intro p q h
  have hbytes : p.utf8Encode = q.utf8Encode := congrArg List.toByteArray h
  have hdecode := congrArg ByteArray.utf8Decode? hbytes
  rw [List.utf8Decode?_utf8Encode, List.utf8Decode?_utf8Encode] at hdecode
  simpa using hdecode

theorem checkpw_of_fits {hash : Text} (hfits : Fits password) :
    checkpw bcrypt password hash = .ok (bcrypt.check (encode password) hash) := if_pos hfits

/-- A password is accepted against the hash of itself, and of no other. -/
theorem check_hash_iff {p q salt : Text} (hp : Fits p) (hq : Fits q) :
    bcrypt.check (encode p) (bcrypt.hash (encode q) salt) = true ↔ p = q := by
  rw [bcrypt.check_hash _ _ salt hp hq]
  exact encode_injective.eq_iff

/-! ## What is stored -/

/-- The user has a hash of the password, or is not registered. -/
def Stores (bcrypt : Bcrypt) (db : Db) (username : Text) : Option Text → Prop
  | none => UserStore.getHash db username = none
  | some password => Fits password ∧ ∃ salt, UserStore.getHash db username = some (bcrypt.hash (encode password) salt)

theorem Stores.of_getHash_eq {db' : Db} (h : UserStore.getHash db' username = UserStore.getHash db username)
    (hstores : Stores bcrypt db username last) : Stores bcrypt db' username last := by
  cases last with
  | none => exact h.trans hstores
  | some password =>
    obtain ⟨hfits, salt, hhash⟩ := hstores
    exact ⟨hfits, salt, h.trans hhash⟩

theorem getHash_upsertUser {user passwordHash : Text} : UserStore.getHash (upsertUser db user passwordHash) username =
    if user = username then some passwordHash else UserStore.getHash db username := by
  by_cases hsame : user = username
  · rw [if_pos hsame, ← hsame]
    exact congrArg (Option.map User.passwordHash) Table.find_upsert_self
  · rw [if_neg hsame]
    exact congrArg (Option.map User.passwordHash) (Table.find_upsert_of_ne (Ne.symm hsame))

theorem getHash_deleteUser {user : Text} : UserStore.getHash (deleteUser db user) username =
    if user = username then none else UserStore.getHash db username := by
  have hfind : (deleteUser db user).users.find username =
      if decide (username = user) then none else db.users.find username :=
    Table.find_deleteWhere_key (q := fun u => decide (u = user))
  rw [UserStore.getHash, hfind]
  by_cases hsame : user = username
  · rw [if_pos (decide_eq_true hsame.symm), if_pos hsame]
    rfl
  · rw [if_neg (by simpa using Ne.symm hsame), if_neg hsame]
    rfl

/-- `add` writes the user, unless it is refused or `hashpw` raises. -/
theorem manage_add {user confirm salt : Text} : manage bcrypt db (.add user password confirm salt) =
    if strip user ≠ [] ∧ password = confirm ∧ Fits password then
      upsertUser db user (bcrypt.hash (encode password) salt)
    else db := by
  rw [manage, cmdAdd]
  by_cases hblank : strip user = []
  · rw [if_pos hblank, if_neg fun h => h.1 hblank]
    rfl
  · rw [if_neg hblank]
    by_cases hconfirm : password = confirm
    · rw [if_neg (not_not.mpr hconfirm), hashpw]
      by_cases hfits : Fits password
      · rw [if_pos hfits, if_pos ⟨hblank, hconfirm, hfits⟩]
        rfl
      · rw [if_neg hfits, if_neg fun h => hfits h.2.2]
        rfl
    · rw [if_pos hconfirm, if_neg fun h => hconfirm h.2.1]
      rfl

/-- A command changes what is stored for a user as it changes the password. -/
theorem Stores.manage (hstores : Stores bcrypt db username last) (command : Command) :
    Stores bcrypt (manage bcrypt db command) username (setPassword username last command) := by
  cases command with
  | remove user =>
    have hhash : UserStore.getHash (Passwords.manage bcrypt db (.remove user)) username = _ := getHash_deleteUser
    rw [setPassword]
    by_cases hsame : user = username
    · rw [if_pos hsame] at hhash ⊢
      exact hhash
    · rw [if_neg hsame] at hhash ⊢
      exact hstores.of_getHash_eq hhash
  | add user password confirm salt =>
    rw [manage_add, setPassword]
    by_cases hadded : strip user ≠ [] ∧ password = confirm ∧ Fits password
    · rw [if_pos hadded]
      have hhash : UserStore.getHash (upsertUser db user (bcrypt.hash (encode password) salt)) username = _ :=
        getHash_upsertUser
      by_cases hsame : user = username
      · rw [if_pos hsame] at hhash
        rw [if_pos ⟨hsame, hadded⟩]
        exact ⟨hadded.2.2, salt, hhash⟩
      · rw [if_neg hsame] at hhash
        rw [if_neg fun h => hsame h.1]
        exact hstores.of_getHash_eq hhash
    · -- Nothing is written, and the password stays what it was.
      rw [if_neg hadded, if_neg fun h => hadded h.2]
      exact hstores

theorem stores_manageAll (commands : List Command) (username : Text) :
    Stores bcrypt (manageAll bcrypt commands) username (passwordOf commands username) := by
  induction commands using List.reverseRecOn with
  | nil => exact rfl
  | append_singleton commands command ih =>
    rw [manageAll, passwordOf, List.foldl_append, List.foldl_append]
    exact ih.manage command

/-! ## What a login makes of it -/

variable {salt token : Text} {expiryHours : ℤ} {now : ℚ} {request : LoginRequest} {stored : Option Text}

/-- A login up to the answer of `checkpw`. -/
theorem loginOutcome_checked {r : Except ApiServer.Exn Bool}
    (hstored : (UserStore.getHash db request.username).filter (· ≠ []) = stored)
    (hcheck : checkpw bcrypt request.password (stored.getD (dummyHash bcrypt salt)) = r) :
    loginOutcome bcrypt salt expiryHours token now db request = ((Prog.ret r : Auth Bool).bind fun passwordMatches =>
      if stored = none ∨ passwordMatches = false then throw (ApiServer.Exn.http 401 "Invalid credentials".toList)
      else (Login.call (.createSession request.username expiryHours) : Auth Text).bind fun token =>
        pure (sessionCookie expiryHours request token)).exec (server bcrypt token now) db := by
  -- Both sides have made the first two calls.
  subst hstored
  subst hcheck
  rfl

theorem loginOutcome_error {e : ApiServer.Exn}
    (hstored : (UserStore.getHash db request.username).filter (· ≠ []) = stored)
    (hcheck : checkpw bcrypt request.password (stored.getD (dummyHash bcrypt salt)) = .error e) :
    loginOutcome bcrypt salt expiryHours token now db request = (.error e, db) :=
  loginOutcome_checked hstored hcheck

theorem loginOutcome_refused {passwordMatches : Bool}
    (hstored : (UserStore.getHash db request.username).filter (· ≠ []) = stored)
    (hcheck : checkpw bcrypt request.password (stored.getD (dummyHash bcrypt salt)) = .ok passwordMatches)
    (hrefused : stored = none ∨ passwordMatches = false) :
    loginOutcome bcrypt salt expiryHours token now db request =
      (.error (.http 401 "Invalid credentials".toList), db) := by
  rw [loginOutcome_checked hstored hcheck, Prog.bind, if_pos hrefused]
  rfl

theorem loginOutcome_accepted {db' : Db} (hstored : (UserStore.getHash db request.username).filter (· ≠ []) = stored)
    (hcheck : checkpw bcrypt request.password (stored.getD (dummyHash bcrypt salt)) = .ok true)
    (hsome : stored ≠ none) (hcreate : createSession db request.username expiryHours token now = some db') :
    loginOutcome bcrypt salt expiryHours token now db request =
      (.ok (sessionCookie expiryHours request token), db') := by
  have hstep : (server bcrypt token now).step (.createSession request.username expiryHours) db =
      (.ok token, db') := by
    simp only [server, hcreate]
  have hpassed : ¬ (stored = none ∨ true = false) := not_or.mpr ⟨hsome, by decide⟩
  rw [loginOutcome_checked hstored hcheck, Prog.bind, if_neg hpassed]
  exact Prog.exec_call hstep

theorem createSession_fresh (hfresh : ∀ s ∈ db.sessions.rows, s.token ≠ token) :
    ∃ db', createSession db username expiryHours token now = some db' := by
  have hinsert : db.sessions.insert ⟨token, username, now + expiryHours * 3600⟩ ≠ none := by
    intro htaken
    obtain ⟨s, hs, hsame⟩ := Table.insert_eq_none_iff.mp htaken
    exact hfresh s hs hsame
  obtain ⟨sessions, hsessions⟩ := Option.ne_none_iff_exists'.mp hinsert
  exact ⟨{ db with sessions }, by rw [createSession]; simp [hsessions]⟩

/-- A password that fits is checked against what was last set. -/
theorem loginExact_of_fits (hstores : Stores bcrypt db request.username last)
    (hfresh : ∀ s ∈ db.sessions.rows, s.token ≠ token) (hfits : Fits request.password) :
    LoginExact last expiryHours token now db request
      (loginOutcome bcrypt salt expiryHours token now db request) := by
  cases last with
  | none =>
    -- The password is checked against the dummy hash, and the answer does not matter.
    have hstored : (UserStore.getHash db request.username).filter (· ≠ []) = none := by
      rw [show UserStore.getHash db request.username = none from hstores]
      rfl
    exact .inr ⟨nofun, loginOutcome_refused hstored (checkpw_of_fits hfits) (.inl rfl)⟩
  | some password =>
    obtain ⟨hset, salt', hhash⟩ := hstores
    have hstored : (UserStore.getHash db request.username).filter (· ≠ []) =
        some (bcrypt.hash (encode password) salt') := by
      rw [hhash, Option.filter_some, if_pos (decide_eq_true (bcrypt.hash_ne_nil _ _))]
    have hcheck : checkpw bcrypt request.password (bcrypt.hash (encode password) salt') = _ := checkpw_of_fits hfits
    by_cases hsame : request.password = password
    · rw [(check_hash_iff hfits hset).mpr hsame] at hcheck
      obtain ⟨db', hcreate⟩ := createSession_fresh hfresh
      exact .inl ⟨congrArg some hsame.symm, db', hcreate, loginOutcome_accepted hstored hcheck nofun hcreate⟩
    · rw [Bool.eq_false_iff.mpr fun h => hsame ((check_hash_iff hfits hset).mp h)] at hcheck
      exact .inr ⟨fun h => hsame (Option.some.inj h).symm, loginOutcome_refused hstored hcheck (.inr rfl)⟩

/-- A longer password makes `checkpw` raise, whoever logs in. -/
theorem not_loginExact_of_not_fits (hfits : ¬ Fits request.password) :
    ¬ LoginExact last expiryHours token now db request
      (loginOutcome bcrypt salt expiryHours token now db request) := by
  have houtcome : loginOutcome bcrypt salt expiryHours token now db request = (.error .other, db) :=
    loginOutcome_error rfl (if_neg hfits)
  rw [houtcome]
  rintro (⟨-, db', -, hok⟩ | ⟨-, herror⟩)
  · cases hok
  · cases herror

/-- Whatever users `manage_users.py` has left and whatever sessions there are, a login is exact for
the passwords that bcrypt takes, and for no other. -/
theorem login_exact_iff (bcrypt : Bcrypt) (commands : List Command) (sessions : Table Session.token) (salt : Text)
    (expiryHours : ℤ) (token : Text) (now : ℚ) (request : LoginRequest)
    (hfresh : ∀ s ∈ sessions.rows, s.token ≠ token) :
    LoginExact (passwordOf commands request.username) expiryHours token now (tables bcrypt commands sessions) request
        (loginOutcome bcrypt salt expiryHours token now (tables bcrypt commands sessions) request) ↔
      Fits request.password := by
  constructor
  · intro hexact
    by_contra hfits
    exact not_loginExact_of_not_fits hfits hexact
  · have hstores : Stores bcrypt (tables bcrypt commands sessions) request.username
        (passwordOf commands request.username) := (stores_manageAll commands request.username).of_getHash_eq rfl
    exact loginExact_of_fits hstores hfresh

/-! ## Example -/

/-- The hash of a password is its bytes, after a mark. -/
def sampleBcrypt : Bcrypt where
  hash password _ := '$' :: password.map fun b => Char.ofNat b.toNat
  check password hash := hash = '$' :: password.map fun b => Char.ofNat b.toNat
  check_hash p q _ _ _ := by
    rw [decide_eq_true_iff, List.cons_inj_right, (List.map_injective_iff.mpr charOfByte_injective).eq_iff, eq_comm]
  hash_ne_nil _ _ := List.cons_ne_nil _ _

def sampleLogin (password : Text) : LoginRequest := ⟨⟨['a'], password⟩, "http".toList, none⟩

/-- A user whose password was changed logs in with the new one. -/
theorem login_exact_iff_sample : LoginExact (some ['2']) 8 ['t'] 0
    (tables sampleBcrypt [.add ['a'] ['1'] ['1'] [], .add ['a'] ['2'] ['2'] []] .empty) (sampleLogin ['2'])
    (loginOutcome sampleBcrypt [] 8 ['t'] 0
      (tables sampleBcrypt [.add ['a'] ['1'] ['1'] [], .add ['a'] ['2'] ['2'] []] .empty) (sampleLogin ['2'])) :=
  (login_exact_iff sampleBcrypt [.add ['a'] ['1'] ['1'] [], .add ['a'] ['2'] ['2'] []] .empty [] 8 ['t'] 0
    (sampleLogin ['2']) nofun).mpr (by decide)

/-- A password of 73 letters is answered with an exception. -/
theorem login_raises : ¬ ∀ (bcrypt : Bcrypt) (commands : List Command) (sessions : Table Session.token) (salt : Text)
    (expiryHours : ℤ) (token : Text) (now : ℚ) (request : LoginRequest),
    (∀ s ∈ sessions.rows, s.token ≠ token) → Admitted request.toCredentials →
    LoginExact (passwordOf commands request.username) expiryHours token now (tables bcrypt commands sessions) request
      (loginOutcome bcrypt salt expiryHours token now (tables bcrypt commands sessions) request) := by
  intro h
  have hfits : ¬ Fits (sampleLogin (List.replicate 73 'a')).password := by decide
  have hadmitted : Admitted (sampleLogin (List.replicate 73 'a')).toCredentials := by simp [Admitted, sampleLogin]
  exact not_loginExact_of_not_fits hfits
    (h sampleBcrypt [] .empty [] 8 ['t'] 0 (sampleLogin (List.replicate 73 'a')) nofun hadmitted)

end LocalRag.Passwords
