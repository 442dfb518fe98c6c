-- SUMMARY: The user and session store (`web/user_store.py`) and exactly when a session is valid.
import LocalRag.Base.PyText
import LocalRag.Base.Table
import Mathlib.Algebra.Order.Ring.Rat
import Mathlib.Data.List.Pairwise
import Mathlib.Tactic.NormNum

/-! # User and session store -/

namespace LocalRag.UserStore

open PyText Sql

structure User where
  username : Text
  passwordHash : Text

structure Session where
  token : Text
  username : Text
  expiresAt : ℚ

/-- `data/users.sqlite3`. -/
structure Db where
  users : Table User.username
  sessions : Table Session.token

def initDb : Db := ⟨.empty, .empty⟩

def getHash (db : Db) (username : Text) : Option Text :=
  (db.users.find username).map User.passwordHash

def upsertUser (db : Db) (username passwordHash : Text) : Db where
  users := db.users.upsert ⟨username, passwordHash⟩
  sessions := db.sessions.deleteWhere fun s => s.username = username

def deleteUser (db : Db) (username : Text) : Db where
  users := db.users.deleteWhere fun u => u.username = username
  sessions := db.sessions.deleteWhere fun s => s.username = username

/-- `create_session`, with the token drawn and the clock read. A token that is
taken violates the primary key and nothing is inserted. -/
def createSession (db : Db) (username : Text) (expiryHours : ℤ) (token : Text) (now : ℚ) :
    Option Db := do
  let expiresAt := now + expiryHours * 3600
  let sessions ← db.sessions.insert ⟨token, username, expiresAt⟩
  return { db with sessions }

/-- `validate_session`: the first row of the join. -/
def validateSession (db : Db) (token : Text) (now : ℚ) : Option Text :=
  ((db.sessions.rows.filter fun s => s.token = token ∧ s.expiresAt > now).flatMap fun s =>
    (db.users.rows.filter fun u => u.username = s.username).map fun _ => s.username).head?

def deleteSession (db : Db) (token : Text) : Db :=
  { db with sessions := db.sessions.deleteWhere fun s => s.token = token }

def purgeExpiredSessions (db : Db) (now : ℚ) : Db :=
  { db with sessions := db.sessions.deleteWhere fun s => s.expiresAt ≤ now }

/-- A session is valid while it is stored, has not expired and its user exists. -/
theorem validateSession_eq_some_iff {db : Db} {token u : Text} {now : ℚ} :
    validateSession db token now = some u ↔
      ∃ s ∈ db.sessions.rows, s.token = token ∧ s.username = u ∧ now < s.expiresAt ∧
        ∃ user ∈ db.users.rows, user.username = u := by
  unfold validateSession
  constructor
  · intro h
    have hu := List.mem_of_mem_head? h
    simp only [List.mem_flatMap, List.mem_filter, List.mem_map, decide_eq_true_eq] at hu
    obtain ⟨s, ⟨hs, htok, hexp⟩, user, ⟨huser, hname⟩, rfl⟩ := hu
    exact ⟨s, hs, htok, rfl, hexp, user, huser, hname⟩
  · rintro ⟨s, hs, htok, rfl, hexp, user, huser, hname⟩
    -- The token is the primary key: every row of the join belongs to `s`.
    have hrow : ∀ v ∈ (db.sessions.rows.filter fun s => s.token = token ∧ s.expiresAt > now).flatMap
        fun s => (db.users.rows.filter fun u => u.username = s.username).map fun _ => s.username,
        v = s.username := by
      intro v hv
      simp only [List.mem_flatMap, List.mem_filter, List.mem_map, decide_eq_true_eq] at hv
      obtain ⟨s', ⟨hs', htok', _⟩, _, _, rfl⟩ := hv
      rw [List.inj_on_of_nodup_map db.sessions.unique hs' hs (htok'.trans htok.symm)]
    have hmem : s.username ∈ (db.sessions.rows.filter fun s => s.token = token ∧
        s.expiresAt > now).flatMap fun s =>
        (db.users.rows.filter fun u => u.username = s.username).map fun _ => s.username := by
      simp only [List.mem_flatMap, List.mem_filter, List.mem_map, decide_eq_true_eq]
      exact ⟨s, ⟨hs, htok, hexp⟩, user, ⟨huser, hname⟩, rfl⟩
    obtain ⟨v, rest, hlist⟩ := List.exists_cons_of_ne_nil (List.ne_nil_of_mem hmem)
    rw [hlist, List.head?_cons, hrow v (by rw [hlist]; exact List.mem_cons_self)]

/-! ## Histories -/

inductive Op where
  | upsertUser (username passwordHash : Text)
  | deleteUser (username : Text)
  | createSession (username : Text) (expiryHours : ℤ) (token : Text)
  | deleteSession (token : Text)
  | purgeExpiredSessions
  | validateSession (token : Text)
  deriving DecidableEq

/-- An operation with the time it runs at. -/
structure Timed where
  time : ℚ
  op : Op

def step (db : Db) (o : Timed) : Db :=
  match o.op with
  | .upsertUser username passwordHash => upsertUser db username passwordHash
  | .deleteUser username => deleteUser db username
  | .createSession username expiryHours token =>
    (createSession db username expiryHours token o.time).getD db
  | .deleteSession token => deleteSession db token
  | .purgeExpiredSessions => purgeExpiredSessions db o.time
  | .validateSession _ => db

def run (ops : List Timed) : Db := ops.foldl step initDb

def createdToken (o : Timed) : Option Text :=
  match o.op with
  | .createSession _ _ token => some token
  | _ => none

/-- Tokens are drawn fresh, and time does not run backwards. -/
structure History (ops : List Timed) : Prop where
  sorted : ops.Pairwise fun o o' => o.time ≤ o'.time
  fresh : (ops.filterMap createdToken).Nodup

/-! ## What a history says about users and sessions -/

/-- The operation opens the session. -/
def Opens (s : Session) (o : Timed) : Prop :=
  ∃ expiryHours, o.op = .createSession s.username expiryHours s.token ∧
    s.expiresAt = o.time + 3600 * expiryHours

/-- The operation closes the session: it is deleted, or its user is written or deleted. -/
def Closes (s : Session) (o : Timed) : Prop :=
  o.op = .deleteSession s.token ∨ (∃ passwordHash, o.op = .upsertUser s.username passwordHash) ∨
    o.op = .deleteUser s.username

/-- The session was opened and not closed since. -/
def Open (ops : List Timed) (s : Session) : Prop :=
  ∃ before o after, ops = before ++ o :: after ∧ Opens s o ∧ ∀ o' ∈ after, ¬ Closes s o'

/-- The user was written and not deleted since. -/
def Registered (ops : List Timed) (u : Text) : Prop :=
  ∃ before o after, ops = before ++ o :: after ∧ (∃ passwordHash, o.op = .upsertUser u passwordHash) ∧
    ∀ o' ∈ after, o'.op ≠ .deleteUser u

variable {ops : List Timed} {o : Timed} {s : Session} {u : Text}

/-- “`p` happened and no `q` since” after one more operation. -/
theorem since_append_singleton {α : Type} {p q : α → Prop} {l : List α} {a : α} :
    (∃ before o after, l ++ [a] = before ++ o :: after ∧ p o ∧ ∀ o' ∈ after, q o') ↔
      p a ∨ (∃ before o after, l = before ++ o :: after ∧ p o ∧ ∀ o' ∈ after, q o') ∧ q a := by
  constructor
  · rintro ⟨before, o, after, h, hp, hq⟩
    rcases List.eq_nil_or_concat after with rfl | ⟨after, b, rfl⟩
    · obtain ⟨rfl, hoa⟩ := List.append_inj' h rfl
      obtain rfl : a = o := by simpa using hoa
      exact .inl hp
    · rw [List.concat_eq_append, ← List.cons_append, ← List.append_assoc] at h
      obtain ⟨rfl, hab⟩ := List.append_inj' h rfl
      obtain rfl : a = b := by simpa using hab
      exact .inr ⟨⟨before, o, after, rfl, hp, fun o' ho' => hq o' (by simp [ho'])⟩, hq a (by simp)⟩
  · rintro (hp | ⟨⟨before, o, after, rfl, hp, hq⟩, ha⟩)
    · exact ⟨l, a, [], rfl, hp, by simp⟩
    · refine ⟨before, o, after ++ [a], by simp, hp, ?_⟩
      intro o' ho'
      rcases List.mem_append.mp ho' with ho' | ho'
      · exact hq o' ho'
      · rwa [List.mem_singleton.mp ho']

theorem open_append_singleton : Open (ops ++ [o]) s ↔ Opens s o ∨ Open ops s ∧ ¬ Closes s o :=
  since_append_singleton

theorem registered_append_singleton : Registered (ops ++ [o]) u ↔
    (∃ passwordHash, o.op = .upsertUser u passwordHash) ∨
      Registered ops u ∧ o.op ≠ .deleteUser u :=
  since_append_singleton

theorem not_open_nil : ¬ Open [] s := by rintro ⟨before, o, after, h, _⟩; simp at h
theorem not_registered_nil : ¬ Registered [] u := by rintro ⟨before, o, after, h, _⟩; simp at h

/-- A session that is open after more operations was opened by them, or was open
before and survived them all. -/
theorem Open.of_append {later : List Timed} (h : Open (ops ++ later) s) :
    (∃ o ∈ later, Opens s o) ∨ Open ops s ∧ ∀ o ∈ later, ¬ Closes s o := by
  induction later using List.reverseRecOn with
  | nil => exact .inr ⟨by simpa using h, by simp⟩
  | append_singleton later o ih =>
    rw [← List.append_assoc, open_append_singleton] at h
    rcases h with hopens | ⟨h, hsurvives⟩
    · exact .inl ⟨o, by simp, hopens⟩
    · rcases ih h with ⟨o', ho', hopens⟩ | ⟨hopen, hall⟩
      · exact .inl ⟨o', by simp [ho'], hopens⟩
      · refine .inr ⟨hopen, fun o' ho' => ?_⟩
        rcases List.mem_append.mp ho' with ho' | ho'
        · exact hall o' ho'
        · rwa [List.mem_singleton.mp ho']

theorem createdToken_of_opens (h : Opens s o) : createdToken o = some s.token := by
  obtain ⟨hours, hop, _⟩ := h
  simp [createdToken, hop]

theorem Open.createdToken_mem (h : Open ops s) : s.token ∈ ops.filterMap createdToken := by
  obtain ⟨before, o, after, rfl, hopens, _⟩ := h
  exact List.mem_filterMap.mpr ⟨o, by simp, createdToken_of_opens hopens⟩

/-! ## One operation on the tables -/

theorem run_append_singleton : run (ops ++ [o]) = step (run ops) o := by simp [run]

/-- Whether a user is in the table after an operation. -/
theorem user_mem_step {db : Db} :
    (∃ user ∈ (step db o).users.rows, user.username = u) ↔
      (∃ passwordHash, o.op = .upsertUser u passwordHash) ∨
        (∃ user ∈ db.users.rows, user.username = u) ∧ o.op ≠ .deleteUser u := by
  obtain ⟨now, op⟩ := o
  cases op with
  | upsertUser username passwordHash =>
    simp only [step, upsertUser, Table.mem_upsert, Op.upsertUser.injEq]
    constructor
    · rintro ⟨user, rfl | ⟨hmem, _⟩, rfl⟩
      · exact .inl ⟨passwordHash, rfl, rfl⟩
      · exact .inr ⟨⟨user, hmem, rfl⟩, by simp⟩
    · rintro (⟨_, rfl, _⟩ | ⟨⟨user, hmem, rfl⟩, _⟩)
      · exact ⟨_, .inl rfl, rfl⟩
      · by_cases h : user.username = username
        · exact ⟨_, .inl rfl, h.symm⟩
        · exact ⟨user, .inr ⟨hmem, h⟩, rfl⟩
  | deleteUser username =>
    simp only [step, deleteUser, Table.mem_deleteWhere, decide_eq_false_iff_not]
    constructor
    · rintro ⟨user, ⟨hmem, hne⟩, rfl⟩
      exact .inr ⟨⟨user, hmem, rfl⟩, by simpa using Ne.symm hne⟩
    · rintro (⟨_, h⟩ | ⟨⟨user, hmem, rfl⟩, hne⟩)
      · cases h
      · exact ⟨user, ⟨hmem, by rintro rfl; exact hne rfl⟩, rfl⟩
  | createSession username expiryHours token =>
    have husers : (step db ⟨now, .createSession username expiryHours token⟩).users = db.users := by
      simp only [step, createSession]
      cases db.sessions.insert _ <;> rfl
    simp [husers]
  | deleteSession token => simp [step, deleteSession]
  | purgeExpiredSessions => simp [step, purgeExpiredSessions]
  | validateSession token => simp [step]

/-- Which sessions are in the table after an operation. -/
theorem session_mem_step {db : Db} :
    s ∈ (step db o).sessions.rows ↔
      (Opens s o ∧ ∀ s' ∈ db.sessions.rows, s'.token ≠ s.token) ∨
        s ∈ db.sessions.rows ∧ ¬ Closes s o ∧
          ¬ (o.op = .purgeExpiredSessions ∧ s.expiresAt ≤ o.time) := by
  obtain ⟨now, op⟩ := o
  cases op with
  | upsertUser username passwordHash =>
    simp [step, upsertUser, Opens, Closes, eq_comm]
  | deleteUser username => simp [step, deleteUser, Opens, Closes, eq_comm]
  | createSession username expiryHours token =>
    simp only [step, createSession, Opens, Closes, Op.createSession.injEq, reduceCtorEq,
      exists_const, or_self, not_false_eq_true, false_and, and_true]
    cases hins : db.sessions.insert ⟨token, username, now + expiryHours * 3600⟩ with
    | none =>
      obtain ⟨x, hx, hkey⟩ := Table.insert_eq_none_iff.mp hins
      simp only [Option.bind_eq_bind, Option.bind_none, Option.getD_none]
      constructor
      · exact .inr
      · rintro (⟨⟨_, ⟨_, _, htok⟩, _⟩, hnone⟩ | hs)
        · exact absurd (hkey.trans htok) (hnone x hx)
        · exact hs
    | some t =>
      have hfree : ∀ s' ∈ db.sessions.rows, s'.token ≠ token := by
        intro s' hs' htok
        rw [Table.insert_eq_none_iff.mpr ⟨s', hs', htok⟩] at hins
        cases hins
      simp only [Option.bind_eq_bind, Option.bind_some, Option.pure_def, Option.getD_some,
        Table.mem_insert hins]
      constructor
      · rintro (hs | rfl)
        · exact .inr hs
        · exact .inl ⟨⟨expiryHours, ⟨rfl, rfl, rfl⟩, by rw [mul_comm]⟩, hfree⟩
      · rintro (⟨⟨_, ⟨rfl, rfl, rfl⟩, hexp⟩, _⟩ | hs)
        · right
          obtain ⟨tok, name, exp⟩ := s
          have hexp : exp = now + 3600 * expiryHours := hexp
          rw [hexp, mul_comm]
        · exact .inl hs
  | deleteSession token => simp [step, deleteSession, Opens, Closes, eq_comm]
  | purgeExpiredSessions => simp [step, purgeExpiredSessions, Opens, Closes]
  | validateSession token => simp [step, Opens, Closes]

/-! ## The tables follow the history -/

theorem user_mem_run : (∃ user ∈ (run ops).users.rows, user.username = u) ↔ Registered ops u := by
  induction ops using List.reverseRecOn with
  | nil => exact iff_of_false (by simp [run, initDb, Table.empty]) not_registered_nil
  | append_singleton ops o ih =>
    rw [run_append_singleton, user_mem_step, registered_append_singleton, ih]

theorem open_of_session_mem_run (h : s ∈ (run ops).sessions.rows) : Open ops s := by
  induction ops using List.reverseRecOn with
  | nil => simp [run, initDb, Table.empty] at h
  | append_singleton ops o ih =>
    rw [run_append_singleton, session_mem_step] at h
    rw [open_append_singleton]
    rcases h with ⟨hopens, _⟩ | ⟨hs, hcloses, _⟩
    · exact .inl hopens
    · exact .inr ⟨ih hs, hcloses⟩

theorem History.prefix {later : List Timed} (h : History (ops ++ later)) : History ops where
  sorted := (List.pairwise_append.mp h.sorted).1
  fresh := by
    have := h.fresh
    rw [List.filterMap_append] at this
    exact (List.nodup_append.mp this).1

/-- A token that an operation creates was not created before it. -/
theorem History.token_not_mem (h : History (ops ++ [o])) {token : Text}
    (ho : createdToken o = some token) : token ∉ ops.filterMap createdToken := by
  have hfresh := h.fresh
  rw [List.filterMap_append, List.nodup_append] at hfresh
  intro hmem
  exact hfresh.2.2 token hmem token (by simp [ho]) rfl

/-- Only one operation creates a token. -/
theorem History.eq_of_createdToken (h : History ops) {o o' : Timed} (ho : o ∈ ops) (ho' : o' ∈ ops)
    {token : Text} (hc : createdToken o = some token) (hc' : createdToken o' = some token) :
    o = o' := by
  by_contra hne
  have hpair := List.pairwise_filterMap.mp h.fresh
  have : Std.Symm fun a a' : Timed => ∀ b, createdToken a = some b →
      ∀ b', createdToken a' = some b' → b ≠ b' :=
    ⟨fun _ _ hr b hb b' hb' => (hr b' hb' b hb).symm⟩
  exact hpair.forall ho ho' hne token hc token hc' rfl

/-- An open session that has not expired is stored. -/
theorem session_mem_run_of_open (hist : History ops) {now : ℚ} (hnow : ∀ o ∈ ops, o.time ≤ now)
    (h : Open ops s) (hexp : now < s.expiresAt) : s ∈ (run ops).sessions.rows := by
  induction ops using List.reverseRecOn with
  | nil => exact absurd h not_open_nil
  | append_singleton ops o ih =>
    rw [run_append_singleton, session_mem_step]
    rcases open_append_singleton.mp h with hopens | ⟨hopen, hcloses⟩
    · refine .inl ⟨hopens, fun s' hs' htok => ?_⟩
      have hcreated := (open_of_session_mem_run hs').createdToken_mem
      rw [htok] at hcreated
      exact hist.token_not_mem (createdToken_of_opens hopens) hcreated
    · refine .inr ⟨ih hist.prefix (fun o ho => hnow o (by simp [ho])) hopen, hcloses, ?_⟩
      rintro ⟨_, hold⟩
      exact absurd (hold.trans (hnow o (by simp))) (not_le.mpr hexp)

/-- What `validate_session` answers, in terms of the history. -/
theorem validateSession_run (hist : History ops) {now : ℚ} (hnow : ∀ o ∈ ops, o.time ≤ now)
    {token : Text} : validateSession (run ops) token now = some u ↔
      (∃ s, s.token = token ∧ s.username = u ∧ Open ops s ∧ now < s.expiresAt) ∧
        Registered ops u := by
  rw [validateSession_eq_some_iff]
  constructor
  · rintro ⟨s, hs, htok, huser, hexp, hreg⟩
    exact ⟨⟨s, htok, huser, open_of_session_mem_run hs, hexp⟩, user_mem_run.mp hreg⟩
  · rintro ⟨⟨s, htok, huser, hopen, hexp⟩, hreg⟩
    exact ⟨s, session_mem_run_of_open hist hnow hopen hexp, htok, huser, hexp,
      user_mem_run.mpr hreg⟩

/-! ## Purging -/

/-- The history without its purges. -/
def withoutPurges (ops : List Timed) : List Timed :=
  ops.filter fun o => o.op ≠ .purgeExpiredSessions

theorem withoutPurges_append_purge (ho : o.op = .purgeExpiredSessions) :
    withoutPurges (ops ++ [o]) = withoutPurges ops := by
  simp [withoutPurges, ho]

theorem withoutPurges_append_of_ne (ho : o.op ≠ .purgeExpiredSessions) :
    withoutPurges (ops ++ [o]) = withoutPurges ops ++ [o] := by
  simp [withoutPurges, ho]

theorem open_withoutPurges : Open (withoutPurges ops) s ↔ Open ops s := by
  induction ops using List.reverseRecOn with
  | nil => rfl
  | append_singleton ops o ih =>
    by_cases ho : o.op = .purgeExpiredSessions
    · rw [withoutPurges_append_purge ho, open_append_singleton, ih]
      simp [Opens, Closes, ho]
    · rw [withoutPurges_append_of_ne ho, open_append_singleton, open_append_singleton, ih]

theorem registered_withoutPurges : Registered (withoutPurges ops) u ↔ Registered ops u := by
  induction ops using List.reverseRecOn with
  | nil => rfl
  | append_singleton ops o ih =>
    by_cases ho : o.op = .purgeExpiredSessions
    · rw [withoutPurges_append_purge ho, registered_append_singleton, ih]
      simp [ho]
    · rw [withoutPurges_append_of_ne ho, registered_append_singleton, registered_append_singleton,
        ih]

theorem History.withoutPurges (h : History ops) : History (withoutPurges ops) where
  sorted := h.sorted.sublist List.filter_sublist
  fresh := h.fresh.sublist (List.filter_sublist.filterMap createdToken)

/-! ## Sessions are valid exactly when they should be -/

/-- `validate_session` answers with the user for whom the token was created, as
long as the session has not expired, was not deleted, its user was neither written
nor deleted since, and the user is registered. Purging changes no answer, and a
session whose user was written or deleted is not revived. -/
theorem validateSession_exact (pre post : List Timed) (token : Text) (now : ℚ)
    (hist : History (pre ++ ⟨now, .validateSession token⟩ :: post)) :
    (∀ u, validateSession (run pre) token now = some u ↔
      (∃ (before : List Timed) (t₀ : ℚ) (hours : ℤ) (after : List Timed),
        pre = before ++ ⟨t₀, .createSession u hours token⟩ :: after ∧
        now < t₀ + 3600 * hours ∧
        ∀ o ∈ after, o.op ≠ .deleteSession token ∧ (∀ h, o.op ≠ .upsertUser u h) ∧
          o.op ≠ .deleteUser u) ∧
      Registered pre u) ∧
    validateSession (run (withoutPurges pre)) token now =
      validateSession (run pre) token now ∧
    (∀ early o late u hours t₀, pre = early ++ o :: late →
      ⟨t₀, .createSession u hours token⟩ ∈ early →
      (∃ h, o.op = .upsertUser u h) ∨ o.op = .deleteUser u →
      validateSession (run pre) token now = none) := by
  have hpre : History pre := hist.prefix
  have hnow : ∀ o ∈ pre, o.time ≤ now := fun o ho =>
    (List.pairwise_append.mp hist.sorted).2.2 o ho _ List.mem_cons_self
  refine ⟨fun u => ?_, ?_, ?_⟩
  · rw [validateSession_run hpre hnow]
    refine and_congr_left fun _ => ?_
    constructor
    · rintro ⟨s, rfl, rfl, ⟨before, ⟨t₀, _⟩, after, hsplit, ⟨hours, rfl, hexp⟩, hafter⟩, hlive⟩
      refine ⟨before, t₀, hours, after, hsplit, hexp ▸ hlive, fun o ho => ?_⟩
      have := hafter o ho
      simp only [Closes, not_or, not_exists] at this
      exact this
    · rintro ⟨before, t₀, hours, after, hsplit, hlive, hafter⟩
      refine ⟨⟨token, u, t₀ + 3600 * hours⟩, rfl, rfl, ⟨before, _, after, hsplit, ⟨hours, rfl, rfl⟩,
        fun o ho => ?_⟩, hlive⟩
      simp only [Closes, not_or, not_exists]
      exact hafter o ho
  · refine Option.ext fun u => ?_
    rw [validateSession_run hpre hnow, validateSession_run hpre.withoutPurges
      (fun o ho => hnow o (List.mem_of_mem_filter ho)), registered_withoutPurges]
    simp only [open_withoutPurges]
  · rintro early o late u hours t₀ rfl hcreated hclose
    refine Option.eq_none_iff_forall_ne_some.mpr fun v hv => ?_
    obtain ⟨⟨s, htok, huser, hopen, _⟩, _⟩ := (validateSession_run hpre hnow).mp hv
    subst htok huser
    -- The token was created once, early and for `u`; so `s` is that session, and `o` closed it.
    rcases hopen.of_append with ⟨o', ho', hopens⟩ | ⟨⟨before, o', after, rfl, hopens, _⟩, hlate⟩
    · refine (List.nodup_append.mp (List.filterMap_append ▸ hpre.fresh)).2.2 s.token ?_ s.token ?_ rfl
      · exact List.mem_filterMap.mpr ⟨_, hcreated, rfl⟩
      · exact List.mem_filterMap.mpr ⟨o', ho', createdToken_of_opens hopens⟩
    · have hsame := hpre.eq_of_createdToken (List.mem_append_left _ hcreated)
        (List.mem_append_left _ (by simp)) rfl (createdToken_of_opens hopens)
      obtain ⟨_, hop, _⟩ := hopens
      obtain ⟨rfl, -⟩ : s.username = u ∧ _ := by
        rw [← hsame] at hop
        exact ⟨by injection hop with h; exact h.symm, trivial⟩
      exact hlate o List.mem_cons_self (.inr hclose)

/-- A session of one hour that was opened in second 1 is valid in second 3600,
whatever is purged in between. -/
theorem validateSession_exact_last_second :
    validateSession (run [⟨0, .upsertUser ['a'] ['h']⟩, ⟨1, .createSession ['a'] 1 ['t']⟩,
      ⟨2, .purgeExpiredSessions⟩]) ['t'] 3600 = some ['a'] :=
  ((validateSession_exact [⟨0, .upsertUser ['a'] ['h']⟩, ⟨1, .createSession ['a'] 1 ['t']⟩,
      ⟨2, .purgeExpiredSessions⟩] [] ['t'] 3600 ⟨by decide, by decide⟩).1 ['a']).mpr
    ⟨⟨[⟨0, .upsertUser ['a'] ['h']⟩], 1, 1, [⟨2, .purgeExpiredSessions⟩], rfl, by norm_num, by simp⟩,
      ⟨[], ⟨0, .upsertUser ['a'] ['h']⟩, _, rfl, ⟨['h'], rfl⟩, by simp⟩⟩

end LocalRag.UserStore
