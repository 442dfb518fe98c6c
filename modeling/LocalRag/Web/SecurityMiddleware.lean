-- SUMMARY: The security middleware, and the login attempts of a client behind a trusted proxy.
import LocalRag.Base.IpAddress
import LocalRag.Web.ApiServer
import LocalRag.Web.RateLimit

/-!
# Security middleware

A request is limited by the address that `resolve_client_ip` gives it. A trusted
proxy appends the address of its client to the `X-Forwarded-For` value that the client
has sent, and the first entry of the result counts: that is the client's choice.
-/

namespace LocalRag.SecurityMiddleware

open PyText RateLimit IpAddress

/-! ## The middleware -/

/-- What the middleware reads of a request. -/
structure HttpRequest where
  path : Text
  /-- `request.client.host` -/
  client : Option Text
  /-- `X-Forwarded-For` -/
  forwardedFor : Option Text
  authorization : Option Text
  /-- The cookie `rag_token`. -/
  cookie : Option Text

inductive Verdict where
  | callNext
  | respond (status : ℕ) (detail : Text)
  /-- An exception escapes. -/
  | raise (e : ApiServer.Exn)
  deriving DecidableEq

/-- The two bucket dictionaries. -/
structure Limits where
  rate : Buckets
  login : Buckets

/-- The settings, with those that `_validate_settings` does not read. -/
structure Config where
  settings : Settings
  trustedProxyIps : List Text
  allowInsecureLocalonly : Bool
  /-- `is_valid_token` -/
  isValidToken : Text → Except ApiServer.Exn Bool

/-- `resolve_client_ip`. -/
def resolveClientIp (trustedProxyIps : List Text) (client forwardedFor : Option Text) : Text :=
  let peer := client.getD "unknown".toList
  if trustedProxyIps.contains peer then
    let forwarded := forwardedFor.getD []
    let first := strip (forwarded.takeWhile (· ≠ ','))
    if first ≠ [] ∧ isIpAddress first then first else peer
  else peer

/-- `_extract_bearer_token`. -/
def extractBearerToken (r : HttpRequest) : Text :=
  let header := r.authorization.getD []
  let token := strip (if "Bearer ".toList.isPrefixOf header then header.drop "Bearer ".toList.length else header)
  if token ≠ [] then token else r.cookie.getD []

def loginPath : Text := "/auth/login".toList

/-- The paths that no limit is for. -/
def unlimited (path : Text) : Bool :=
  path = "/favicon.ico".toList || "/ui".toList.isPrefixOf path || path = "/healthz".toList

/-- `security_middleware`, at the clock reading `now`. -/
def securityMiddleware (config : Config) (limits : Limits) (r : HttpRequest) (now : ℚ) : Verdict × Limits :=
  let rejected := Verdict.respond 429 "Rate limit exceeded".toList
  let clientIp := resolveClientIp config.trustedProxyIps r.client r.forwardedFor
  if unlimited r.path then (.callNext, limits)
  else if r.path = loginPath then
    let (allowed, login) := checkLoginRateLimit config.settings limits.login clientIp now
    (if allowed then .callNext else rejected, { limits with login := login })
  else if r.path = "/auth/logout".toList then (.callNext, limits)
  else
    let (allowed, rate) := checkRateLimit config.settings config.settings.rateMaxRequests limits.rate clientIp now
    let limits := { limits with rate := rate }
    if allowed = false then (rejected, limits)
    else if r.path = "/auth/status".toList ∨ r.path = "/v1/retrieve".toList then (.callNext, limits)
    else if config.allowInsecureLocalonly then (.callNext, limits)
    else
      match config.isValidToken (extractBearerToken r) with
      | .ok true => (.callNext, limits)
      | .ok false => (.respond 401 "Unauthorized".toList, limits)
      | .error e => (.raise e, limits)

/-! ## A client behind a proxy -/

/-- What the proxy makes of the `X-Forwarded-For` value that its client has sent, if any. -/
def appended (client : Text) : Option Text → Text
  | none => client
  | some header => header ++ ", ".toList ++ client

inductive Op where
  /-- A login request of the client, through the proxy. -/
  | clientLogin (header : Option Text)
  /-- Any other request. -/
  | other (r : HttpRequest)
  | sweepRate
  | sweepLogin

structure Timed where
  time : ℚ
  op : Op

/-- The dictionaries, and the times of the client's login requests that have reached `login`. -/
structure State extends Limits where
  reached : List ℚ

/-- The login request that the server gets from the proxy. -/
def proxied (proxy client : Text) (header : Option Text) : HttpRequest where
  path := loginPath
  client := some proxy
  forwardedFor := some (appended client header)
  authorization := none
  cookie := none

variable (config : Config) (proxy client : Text)

def step (st : State) (o : Timed) : State :=
  match o.op with
  | .clientLogin header =>
    let (verdict, limits) := securityMiddleware config st.toLimits (proxied proxy client header) o.time
    ⟨limits, if verdict = .callNext then st.reached ++ [o.time] else st.reached⟩
  | .other r => { st with toLimits := (securityMiddleware config st.toLimits r o.time).2 }
  | .sweepRate => { st with rate := sweepExpired config.settings st.rate o.time }
  | .sweepLogin => { st with login := sweepExpired config.settings st.login o.time }

def run (ops : List Timed) : State := ops.foldl (step config proxy client) ⟨⟨∅, ∅⟩, []⟩

/-- The values that the client sends. -/
def sentHeader (o : Timed) : Option (Option Text) :=
  match o.op with
  | .clientLogin header => some header
  | _ => none

/-- Whatever else happens, no time span shorter than the window sees more than the limit of the
client's login requests, which carry some of the `headers`, reach the handler. -/
def LoginsLimited (headers : Set (Option Text)) : Prop :=
  ∀ ops : List Timed, ops.Pairwise (fun o o' => o.time ≤ o'.time) →
    (∀ header ∈ ops.filterMap sentHeader, header ∈ headers) →
    ∀ a b, b - a < config.settings.rateWindowSeconds →
      ((((run config proxy client ops).reached.filter fun t => a ≤ t ∧ t ≤ b).length : ℕ) : ℤ) ≤
        config.settings.rateMaxLoginRequests

/-- The address that a value puts in front: its first entry, or the client's address if there is no
value. What is no address leaves the proxy's. -/
def frontAddress (header : Option Text) : Text :=
  let first := strip ((header.getD client).takeWhile (· ≠ ','))
  if isIpAddress first then first else proxy

/-! ## The login buckets -/

variable {config proxy client} {header : Option Text} {ip : Text}

/-- Appending the client's address changes no first entry. -/
theorem resolveClientIp_proxied (hproxy : proxy ∈ config.trustedProxyIps) :
    resolveClientIp config.trustedProxyIps (some proxy) (some (appended client header)) =
      frontAddress proxy client header := by
  have hfirst : (appended client header).takeWhile (· ≠ ',') =
      (header.getD client).takeWhile (· ≠ ',') := by
    cases header with
    | none => rfl
    | some header =>
      change (header ++ ", ".toList ++ client).takeWhile (· ≠ ',') = header.takeWhile (· ≠ ',')
      induction header with
      | nil => rfl
      | cons c header ih =>
        rw [List.cons_append, List.cons_append, List.takeWhile_cons, List.takeWhile_cons, ih]
  have hnil : isIpAddress [] = false := by decide
  unfold resolveClientIp frontAddress
  dsimp only [Option.getD_some]
  rw [if_pos (List.contains_iff_mem.mpr hproxy), hfirst]
  by_cases haddress : isIpAddress (strip ((header.getD client).takeWhile (· ≠ ','))) = true
  · have hne : strip ((header.getD client).takeWhile (· ≠ ',')) ≠ [] := by
      intro hempty
      rw [hempty, hnil] at haddress
      cases haddress
    rw [if_pos ⟨hne, haddress⟩, if_pos haddress]
  · rw [if_neg fun h => haddress h.2, if_neg haddress]

/-- A login request is admitted by the login limiter, and changes its buckets only. -/
theorem securityMiddleware_login (limits : Limits) {r : HttpRequest} (hpath : r.path = loginPath) (now : ℚ) :
    let answer := checkLoginRateLimit config.settings limits.login
      (resolveClientIp config.trustedProxyIps r.client r.forwardedFor) now
    ((securityMiddleware config limits r now).1 = .callNext ↔ answer.1 = true) ∧
      (securityMiddleware config limits r now).2 = { limits with login := answer.2 } := by
  have hlimited : unlimited loginPath = false := by decide
  unfold securityMiddleware
  dsimp only
  rw [hpath, hlimited, if_neg Bool.false_ne_true, if_pos rfl]
  cases checkLoginRateLimit config.settings limits.login
    (resolveClientIp config.trustedProxyIps r.client r.forwardedFor) now with
  | mk allowed login =>
    cases allowed with
    | true => exact ⟨Iff.rfl.trans (by simp), rfl⟩
    | false => exact ⟨by simp, rfl⟩

theorem securityMiddleware_other (limits : Limits) {r : HttpRequest} (hpath : r.path ≠ loginPath) (now : ℚ) :
    (securityMiddleware config limits r now).2.login = limits.login := by
  unfold securityMiddleware
  dsimp only
  split
  · rfl
  · split
    · rfl
    · split
      · rfl
      · split
        · rfl
        · split
          · rfl
          · split <;> rfl

/-- What an operation does to the login limiter. -/
def loginOp (config : Config) (proxy client : Text) (o : Timed) : Option RateLimit.Timed :=
  match o.op with
  | .clientLogin header => some ⟨o.time, .check (frontAddress proxy client header)⟩
  | .other r =>
    if r.path = loginPath then
      some ⟨o.time, .check (resolveClientIp config.trustedProxyIps r.client r.forwardedFor)⟩
    else none
  | .sweepRate => none
  | .sweepLogin => some ⟨o.time, .sweep⟩

/-- The login limiter, as it has been run. -/
def loginRun (config : Config) (proxy client : Text) (ops : List Timed) : RateLimit.State :=
  RateLimit.run config.settings config.settings.rateMaxLoginRequests
    (ops.filterMap (loginOp config proxy client))

theorem loginRun_append_singleton (ops : List Timed) (o : Timed) :
    loginRun config proxy client (ops ++ [o]) =
      match loginOp config proxy client o with
      | none => loginRun config proxy client ops
      | some o' => RateLimit.step config.settings config.settings.rateMaxLoginRequests
        (loginRun config proxy client ops) o' := by
  unfold loginRun
  rw [List.filterMap_append, List.filterMap_cons]
  cases loginOp config proxy client o with
  | none => rw [List.filterMap_nil, List.append_nil]
  | some o' => rw [List.filterMap_nil, RateLimit.run_append_singleton]

theorem run_append_singleton (ops : List Timed) (o : Timed) :
    run config proxy client (ops ++ [o]) = step config proxy client (run config proxy client ops) o := by
  simp [run]

/-- What an operation does to the login buckets and to the requests that have reached `login`. -/
theorem step_clientLogin (hproxy : proxy ∈ config.trustedProxyIps) (st : State) (time : ℚ) :
    let answer := checkLoginRateLimit config.settings st.login (frontAddress proxy client header) time
    (step config proxy client st ⟨time, .clientLogin header⟩).login = answer.2 ∧
      (step config proxy client st ⟨time, .clientLogin header⟩).reached =
        st.reached ++ if answer.1 then [time] else [] := by
  have hpath : (proxied proxy client header).path = loginPath := rfl
  obtain ⟨hverdict, hlimits⟩ : _ ∧ (securityMiddleware config st.toLimits (proxied proxy client header) time).2 = _ :=
    securityMiddleware_login st.toLimits hpath time
  have haddress : resolveClientIp config.trustedProxyIps (proxied proxy client header).client
      (proxied proxy client header).forwardedFor = frontAddress proxy client header :=
    resolveClientIp_proxied hproxy
  rw [haddress] at hverdict hlimits
  refine ⟨?_, ?_⟩
  · change (securityMiddleware config st.toLimits (proxied proxy client header) time).2.login = _
    rw [hlimits]
  · change (if (securityMiddleware config st.toLimits (proxied proxy client header) time).1 = .callNext
      then st.reached ++ [time] else st.reached) = _
    by_cases hallowed : (checkLoginRateLimit config.settings st.login (frontAddress proxy client header) time).1 = true
    · rw [if_pos (hverdict.mpr hallowed), if_pos hallowed]
    · rw [if_neg fun h => hallowed (hverdict.mp h), if_neg hallowed, List.append_nil]

theorem login_run (hproxy : proxy ∈ config.trustedProxyIps) (ops : List Timed) :
    (run config proxy client ops).login = (loginRun config proxy client ops).buckets := by
  induction ops using List.reverseRecOn with
  | nil => rfl
  | append_singleton ops o ih =>
    rw [run_append_singleton, loginRun_append_singleton]
    obtain ⟨time, op⟩ := o
    cases op with
    | clientLogin header =>
      rw [(step_clientLogin hproxy _ time).1, ih]
      rfl
    | other r =>
      change (securityMiddleware config (run config proxy client ops).toLimits r time).2.login = _
      by_cases hpath : r.path = loginPath
      · have hop : loginOp config proxy client ⟨time, .other r⟩ =
            some ⟨time, .check (resolveClientIp config.trustedProxyIps r.client r.forwardedFor)⟩ := if_pos hpath
        rw [(securityMiddleware_login _ hpath time).2, hop, ih]
        rfl
      · have hop : loginOp config proxy client ⟨time, .other r⟩ = none := if_neg hpath
        rw [securityMiddleware_other _ hpath time, hop, ih]
    | sweepRate => exact ih
    | sweepLogin =>
      change sweepExpired config.settings (run config proxy client ops).login time = _
      rw [ih]
      rfl

/-- The client's requests that have reached `login` are among the calls that the limiter has admitted
for the one address that they put in front. -/
theorem reached_sublist (hproxy : proxy ∈ config.trustedProxyIps) {ops : List Timed}
    (hfront : ∀ header ∈ ops.filterMap sentHeader, frontAddress proxy client header = ip) :
    (run config proxy client ops).reached.Sublist (admitted ip (loginRun config proxy client ops).calls) := by
  induction ops using List.reverseRecOn with
  | nil => exact .slnil
  | append_singleton ops o ih =>
    rw [List.filterMap_append] at hfront
    have hbefore := ih fun header hheader => hfront header (List.mem_append_left _ hheader)
    -- Any other operation may only add to what the limiter has admitted.
    have hgrows : (admitted ip (loginRun config proxy client ops).calls).Sublist
        (admitted ip (loginRun config proxy client (ops ++ [o])).calls) := by
      rw [loginRun_append_singleton]
      cases loginOp config proxy client o with
      | none => exact .refl _
      | some o' =>
        dsimp only
        rw [admitted_step]
        exact List.sublist_append_left _ _
    obtain ⟨time, op⟩ := o
    cases op with
    | clientLogin header =>
      obtain rfl : frontAddress proxy client header = ip :=
        hfront header (List.mem_append_right _ (List.mem_singleton_self _))
      have hop : loginOp config proxy client ⟨time, .clientLogin header⟩ =
          some ⟨time, .check (frontAddress proxy client header)⟩ := rfl
      rw [run_append_singleton, (step_clientLogin hproxy _ time).2, loginRun_append_singleton, hop]
      dsimp only
      rw [admitted_step, login_run hproxy]
      refine hbefore.append ?_
      simp only [checkLoginRateLimit, true_and]
      exact .refl _
    | other r => rw [run_append_singleton]; exact hbefore.trans hgrows
    | sweepRate => rw [run_append_singleton]; exact hbefore.trans hgrows
    | sweepLogin => rw [run_append_singleton]; exact hbefore.trans hgrows

theorem pairwise_loginOps (config : Config) (proxy client : Text) {ops : List Timed} (hsorted : ops.Pairwise fun o o' => o.time ≤ o'.time) :
    (ops.filterMap (loginOp config proxy client)).Pairwise fun o o' => o.time ≤ o'.time := by
  have htime : ∀ o o', loginOp config proxy client o = some o' → o'.time = o.time := by
    rintro ⟨time, op⟩ o' ho
    cases op with
    | clientLogin header => rw [← Option.some.inj ho]
    | other r =>
      dsimp only [loginOp] at ho
      split at ho
      · rw [← Option.some.inj ho]
      · cases ho
    | sweepRate => cases ho
    | sweepLogin => rw [← Option.some.inj ho]
  refine hsorted.filterMap _ fun o o' hle x hx y hy => ?_
  rw [htime o x hx, htime o' y hy]
  exact hle

/-- One address in front: the client is limited like any other. -/
theorem loginsLimited_of_front (haccepted : config.settings.Accepted) (hproxy : proxy ∈ config.trustedProxyIps)
    {headers : Set (Option Text)} (hfront : ∀ header ∈ headers, frontAddress proxy client header = ip) :
    LoginsLimited config proxy client headers := by
  intro ops hsorted hheaders a b hab
  have hsublist := reached_sublist hproxy fun header hheader => hfront header (hheaders header hheader)
  have hlimited := (limited_run (pairwise_loginOps config proxy client hsorted) config.settings
    config.settings.rateMaxLoginRequests ip).length_interval_le haccepted.rateMaxLoginRequests_pos hab
  have hle := (hsublist.filter fun t => decide (a ≤ t ∧ t ≤ b)).length_le
  exact le_trans (by exact_mod_cast hle) hlimited

/-- A burst of the client's login requests. -/
def burst (header : Option Text) (n : ℕ) : List Timed := List.replicate n ⟨0, .clientLogin header⟩

theorem loginRun_burst (n : ℕ) : loginRun config proxy client (burst header n) =
    RateLimit.run config.settings config.settings.rateMaxLoginRequests
      ((List.replicate n 0).map fun t => ⟨t, .check (frontAddress proxy client header)⟩) := by
  have hop : loginOp config proxy client ⟨0, .clientLogin header⟩ =
      some ⟨0, .check (frontAddress proxy client header)⟩ := rfl
  rw [loginRun, burst, List.filterMap_replicate_of_some hop, List.map_replicate]

/-- After a burst that stays within the limit, an address has room if it was not the one in front, or if
the burst is shorter than the limit. -/
theorem allowed_after_burst (hproxy : proxy ∈ config.trustedProxyIps) {n : ℕ}
    (hn : (n : ℤ) ≤ config.settings.rateMaxLoginRequests) {header' : Option Text}
    (hroom : (n : ℤ) < config.settings.rateMaxLoginRequests ∨
      0 < config.settings.rateMaxLoginRequests ∧ frontAddress proxy client header' ≠ frontAddress proxy client header) :
    (checkLoginRateLimit config.settings (run config proxy client (burst header n)).login
      (frontAddress proxy client header') 0).1 = true := by
  have hlog : SlidingWindow.Limited config.settings.rateWindowSeconds config.settings.rateMaxLoginRequests
      (List.replicate n (0 : ℚ)) := SlidingWindow.limited_replicate hn
  have hrecent := recent_run (pairwise_checks hlog (frontAddress proxy client header))
    (forall_checks_le (fun t ht => (List.eq_of_mem_replicate ht).le) _) config.settings
    config.settings.rateMaxLoginRequests (frontAddress proxy client header')
  rw [login_run hproxy, checkLoginRateLimit, checkRateLimit_allowed, loginRun_burst, hrecent]
  by_cases hsame : frontAddress proxy client header' = frontAddress proxy client header
  · have hlt : (n : ℤ) < config.settings.rateMaxLoginRequests := hroom.resolve_right fun h => h.2 hsame
    rw [hsame, admitted_replay hlog]
    have hlen : (SlidingWindow.recent config.settings.rateWindowSeconds 0 (List.replicate n (0 : ℚ))).length ≤ n :=
      SlidingWindow.length_recent_replicate_le n
    exact lt_of_le_of_lt (by exact_mod_cast hlen) hlt
  · rw [admitted_replay_of_ne hsame]
    rcases hroom with hlt | ⟨hpos, -⟩
    · exact lt_of_le_of_lt (by simp) hlt
    · exact hpos

theorem reached_burst (hproxy : proxy ∈ config.trustedProxyIps) {n : ℕ}
    (hn : (n : ℤ) ≤ config.settings.rateMaxLoginRequests) :
    (run config proxy client (burst header n)).reached = List.replicate n 0 := by
  induction n with
  | zero => rfl
  | succ n ih =>
    have hlt : (n : ℤ) < config.settings.rateMaxLoginRequests := by omega
    have hburst : burst header (n + 1) = burst header n ++ [⟨0, .clientLogin header⟩] := List.replicate_succ'
    rw [hburst, run_append_singleton, (step_clientLogin hproxy _ 0).2,
      if_pos (allowed_after_burst hproxy hlt.le (.inl hlt)), ih hlt.le, List.replicate_succ']

/-- A burst, and one more login request. -/
def burstAnd (header header' : Option Text) (n : ℕ) : List Timed := burst header n ++ [⟨0, .clientLogin header'⟩]

/-- Two addresses to put in front buy the client an extra attempt. -/
theorem not_loginsLimited_of_ne (haccepted : config.settings.Accepted) (hproxy : proxy ∈ config.trustedProxyIps)
    {headers : Set (Option Text)} {header' : Option Text} (hheader : header ∈ headers) (hheader' : header' ∈ headers)
    (hne : frontAddress proxy client header' ≠ frontAddress proxy client header) :
    ¬ LoginsLimited config proxy client headers := by
  intro hlimited
  have hpos := haccepted.rateMaxLoginRequests_pos
  obtain ⟨n, hn⟩ : ∃ n : ℕ, (n : ℤ) = config.settings.rateMaxLoginRequests :=
    ⟨_, Int.toNat_of_nonneg hpos.le⟩
  have hreached : (run config proxy client (burstAnd header header' n)).reached = List.replicate (n + 1) 0 := by
    rw [burstAnd, run_append_singleton, (step_clientLogin hproxy _ 0).2,
      if_pos (allowed_after_burst hproxy hn.le (.inr ⟨hpos, hne⟩)), reached_burst hproxy hn.le,
      List.replicate_succ']
  have htimes : ∀ o ∈ burstAnd header header' n, o.time = 0 := by
    intro o ho
    rcases List.mem_append.mp ho with ho | ho
    · rw [List.eq_of_mem_replicate ho]
    · rw [List.mem_singleton.mp ho]
  have hsorted : (burstAnd header header' n).Pairwise fun o o' => o.time ≤ o'.time :=
    List.pairwise_of_forall_mem_list fun o ho o' ho' => (htimes o ho).le.trans (htimes o' ho').ge
  have hsent : ∀ sent ∈ (burstAnd header header' n).filterMap sentHeader, sent ∈ headers := by
    intro sent hsent
    obtain ⟨o, ho, hsent⟩ := List.mem_filterMap.mp hsent
    rcases List.mem_append.mp ho with ho | ho
    · rw [List.eq_of_mem_replicate ho] at hsent
      exact Option.some.inj hsent ▸ hheader
    · rw [List.mem_singleton.mp ho] at hsent
      exact Option.some.inj hsent ▸ hheader'
  have hcount := hlimited _ hsorted hsent 0 0 (by simpa using haccepted.rateWindowSeconds_pos)
  rw [hreached] at hcount
  simp at hcount
  omega

/-- A client behind a trusted proxy is kept to the login limit exactly if all the values that it may
send put one address in front. -/
theorem loginsLimited_iff (config : Config) (haccepted : config.settings.Accepted) (proxy client : Text)
    (hproxy : proxy ∈ config.trustedProxyIps) (headers : Set (Option Text)) :
    LoginsLimited config proxy client headers ↔ ∀ header ∈ headers, ∀ header' ∈ headers,
      frontAddress proxy client header = frontAddress proxy client header' := by
  constructor
  · intro hlimited header hheader header' hheader'
    by_contra hne
    exact not_loginsLimited_of_ne haccepted hproxy hheader' hheader hne hlimited
  · intro hfront
    rcases headers.eq_empty_or_nonempty with rfl | ⟨header, hheader⟩
    · have hfront : ∀ header ∈ (∅ : Set (Option Text)), frontAddress proxy client header = [] := nofun
      exact loginsLimited_of_front haccepted hproxy hfront
    · exact loginsLimited_of_front haccepted hproxy fun header' hheader' => hfront header' hheader' header hheader

/-! ## Example -/

/-- The default settings behind a proxy. -/
def Config.sample : Config := ⟨{}, ["10.0.0.100".toList], false, fun _ => .ok false⟩

/-- A client that sends no header, or its own address, is limited. -/
theorem loginsLimited_iff_sample :
    LoginsLimited .sample "10.0.0.100".toList "203.0.113.9".toList {none, some "203.0.113.9".toList} := by
  refine (loginsLimited_iff .sample defaults_accepted "10.0.0.100".toList "203.0.113.9".toList (by decide)
    {none, some "203.0.113.9".toList}).mpr ?_
  rintro header (rfl | rfl) header' (rfl | rfl) <;> rfl

/-- Ten attempts without a header, and an eleventh with another address in front. -/
theorem loginsLimited_spoofed :
    ¬ LoginsLimited .sample "10.0.0.100".toList "203.0.113.9".toList Set.univ :=
  not_loginsLimited_of_ne defaults_accepted (by decide) (Set.mem_univ none)
    (Set.mem_univ (some "198.51.100.1".toList)) (by decide)

end LocalRag.SecurityMiddleware
