import ClientAddr.Model.Throttle
import ClientAddr.Resolve.Tiers

/-! # The client that a request is charged to

The limiter is checked once for each request with a socket peer, with the address that
the config resolves and no other. Where the requests come from their clients, directly or
through proxies that name them, the limiter sees exactly these clients.
-/

namespace ClientAddr

open Text

variable {Instant : Type} {limiter : KeyedLimiter Instant} {state : AppState}
  {config : ClientIpConfig} {parts : Parts} {client : Option ClientIp}

/-- The address that a request is charged to. -/
def chargedTo (state : AppState) (parts : Parts) : Option IpAddr :=
  match fromRequestParts parts state with
  | .ok clientIp => some clientIp.ip
  | .error _ => none

def checkOf (state : AppState) (request : Instant × Parts) : Option (IpAddr × Instant) :=
  (chargedTo state request.2).map fun ip => (ip, request.1)

def respond (clientIp : ClientIp) (allowed : Bool) : Response :=
  if allowed then handler clientIp else tooManyRequests clientIp

/-- The response to a request when the limiter has decided. -/
def responseTo (state : AppState) (request : Instant × Parts) (allowed : Bool) : Response :=
  match fromRequestParts request.2 state with
  | .ok clientIp => respond clientIp allowed
  | .error rejection => rejection.intoResponse

theorem chargedTo_eq_some {x : IpAddr} : chargedTo state parts = some x ↔
    ∃ clientIp, fromRequestParts parts state = .ok clientIp ∧ clientIp.ip = x := by
  unfold chargedTo
  cases fromRequestParts parts state with
  | ok clientIp => simp
  | error rejection => simp

/-- The service passes on the checks, and makes its responses of the limiter's decisions. -/
theorem projects_limiter (limiter : KeyedLimiter Instant) (state : AppState) :
    (throttle limiter state).Projects limiter (checkOf state) (responseTo state) Eq where
  hidden := by
    rintro ⟨now, parts⟩ cells _ hc rfl
    have hn : chargedTo state parts = none := Option.map_eq_none_iff.mp hc
    change (rateLimit limiter state (now, parts) cells).2 = cells
    cases hp : fromRequestParts parts state with
    | error rejection =>
      simp only [rateLimit, hp]
      rfl
    | ok clientIp => simp [chargedTo, hp] at hn
  shown := by
    rintro ⟨now, parts⟩ check cells _ hc rfl
    obtain ⟨x, hx, rfl⟩ := Option.map_eq_some_iff.mp hc
    obtain ⟨clientIp, hp, rfl⟩ := chargedTo_eq_some.mp hx
    change (rateLimit limiter state (now, parts) cells).1 = _ ∧
      (rateLimit limiter state (now, parts) cells).2 = _
    simp only [rateLimit, responseTo, respond, hp, and_self]

/--
How a request comes from its client, and the answer that names this client. A proxy names the
client in the client IP header or as a hop of a chain header. The other headers are the client's.
-/
inductive ComesFrom (config : ClientIpConfig) : Parts → Option ClientIp → Prop
  | nowhere {headers : HeaderMap} : ComesFrom config ⟨headers, none⟩ none
  | direct {headers : HeaderMap} {peer : Net.SocketAddr} :
    config.isTrustedProxy peer.ip = false →
    ComesFrom config ⟨headers, some peer⟩ (some ⟨canonicalIp peer.ip, .socket⟩)
  | named {headers : HeaderMap} {peer : Net.SocketAddr} {client : IpAddr} {n : HeaderName}
    {v : HeaderValue} {raw : Text} :
    config.clientIpHeaderFor peer.ip = some n → (headers.getAll n).getLast? = some v →
    v.toStr = some raw → IpAddr.parse (trim raw) = some client →
    ComesFrom config ⟨headers, some peer⟩ (some ⟨canonicalIp client, .configuredHeader n⟩)
  | relayed {headers : HeaderMap} {peer : Net.SocketAddr} {client : IpAddr}
    {rules : List TrustedProxyRule} {order : List ChainHeader} {h : ChainHeader}
    {own lines : List Text} :
    config.trust = .trustedProxies rules order → config.isTrustedProxy client = false →
    RelayedIn h.kind config client own lines peer.ip → firstCarried headers order = some h →
    readLines (headers.getAll h.asHeaderName) = some lines →
    configuredIp headers (config.clientIpHeaderFor peer.ip) = none →
    ComesFrom config ⟨headers, some peer⟩ (some ⟨canonicalIp client, .chainHeader h.asHeaderName⟩)

theorem resolveClientIp_of_not_proxy {peer : IpAddr} (h : config.isTrustedProxy peer = false)
    (headers : HeaderMap) : config.resolveClientIp headers peer = ⟨canonicalIp peer, .socket⟩ := by
  cases ht : config.trust with
  | noProxy => simp only [ClientIpConfig.resolveClientIp, ht]
  | trustedProxies rules order =>
    simp only [ClientIpConfig.isTrustedProxy, ht, Option.isSome_eq_false_iff,
      Option.isNone_iff_eq_none] at h
    exact ClientIpConfig.resolveClientIp_of_not_covered ht h
  | trustAllProxies mode => simp [ClientIpConfig.isTrustedProxy, ht] at h

namespace ComesFrom

/-- The extractor answers with the client that the request comes from. -/
theorem fromRequestParts_eq (h : ComesFrom state.clientIpConfig parts client) :
    (fromRequestParts parts state).toOption = client := by
  have resolved : ∀ {headers : HeaderMap} {peer : Net.SocketAddr} {answer : ClientIp},
      state.clientIpConfig.resolveClientIp headers peer.ip = answer →
      (fromRequestParts ⟨headers, some peer⟩ state).toOption = some answer := by
    rintro headers peer _ rfl
    rfl
  cases h with
  | nowhere => rfl
  | direct hp => exact resolved (resolveClientIp_of_not_proxy hp _)
  | named hn hv hr hp =>
    have hc := configuredClientIpHeader_of_last hv hr hp
    obtain ⟨n', hn', ha⟩ := ClientIpConfig.resolveClientIp_of_configured
      (by rw [configuredIp, hn, Option.bind_some, hc])
    obtain rfl := Option.some.inj (hn.symm.trans hn')
    exact resolved ha
  | relayed ht hx hrel hf hl hc =>
    apply resolved
    rw [ClientIpConfig.resolveClientIp_of_lines ht hrel.invariant.1 hc hf hl, hrel.scan_eq hx]
    rfl

theorem fromRequestParts_ok {clientIp : ClientIp}
    (h : ComesFrom state.clientIpConfig parts (some clientIp)) :
    fromRequestParts parts state = .ok clientIp := by
  have ho := h.fromRequestParts_eq
  cases hp : fromRequestParts parts state with
  | error rejection => simp [hp, Except.toOption] at ho
  | ok clientIp' =>
    rw [hp] at ho
    exact congrArg _ (Option.some.inj ho)

end ComesFrom

/-- A request with its time and the client that it comes from. -/
structure Visit (Instant : Type) (config : ClientIpConfig) where
  time : Instant
  parts : Parts
  client : Option ClientIp
  comesFrom : ComesFrom config parts client

namespace Visit

variable (visit : Visit Instant config)

def request : Instant × Parts := (visit.time, visit.parts)

def check : Option (IpAddr × Instant) := visit.client.map fun clientIp => (clientIp.ip, visit.time)

end Visit

theorem checkOf_request (visit : Visit Instant state.clientIpConfig) :
    checkOf state visit.request = visit.check := by
  obtain ⟨time, parts, client, h⟩ := visit
  have ho := h.fromRequestParts_eq
  cases client with
  | none =>
    cases h
    rfl
  | some clientIp => simp [checkOf, chargedTo, Visit.request, Visit.check, h.fromRequestParts_ok]

theorem zipWith_responseTo (visits : List (Visit Instant state.clientIpConfig))
    (decisions : List Bool) :
    List.zipWith (responseTo state)
        ((visits.map Visit.request).filter fun request => (checkOf state request).isSome)
        decisions =
      List.zipWith respond (visits.filterMap Visit.client) decisions := by
  induction visits generalizing decisions with
  | nil => rfl
  | cons visit visits ih =>
    obtain ⟨time, parts, client, h⟩ := visit
    rw [List.map_cons]
    cases client with
    | none =>
      rw [List.filter_cons_of_neg (by rw [checkOf_request]; simp [Visit.check]),
        List.filterMap_cons_none rfl, ih]
    | some clientIp =>
      rw [List.filter_cons_of_pos (by rw [checkOf_request]; simp [Visit.check]),
        List.filterMap_cons_some (f := Visit.client) (b := clientIp) rfl]
      cases decisions with
      | nil => rfl
      | cons allowed decisions =>
        have hr : responseTo state (time, parts) allowed = respond clientIp allowed := by
          simp only [responseTo, h.fromRequestParts_ok]
        rw [List.zipWith_cons_cons, List.zipWith_cons_cons, ih]
        exact congrArg (· :: _) hr

/--
Whatever headers the clients send, the limiter is checked with exactly the clients that the requests
come from, in this order, and every client is answered as the limiter decides on it.
-/
theorem clients_are_charged (limiter : KeyedLimiter Instant) (state : AppState)
    (cells : limiter.State) (visits : List (Visit Instant state.clientIpConfig)) :
    let requests := visits.map Visit.request
    let checked := limiter.run (visits.filterMap Visit.check) cells
    ((throttle limiter state).run requests cells).2 = checked.2 ∧
    (throttle limiter state).answers (fun request => request.2.connectInfo.isSome)
        requests cells =
      List.zipWith respond (visits.filterMap Visit.client) checked.1 ∧
    ∀ response ∈ (throttle limiter state).answers (fun request => request.2.connectInfo.isNone)
        requests cells,
      response = ClientIpRejection.missingConnectInfo.intoResponse := by
  intro requests checked
  have hp := projects_limiter limiter state
  have hcheck : requests.filterMap (checkOf state) = visits.filterMap Visit.check := by
    rw [List.filterMap_map]
    exact List.filterMap_congr fun visit _ => checkOf_request visit
  have hsome : ∀ request : Instant × Parts,
      request.2.connectInfo.isSome = (checkOf state request).isSome := by
    rintro ⟨now, headers, connectInfo⟩
    cases connectInfo <;> rfl
  refine ⟨?_, ?_, ?_⟩
  · change _ = (limiter.run _ cells).2
    rw [← hcheck]
    exact hp.run_state rfl
  · simp only [hsome, checked, requests]
    rw [← zipWith_responseTo, ← hcheck]
    exact hp.answers_eq rfl
  · apply Machine.forall_mem_answers
    rintro ⟨now, headers, connectInfo⟩ cells hn
    cases connectInfo with
    | none => rfl
    | some peer => cases hn

/-- A limiter that allows each address a number of checks and no more. -/
def countdowns (quota : ℕ) : KeyedLimiter Unit where
  State := IpAddr → ℕ
  init := fun _ => quota
  step := fun (ip, _) left => (decide (0 < left ip), Function.update left ip (left ip - 1))

/-- A request through the sample's proxy, or past it, that names 203.0.113.7 as its client. -/
abbrev sampleRequest (peer : Net.SocketAddr) : Unit × Parts :=
  ((), ⟨.ofLine ChainHeader.xForwardedFor.name "203.0.113.7".toList (by decide), some peer⟩)

/-- 198.51.100.9 is charged itself when it names 203.0.113.7. -/
theorem sample_clients_are_charged :
    let stranger : IpAddr := .v4 (Ipv4Addr.new 198 51 100 9)
    (throttle (countdowns 1) ⟨TrustedProxiesBuilder.sampleConfig⟩).answers
        (fun request => request.2.connectInfo.isSome)
        [sampleRequest ⟨stranger, 4711, 0⟩, sampleRequest ⟨stranger, 4712, 0⟩,
          sampleRequest ⟨TrustedProxiesBuilder.sampleProxy, 80, 0⟩] (countdowns 1).init =
      [handler ⟨stranger, .socket⟩, tooManyRequests ⟨stranger, .socket⟩,
        handler ⟨TrustedProxiesBuilder.sampleClient,
          .chainHeader ChainHeader.xForwardedFor.name⟩] := by
  intro stranger
  have hn : TrustedProxiesBuilder.sampleConfig.isTrustedProxy stranger = false := by
    decide +kernel
  have direct : ∀ port, ComesFrom TrustedProxiesBuilder.sampleConfig
      (sampleRequest ⟨stranger, port, 0⟩).2 (some ⟨stranger, .socket⟩) :=
    fun _ => .direct hn
  have hhop : RelayedIn .xForwardedFor TrustedProxiesBuilder.sampleConfig
      TrustedProxiesBuilder.sampleClient [] (appendHop [] ⟨false, "203.0.113.7".toList⟩)
      TrustedProxiesBuilder.sampleProxy :=
    .first (by decide +kernel)
      ⟨_, .list _, parseIpLike_iff_hopText.mp (by decide +kernel)⟩ (fits_newLine _ _)
  have relayed : ComesFrom TrustedProxiesBuilder.sampleConfig
      (sampleRequest ⟨TrustedProxiesBuilder.sampleProxy, 80, 0⟩).2
      (some ⟨canonicalIp TrustedProxiesBuilder.sampleClient,
        .chainHeader ChainHeader.xForwardedFor.asHeaderName⟩) :=
    .relayed (h := .xForwardedFor) rfl (by decide +kernel) hhop (by decide +kernel)
      (by decide +kernel) (by decide +kernel)
  have h := (clients_are_charged (countdowns 1) ⟨TrustedProxiesBuilder.sampleConfig⟩
    (countdowns 1).init
    [⟨(), _, _, direct 4711⟩, ⟨(), _, _, direct 4712⟩, ⟨(), _, _, relayed⟩]).2.1
  have hdecided : ((countdowns 1).run [(stranger, ()), (stranger, ()),
      (TrustedProxiesBuilder.sampleClient, ())] (countdowns 1).init).1 = [true, false, true] := by
    decide +kernel
  exact h.trans (congrArg (List.zipWith respond _) hdecided)

end ClientAddr
