import ClientAddr.Headers.Lines
import ClientAddr.Rules.Lookup

/-! # The order of the answers

The client IP header comes first, then the one chain header that the request
carries first, then the socket. Only the hop that is picked from that chain
header differs between the trust models.
-/

namespace ClientAddr

open Text

def ChainEntry.ip : ChainEntry → Option IpAddr
  | .Ip ip => some ip
  | .Opaque => none

/-- The first configured chain header that the request carries. -/
def firstCarried (headers : HeaderMap) (order : List ChainHeader) : Option ChainHeader :=
  order.find? fun h => headers.getAll h.asHeaderName ≠ []

/-- The hops of the first carried chain header, if it is readable. -/
def carriedEntries (headers : HeaderMap) (order : List ChainHeader) : Option (List ChainEntry) :=
  (firstCarried headers order).bind fun h => chainEntries h.kind (headers.getAll h.asHeaderName)

def chainAnswer (headers : HeaderMap) (order : List ChainHeader)
    (pick : List ChainEntry → Option IpAddr) : Option ClientIp :=
  (firstCarried headers order).bind fun h =>
    ((chainEntries h.kind (headers.getAll h.asHeaderName)).bind pick).map fun ip =>
      ⟨ip, .chainHeader h.asHeaderName⟩

/-- The client IP header that the trust model names for a peer. -/
def ClientIpConfig.clientIpHeaderFor (config : ClientIpConfig) (peer : IpAddr) :
    Option HeaderName :=
  match config.trust with
  | .noProxy => none
  | .trustedProxies _ _ => (config.ruleFor peer).bind TrustedProxyRule.clientIpHeader
  | .trustAllProxies mode => mode.clientIpHeader

/-- The address of the client IP header, if one is named and usable. -/
def configuredIp (headers : HeaderMap) (header : Option HeaderName) : Option IpAddr :=
  header.bind (configuredClientIpHeader headers)

variable {headers : HeaderMap} {order : List ChainHeader} {h : ChainHeader} {peer ip : IpAddr}
  {pick : List ChainEntry → Option IpAddr} {header : Option HeaderName}

theorem configuredIp_of_absent (ha : ∀ n ∈ header, headers.getAll n = []) :
    configuredIp headers header = none := by
  cases header with
  | none => rfl
  | some n => simp [configuredIp, configuredClientIpHeader, ha n rfl]

/-- A carried header that yields no answer stops the search. -/
theorem clientIpFromChainHeaders_eq (headers : HeaderMap)
    (pick : List ChainEntry → Option IpAddr) (order : List ChainHeader) :
    (clientIpFromChainHeaders headers pick order).map (fun (ip, source) => ⟨ip, source⟩) =
      chainAnswer headers order pick := by
  induction order with
  | nil => rfl
  | cons h order ih =>
    simp only [clientIpFromChainHeaders]
    by_cases hv : headers.getAll h.asHeaderName = []
    · have hf : firstCarried headers (h :: order) = firstCarried headers order := by
        simp [firstCarried, hv]
      rw [if_pos hv, ih, chainAnswer, chainAnswer, hf]
    · have hf : firstCarried headers (h :: order) = some h := by
        simp [firstCarried, hv]
      rw [if_neg hv, chainAnswer, hf, Option.bind_some]
      cases chainEntries h.kind (headers.getAll h.asHeaderName) with
      | none => rfl
      | some entries => cases hp : pick entries <;> simp [hp]

theorem resolveFrom_of_configured (hc : configuredIp headers header = some ip) :
    ∃ n ∈ header, resolveFrom headers peer header order pick = ⟨ip, .configuredHeader n⟩ := by
  obtain ⟨n, rfl, hn⟩ := Option.bind_eq_some_iff.mp hc
  exact ⟨n, rfl, by simp [resolveFrom, hn]⟩

/-- Without a usable client IP header the first carried chain header decides. -/
theorem resolveFrom_of_unusable (hc : configuredIp headers header = none) :
    resolveFrom headers peer header order pick =
      (chainAnswer headers order pick).getD ⟨peer, .socket⟩ := by
  have hn : (header.bind fun n => (configuredClientIpHeader headers n).map fun ip =>
      (⟨ip, .configuredHeader n⟩ : ClientIp)) = none := by
    cases header with
    | none => rfl
    | some n =>
      have hn : configuredClientIpHeader headers n = none := hc
      simp [hn]
  rw [resolveFrom, hn, ← clientIpFromChainHeaders_eq]
  cases clientIpFromChainHeaders headers pick order <;> rfl

theorem chainAnswer_of_lines {lines : List Text} (hf : firstCarried headers order = some h)
    (hl : readLines (headers.getAll h.asHeaderName) = some lines) :
    chainAnswer headers order pick =
      (pick (lines.flatMap (hopsOf h.kind))).map fun ip => ⟨ip, .chainHeader h.asHeaderName⟩ := by
  rw [chainAnswer, hf, Option.bind_some, chainEntries_eq, hl]
  rfl

theorem chainAnswer_congr {pick' : List ChainEntry → Option IpAddr}
    (hp : ∀ entries ∈ carriedEntries headers order, pick entries = pick' entries) :
    chainAnswer headers order pick = chainAnswer headers order pick' := by
  unfold chainAnswer carriedEntries at *
  cases hf : firstCarried headers order with
  | none => rfl
  | some h =>
    simp only [hf, Option.bind_some] at hp ⊢
    cases he : chainEntries h.kind (headers.getAll h.asHeaderName) with
    | none => rfl
    | some entries => rw [Option.bind_some, Option.bind_some, hp entries he]

theorem chainAnswer_eq_none_iff : chainAnswer headers order pick = none ↔
    ∀ entries ∈ carriedEntries headers order, pick entries = none := by
  unfold chainAnswer carriedEntries
  cases firstCarried headers order with
  | none => simp
  | some h => simp [Option.bind_eq_none_iff]

theorem chainAnswer_eq_some {answer : ClientIp}
    (ha : chainAnswer headers order pick = some answer) :
    ∃ entries ∈ carriedEntries headers order, pick entries = some answer.ip ∧
      ∃ g ∈ firstCarried headers order, answer.source = .chainHeader g.asHeaderName := by
  obtain ⟨g, hg, ha⟩ := Option.bind_eq_some_iff.mp ha
  obtain ⟨ip, hip, rfl⟩ := Option.map_eq_some_iff.mp ha
  obtain ⟨entries, he, hp⟩ := Option.bind_eq_some_iff.mp hip
  refine ⟨entries, ?_, hp, g, hg, rfl⟩
  rw [carriedEntries, hg]
  exact he

theorem chainAnswer_getD_eq_socket_iff :
    (chainAnswer headers order pick).getD ⟨peer, .socket⟩ = ⟨peer, .socket⟩ ↔
      chainAnswer headers order pick = none := by
  cases ha : chainAnswer headers order pick with
  | none => exact iff_of_true rfl rfl
  | some answer =>
    obtain ⟨-, -, -, g, -, hg⟩ := chainAnswer_eq_some ha
    refine iff_of_false ?_ (Option.some_ne_none _)
    rintro rfl
    cases hg

theorem chainAnswer_of_source {name : HeaderName}
    (hs : ((chainAnswer headers order pick).getD ⟨peer, .socket⟩).source = .chainHeader name) :
    chainAnswer headers order pick =
      some ((chainAnswer headers order pick).getD ⟨peer, .socket⟩) := by
  cases ha : chainAnswer headers order pick with
  | none =>
    rw [ha] at hs
    cases hs
  | some answer => rfl

namespace ClientIpConfig

variable {rules : List TrustedProxyRule} {rule : TrustedProxyRule} {mode : TrustAllProxyMode}
  {config : ClientIpConfig}

theorem resolveClientIp_trustAll :
    resolveClientIp ⟨.trustAllProxies mode⟩ headers peer =
      resolveFrom headers (canonicalIp peer) mode.clientIpHeader mode.chainHeaderOrder
        (selectTrustAllChainIp mode.chainIpSelection) := rfl

theorem resolveClientIp_of_ruleFor (ht : config.trust = .trustedProxies rules order)
    (hr : config.ruleFor peer = some rule) :
    config.resolveClientIp headers peer =
      resolveFrom headers (canonicalIp peer) rule.clientIpHeader order
        (firstNonTrustedFromRight config) := by
  simp only [resolveClientIp, ht, resolveClientIpFromTrustedProxies, ruleFor_canonicalIp, hr]

theorem resolveClientIp_of_not_covered (ht : config.trust = .trustedProxies rules order)
    (hr : config.ruleFor peer = none) :
    config.resolveClientIp headers peer = ⟨canonicalIp peer, .socket⟩ := by
  simp only [resolveClientIp, ht, resolveClientIpFromTrustedProxies, ruleFor_canonicalIp, hr]

theorem resolveClientIp_of_lines {lines : List Text}
    (ht : config.trust = .trustedProxies rules order)
    (hp : config.isTrustedProxy peer = true)
    (hc : configuredIp headers (config.clientIpHeaderFor peer) = none)
    (hf : firstCarried headers order = some h)
    (hl : readLines (headers.getAll h.asHeaderName) = some lines) :
    config.resolveClientIp headers peer =
      ((firstNonTrustedFromRight config (lines.flatMap (hopsOf h.kind))).map fun ip =>
        ⟨ip, .chainHeader h.asHeaderName⟩).getD ⟨canonicalIp peer, .socket⟩ := by
  simp only [isTrustedProxy, ht] at hp
  obtain ⟨rule, hr⟩ := Option.isSome_iff_exists.mp hp
  simp only [clientIpHeaderFor, ht, hr, Option.bind_some] at hc
  rw [resolveClientIp_of_ruleFor ht hr, resolveFrom_of_unusable hc, chainAnswer_of_lines hf hl]

end ClientIpConfig

end ClientAddr
