import ClientAddr.Model.Extractor
import ClientAddr.Resolve.Appended
import ClientAddr.Resolve.Relayed
import ClientAddr.Resolve.Respelled

/-! # Answers passed from service to service

A service writes its answer into the request that it sends on, as the client IP
header or as the last hop of a chain header. The next service reads the same
address, so it does not matter how many services a request goes through.
-/

namespace ClientAddr

open Net Text

/-- A node that shows the written form of an address. -/
inductive Shows : IpAddr → Text → Prop
  | plain (x : IpAddr) : Shows x x.display
  | bracketed (x : IpAddr) : Shows x ('[' :: (x.display ++ [']']))
  | bracketedPort {p : Text} (x : IpAddr) : isValidNodePort p = true →
    Shows x ('[' :: (x.display ++ ']' :: ':' :: p))
  | port {p : Text} (a : Ipv4Addr) : isValidNodePort p = true →
    Shows (.v4 a) (IpAddr.display (.v4 a) ++ ':' :: p)

variable {x ip : IpAddr} {u : Text} {q q' : Request}

theorem Shows.hopText (h : Shows x u) : HopText u x := by
  cases h with
  | plain x => exact .plain x.parse_display
  | bracketed x => exact .bracketed x.parse_display
  | bracketedPort x hp => exact .bracketedPort x.parse_display hp
  | port a hp => exact .hostPort (IpAddr.parse_display (.v4 a)) hp

/-- The config answers with the last hop of a chain header if that is the given address. -/
def LooksAtLast (config : ClientIpConfig) (peer ip : IpAddr) : Prop :=
  match config.trust with
  | .noProxy => False
  | .trustedProxies _ _ => config.isTrustedProxy peer = true ∧ config.isTrustedProxy ip = false
  | .trustAllProxies mode => mode.chainIpSelection.skips = some 0

/-- The request carries an answer, written where its config looks for it. -/
inductive PassesOn (answer : ClientIp) : Request → Prop
  | clientIpHeader {q : Request} {n : HeaderName} {v : HeaderValue} {raw : Text} :
    q.config.clientIpHeaderFor q.peer = some n → (q.headers.getAll n).getLast? = some v →
    v.toStr = some raw → trim raw = answer.display → PassesOn answer q
  | hop {q : Request} {h : ChainHeader} {lines : List Text} {hop : AddedHop} {u : Text} :
    configuredIp q.headers (q.config.clientIpHeaderFor q.peer) = none →
    LooksAtLast q.config q.peer answer.ip →
    firstCarried q.headers q.config.chainHeaderOrder = some h →
    readLines (q.headers.getAll h.asHeaderName) = some (appendHop lines hop) →
    Fits h.kind lines hop.sameLine → HopOf h.kind hop.text u → Shows answer.ip u →
    PassesOn answer q

theorem ClientIpConfig.resolveClientIp_of_configured {config : ClientIpConfig}
    {headers : HeaderMap} {peer : IpAddr}
    (hc : configuredIp headers (config.clientIpHeaderFor peer) = some ip) :
    ∃ n ∈ config.clientIpHeaderFor peer,
      config.resolveClientIp headers peer = ⟨ip, .configuredHeader n⟩ := by
  cases ht : config.trust with
  | noProxy =>
    simp only [clientIpHeaderFor, ht] at hc
    cases hc
  | trustedProxies rules order =>
    simp only [clientIpHeaderFor, ht] at hc ⊢
    cases hr : config.ruleFor peer with
    | none =>
      rw [hr] at hc
      cases hc
    | some rule =>
      rw [hr] at hc
      rw [resolveClientIp_of_ruleFor ht hr]
      exact resolveFrom_of_configured hc
  | trustAllProxies mode =>
    simp only [clientIpHeaderFor, ht] at hc ⊢
    simp only [resolveClientIp, ht]
    exact resolveFrom_of_configured hc

theorem ClientIpConfig.resolveClientIp_of_last {config : ClientIpConfig} {headers : HeaderMap}
    {peer : IpAddr} {h : ChainHeader} {lines : List Text} {l : List ChainEntry}
    (hc : configuredIp headers (config.clientIpHeaderFor peer) = none)
    (hlast : LooksAtLast config peer ip)
    (hf : firstCarried headers config.chainHeaderOrder = some h)
    (hl : readLines (headers.getAll h.asHeaderName) = some lines)
    (hh : lines.flatMap (hopsOf h.kind) = l ++ [.Ip ip]) :
    (config.resolveClientIp headers peer).ip = ip := by
  unfold LooksAtLast at hlast
  cases ht : config.trust with
  | noProxy => simp [ht] at hlast
  | trustedProxies rules order =>
    simp only [ht] at hlast
    simp only [chainHeaderOrder, ht] at hf
    obtain ⟨hpeer, hn⟩ := hlast
    have he : trustedHop config (.Ip ip) = false := hn
    rw [resolveClientIp_of_lines ht hpeer hc hf hl, hh, firstNonTrustedFromRight_concat he]
    rfl
  | trustAllProxies mode =>
    simp only [ht] at hlast
    simp only [chainHeaderOrder, ht] at hf
    simp only [clientIpHeaderFor, ht] at hc
    obtain rfl : config = ⟨.trustAllProxies mode⟩ := by
      cases config
      exact congrArg _ ht
    rw [resolve_trustAll_position hlast hc hf hl, hh]
    simp [entryAnswer, ChainEntry.ip]

/-- The next service answers with the address that is passed on to it. -/
theorem PassesOn.answer_ip {answer : ClientIp} (h : PassesOn answer q) (hc : answer.ip.Canonical) :
    q.answer.ip = answer.ip := by
  have hcan : canonicalIp answer.ip = answer.ip := hc.toCanonical
  cases h with
  | clientIpHeader hn hv hr ht =>
    have hp : IpAddr.parse answer.display = some answer.ip := answer.ip.parse_display
    have hc : configuredIp q.headers (q.config.clientIpHeaderFor q.peer) = some answer.ip := by
      rw [configuredIp, hn, Option.bind_some, configuredClientIpHeader_of_last hv hr (ht ▸ hp),
        hcan]
    obtain ⟨n, -, hn⟩ := ClientIpConfig.resolveClientIp_of_configured hc
    rw [Request.answer, hn]
  | hop hu hlast hf hl hfit ht hs =>
    apply ClientIpConfig.resolveClientIp_of_last hu hlast hf hl
    rw [flatMap_hopsOf_appendHop hfit, ht.hopsOf_eq hs.hopText, hcan]

/--
Through any number of services, each of which passes its answer on to the next, the address stays
the one of the first answer.
-/
theorem answer_survives_tiers (q q' : Request)
    (h : Relation.ReflTransGen (fun q q' => PassesOn q.answer q') q q') :
    q'.answer.ip = q.answer.ip := by
  induction h with
  | refl => rfl
  | tail _ hp ih =>
    rw [← ih]
    exact hp.answer_ip (ClientIpConfig.canonical_resolveClientIp _ _ _)

def edgeRequest (peer : IpAddr) : Request := ⟨trustNoProxy, [], peer⟩

/-- A service behind it that reads the client IP header. -/
def middleRequest (header : HeaderName) : Request where
  config := TrustedProxiesBuilder.sampleConfig
  headers := .ofLine header " 203.0.113.7".toList (by decide)
  peer := TrustedProxiesBuilder.sampleProxy

/-- A service behind both that reads the last hop of a list. -/
def innerRequest : Request where
  config := ⟨.trustAllProxies {}⟩
  headers := .ofLine ChainHeader.xForwardedFor.name "6.6.6.6, [203.0.113.7]:80".toList (by decide)
  peer := TrustedProxiesBuilder.sampleProxy

theorem sample_answer_survives_tiers : innerRequest.answer.ip =
    (edgeRequest (.v6 (Ipv4Addr.new 203 0 113 7).toIpv6Mapped)).answer.ip := by
  have hheader : PassesOn (edgeRequest (.v6 (Ipv4Addr.new 203 0 113 7).toIpv6Mapped)).answer
      (middleRequest ⟨"x-real-ip".toList, by decide⟩) :=
    .clientIpHeader (n := ⟨"x-real-ip".toList, by decide⟩) (by decide +kernel) rfl
      (HeaderValue.toStr_ofReadable " 203.0.113.7".toList (by decide)) (by decide +kernel)
  have hline : readLines (innerRequest.headers.getAll ChainHeader.xForwardedFor.asHeaderName) =
      some (appendHop ["6.6.6.6".toList] ⟨true, " [203.0.113.7]:80".toList⟩) := by
    decide +kernel
  have hhop : PassesOn (middleRequest ⟨"x-real-ip".toList, by decide⟩).answer innerRequest :=
    .hop (h := .xForwardedFor) (by decide +kernel) rfl (by decide +kernel) hline
      (by decide +kernel) (.list _) (.bracketedPort (p := "80".toList) _ (by decide))
  exact answer_survives_tiers _ _ ((Relation.ReflTransGen.single hheader).tail hhop)

end ClientAddr
