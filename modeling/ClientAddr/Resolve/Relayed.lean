import ClientAddr.Headers.Relay
import ClientAddr.Resolve.Canonical
import ClientAddr.Resolve.Path
import ClientAddr.Resolve.Position

/-! # Requests relayed in either syntax

A client sends any lines of a chain header, and proxies add hops to them, one for
each. In a `Forwarded` header the first proxy either starts a line of its own or
finds a line that has closed its quotes. Then the scan still finds the client, and a
positional pick among the added hops still gives the client no part in the answer.
-/

namespace ClientAddr

open Text

section Scan

variable {kind : ChainHeaderKind} {config : ClientIpConfig} {client p peer : IpAddr}
  {own lines : List Text}

def NamesHop (kind : ChainHeaderKind) (t : Text) (x : IpAddr) : Prop :=
  ∃ u, HopOf kind t u ∧ HopText u x

/--
The lines of a chain header of the kind that a client with lines of its own sent, and the trusted
proxy that passes the request on. Each proxy adds one hop that names where the request came from.
-/
inductive RelayedIn (kind : ChainHeaderKind) (config : ClientIpConfig) (client : IpAddr)
    (own : List Text) : List Text → IpAddr → Prop
  | first {p : IpAddr} {hop : AddedHop} : config.isTrustedProxy p = true →
    NamesHop kind hop.text client → Fits kind own hop.sameLine →
    RelayedIn kind config client own (appendHop own hop) p
  | next {lines : List Text} {p q : IpAddr} {hop : AddedHop} :
    RelayedIn kind config client own lines p → config.isTrustedProxy q = true →
    NamesHop kind hop.text p → RelayedIn kind config client own (appendHop lines hop) q

theorem NamesHop.isHop {t : Text} {x : IpAddr} (h : NamesHop kind t x) : IsHop kind t := by
  obtain ⟨u, ht, hu⟩ := h
  exact ht.isHop hu

theorem NamesHop.hopsOf_eq {t : Text} {x : IpAddr} (h : NamesHop kind t x) :
    hopsOf kind t = [.Ip (canonicalIp x)] := by
  obtain ⟨u, ht, hu⟩ := h
  exact ht.hopsOf_eq hu

theorem NamesHop.closed_appendHop {hop : AddedHop} {x : IpAddr} (h : NamesHop kind hop.text x)
    (hf : Fits kind lines hop.sameLine) :
    kind = .forwarded → ∀ line ∈ (appendHop lines hop).getLast?, QuotesClosed line := by
  rintro rfl
  exact ClientAddr.closed_appendHop hf h.isHop.closed

/--
Behind the client's hop stand only trusted proxies, one of them passes the request on, and the next
hop may go on the last line.
-/
theorem RelayedIn.invariant (h : RelayedIn kind config client own lines p) :
    config.isTrustedProxy p = true ∧
      (kind = .forwarded → ∀ line ∈ lines.getLast?, QuotesClosed line) ∧
      ∃ l r, lines.flatMap (hopsOf kind) = l ++ .Ip (canonicalIp client) :: r ∧
        ∀ e ∈ r, trustedHop config e = true := by
  induction h with
  | first hp hn hf =>
    refine ⟨hp, hn.closed_appendHop hf, own.flatMap (hopsOf kind), [], ?_, by simp⟩
    rw [flatMap_hopsOf_appendHop hf, hn.hopsOf_eq]
  | @next lines p q hop _ hq hn ih =>
    obtain ⟨hp, hc, l, r, hl, hr⟩ := ih
    have hf := fits_of_closed hc hop.sameLine
    refine ⟨hq, hn.closed_appendHop hf, l, r ++ [.Ip (canonicalIp p)], ?_, ?_⟩
    · rw [flatMap_hopsOf_appendHop hf, hn.hopsOf_eq, hl]
      simp
    · intro e he
      rcases List.mem_append.mp he with he | he
      · exact hr e he
      · obtain rfl := List.mem_singleton.mp he
        rw [trustedHop, ClientIpConfig.isTrustedProxy_canonicalIp, hp]

theorem RelayedIn.scan_eq (h : RelayedIn kind config client own lines p)
    (hx : config.isTrustedProxy client = false) :
    firstNonTrustedFromRight config (lines.flatMap (hopsOf kind)) = some (canonicalIp client) := by
  obtain ⟨-, -, l, r, hl, hr⟩ := h.invariant
  rw [firstNonTrustedFromRight_eq_some, ClientIpConfig.isTrustedProxy_canonicalIp]
  exact ⟨hx, l, r, hl, hr⟩

/--
Whatever lines a client sent, and in whichever of the two syntaxes trusted proxies passed its
request on, the client is found, provided no client IP header that the peer's rule names is usable.
-/
theorem ClientIpConfig.relayed_in_either_syntax (config : ClientIpConfig)
    (rules : List TrustedProxyRule) (order : List ChainHeader) (client peer : IpAddr)
    (own lines : List Text) (headers : HeaderMap) (h : ChainHeader)
    (ht : config.trust = .trustedProxies rules order)
    (hx : config.isTrustedProxy client = false)
    (hp : RelayedIn h.kind config client own lines peer)
    (hf : firstCarried headers order = some h)
    (hl : readLines (headers.getAll h.asHeaderName) = some lines)
    (hc : configuredIp headers (config.clientIpHeaderFor peer) = none) :
    config.resolveClientIp headers peer = ⟨canonicalIp client, .chainHeader h.asHeaderName⟩ := by
  rw [resolveClientIp_of_lines ht hp.invariant.1 hc hf hl, hp.scan_eq hx]
  rfl

def quotedFor (value : Text) (h : value.all isReadableChar = true) : Param :=
  ⟨"For".toList, value, .quoted [], [' '], [], by decide, nofun, h, by decide, by decide⟩

/--
203.0.113.7 leaves a quoted string open. 10.0.0.9 starts a line of its own, and 10.0.0.7 adds to
that line.
-/
theorem ClientIpConfig.sample_relayed_in_forwarded :
    TrustedProxiesBuilder.sampleConfig.resolveClientIp
      [(ChainHeader.forwarded.name, .ofReadable "for=6.6.6.6;x=\"".toList (by decide)),
        (ChainHeader.forwarded.name,
          .ofReadable " For=\"203.0.113.7:80\", For=\"10.0.0.9\"".toList (by decide))]
      TrustedProxiesBuilder.sampleProxy =
    ⟨TrustedProxiesBuilder.sampleClient, .chainHeader ChainHeader.forwarded.name⟩ := by
  have names : ∀ (value : Text) (x : IpAddr) (hr : value.all isReadableChar = true),
      parseIpLike value = some x →
      NamesHop .forwarded (Element.mk [quotedFor value hr] (by simp)).render x :=
    fun value x hr hv => ⟨_, .forwarded _ (quotedFor value hr) rfl, parseIpLike_iff_hopText.mp hv⟩
  have hfirst : RelayedIn .forwarded TrustedProxiesBuilder.sampleConfig
      TrustedProxiesBuilder.sampleClient ["for=6.6.6.6;x=\"".toList] (appendHop _ ⟨false, _⟩)
      (.v4 (Ipv4Addr.new 10 0 0 9)) :=
    .first (by decide +kernel)
      (names "203.0.113.7:80".toList _ (by decide) (by decide +kernel)) (fits_newLine _ _)
  have hnext : RelayedIn .forwarded TrustedProxiesBuilder.sampleConfig _ _
      (appendHop _ ⟨true, _⟩) TrustedProxiesBuilder.sampleProxy :=
    .next hfirst (by decide +kernel) (names "10.0.0.9".toList _ (by decide) (by decide +kernel))
  exact relayed_in_either_syntax _ _ _ TrustedProxiesBuilder.sampleClient _ _ _ _ .forwarded rfl
    (by decide +kernel) hnext (by decide +kernel) (by decide +kernel) (by decide +kernel)

end Scan

section Position

variable {mode : TrustAllProxyMode} {n : ℕ} {h : ChainHeader} {headers : HeaderMap}
  {peer : IpAddr} {lines : List Text} {hops : List AddedHop}

def entryAnswer (peer : IpAddr) (header : HeaderName) (entry : ChainEntry) : ClientIp :=
  (entry.ip.map fun ip => ⟨ip, .chainHeader header⟩).getD ⟨canonicalIp peer, .socket⟩

theorem resolve_trustAll_position (hs : mode.chainIpSelection.skips = some n)
    (hc : configuredIp headers mode.clientIpHeader = none)
    (hf : firstCarried headers mode.chainHeaderOrder = some h)
    (hl : readLines (headers.getAll h.asHeaderName) = some lines) :
    ClientIpConfig.resolveClientIp ⟨.trustAllProxies mode⟩ headers peer =
      entryAnswer peer h.asHeaderName
        (((lines.flatMap (hopsOf h.kind)).reverse[n]?).getD .Opaque) := by
  rw [ClientIpConfig.resolveClientIp_trustAll, resolveFrom_of_unusable hc,
    chainAnswer_of_lines hf hl, selectTrustAllChainIp_of_skips hs]
  cases (lines.flatMap (hopsOf h.kind)).reverse[n]? <;> rfl

/-- A request whose first carried chain header has the given lines, without a client IP header. -/
structure CarriesLines (mode : TrustAllProxyMode) (headers : HeaderMap) (h : ChainHeader)
    (lines : List Text) : Prop where
  unusable : configuredIp headers mode.clientIpHeader = none
  first : firstCarried headers mode.chainHeaderOrder = some h
  lines : readLines (headers.getAll h.asHeaderName) = some lines

/--
Positional selection over either syntax. Where the proxies add more hops than are skipped, the added
hop at that position decides, so the client has no part in the answer. Where the whole chain has too
few hops, the answer is the socket peer.
-/
theorem added_hops_decide (mode : TrustAllProxyMode) (n : ℕ) (h : ChainHeader) (peer : IpAddr)
    (hs : mode.chainIpSelection.skips = some n) :
    (∀ (hops : List AddedHop) (hn : n < hops.reverse.length),
      (∀ hop ∈ hops, IsHop h.kind hop.text) →
      ∀ headers own, (∀ hop ∈ hops.head?, Fits h.kind own hop.sameLine) →
        CarriesLines mode headers h (appendHops own hops) →
        ClientIpConfig.resolveClientIp ⟨.trustAllProxies mode⟩ headers peer =
          entryAnswer peer h.asHeaderName (entryOf h.kind hops.reverse[n].text)) ∧
    ∀ headers lines, CarriesLines mode headers h lines →
      (lines.flatMap (hopsOf h.kind)).length ≤ n →
      ClientIpConfig.resolveClientIp ⟨.trustAllProxies mode⟩ headers peer =
        ⟨canonicalIp peer, .socket⟩ := by
  constructor
  · intro hops hn hh headers own hfit hc
    have hn' : n < (hops.map fun hop => entryOf h.kind hop.text).reverse.length := by
      simpa using hn
    have hget : ((appendHops own hops).flatMap (hopsOf h.kind)).reverse[n]? =
        some (entryOf h.kind hops.reverse[n].text) := by
      rw [flatMap_hopsOf_appendHops hh hfit, List.reverse_append, List.getElem?_append_left hn',
        ← List.map_reverse, List.getElem?_map, List.getElem?_eq_getElem hn]
      rfl
    rw [resolve_trustAll_position hs hc.unusable hc.first hc.lines, hget, Option.getD_some]
  · intro headers lines hc hle
    have hget : (lines.flatMap (hopsOf h.kind)).reverse[n]? = none :=
      List.getElem?_eq_none (by rwa [List.length_reverse])
    rw [resolve_trustAll_position hs hc.unusable hc.first hc.lines, hget]
    rfl

/-- The proxy's element decides behind whatever closed line the client sent. -/
theorem sample_added_hop_decides :
    ClientIpConfig.resolveClientIp ⟨.trustAllProxies {}⟩
      (.ofLine ChainHeader.forwarded.name "for=6.6.6.6,for=_x".toList (by decide +kernel))
      (.v4 (Ipv4Addr.new 10 0 0 7)) =
      ⟨.v4 (Ipv4Addr.new 10 0 0 7), .socket⟩ := by
  have h := (added_hops_decide {} 0 .forwarded (.v4 (Ipv4Addr.new 10 0 0 7)) rfl).1
    [⟨true, "for=_x".toList⟩] (by decide) (by decide +kernel)
    (.ofLine ChainHeader.forwarded.name "for=6.6.6.6,for=_x".toList (by decide +kernel))
    ["for=6.6.6.6".toList] (by decide +kernel)
    ⟨by decide +kernel, by decide +kernel, by decide +kernel⟩
  exact h.trans (by decide +kernel)

end Position

end ClientAddr
