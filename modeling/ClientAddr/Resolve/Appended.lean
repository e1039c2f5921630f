import ClientAddr.Headers.Appended
import ClientAddr.Resolve.Canonical

/-! # A Forwarded value that a client starts and a proxy ends

The address that the nearest proxy appends is the answer whenever the client
closed its quotes. Otherwise the client's own last hop takes its place.
-/

namespace ClientAddr

open Text

/-- The request carries one line under a header that is read as `Forwarded` and comes first. -/
def CarriesForwarded (headers : HeaderMap) (order : List ChainHeader) (line : Text) : Prop :=
  ∃ h, firstCarried headers order = some h ∧ h.kind = .forwarded ∧
    readLines (headers.getAll h.asHeaderName) = some [line]

/-- Behind the client's text, a trust-all config answers with the appended address or the peer. -/
def SafeTrustAll (v : Text) : Prop :=
  ∀ (mode : TrustAllProxyMode) (headers : HeaderMap) (peer a : IpAddr) (w : Text),
    mode.chainIpSelection = .rightmost → configuredIp headers mode.clientIpHeader = none →
    ForText a w → CarriesForwarded headers mode.chainHeaderOrder (appendFor v w) →
    (ClientIpConfig.resolveClientIp ⟨.trustAllProxies mode⟩ headers peer).ip = canonicalIp a ∨
      (ClientIpConfig.resolveClientIp ⟨.trustAllProxies mode⟩ headers peer).ip = canonicalIp peer

/-- The same for a trusted peer, when the appended address is no trusted proxy. -/
def SafeTrusted (v : Text) : Prop :=
  ∀ (env : BuildEnv) (builder : TrustedProxiesBuilder) (config : ClientIpConfig)
    (headers : HeaderMap) (peer a : IpAddr) (w : Text),
    builder.build env = .ok config → config.isTrustedProxy peer = true →
    configuredIp headers (config.clientIpHeaderFor peer) = none →
    config.isTrustedProxy a = false → ForText a w →
    CarriesForwarded headers builder.chainHeaderOrder (appendFor v w) →
    (config.resolveClientIp headers peer).ip = canonicalIp a ∨
      (config.resolveClientIp headers peer).ip = canonicalIp peer

variable {headers : HeaderMap} {order : List ChainHeader} {peer a ip : IpAddr} {v w line : Text}
  {header : Option HeaderName} {pick : List ChainEntry → Option IpAddr} {config : ClientIpConfig}
  {l : List ChainEntry} {e : ChainEntry}

theorem resolveFrom_ip_of_carries (hc : CarriesForwarded headers order line)
    (hu : configuredIp headers header = none) :
    (resolveFrom headers peer header order pick).ip = (pick (forwardedHops line)).getD peer := by
  obtain ⟨h, hf, hk, hl⟩ := hc
  rw [resolveFrom_of_unusable hu, chainAnswer_of_lines hf hl, hk]
  simp only [List.flatMap_cons, List.flatMap_nil, List.append_nil, hopsOf]
  cases pick (forwardedHops line) <;> rfl

theorem resolve_trustAll_ip {mode : TrustAllProxyMode} (hs : mode.chainIpSelection = .rightmost)
    (hu : configuredIp headers mode.clientIpHeader = none)
    (hc : CarriesForwarded headers mode.chainHeaderOrder line)
    (hl : forwardedHops line = l ++ [e]) :
    (ClientIpConfig.resolveClientIp ⟨.trustAllProxies mode⟩ headers peer).ip =
      e.ip.getD (canonicalIp peer) := by
  rw [ClientIpConfig.resolveClientIp_trustAll, resolveFrom_ip_of_carries hc hu, hs, hl,
    selectTrustAllChainIp_eq, selectedEntry, List.getLast?_concat, Option.bind_some]

theorem firstNonTrustedFromRight_concat (he : trustedHop config e = false) :
    firstNonTrustedFromRight config (l ++ [e]) = e.ip := by
  have hd : ((l ++ [e]).reverse.dropWhile (trustedHop config)).head? = some e :=
    head?_dropWhile_reverse.mpr ⟨he, l, [], rfl, nofun⟩
  rw [firstNonTrustedFromRight, firstNonTrusted_eq, hd, Option.bind_some]

theorem resolve_trusted_ip {env : BuildEnv} {builder : TrustedProxiesBuilder}
    (hb : builder.build env = .ok config) (hp : config.isTrustedProxy peer = true)
    (hu : configuredIp headers (config.clientIpHeaderFor peer) = none)
    (hc : CarriesForwarded headers builder.chainHeaderOrder line)
    (hl : forwardedHops line = l ++ [e]) (he : trustedHop config e = false) :
    (config.resolveClientIp headers peer).ip = e.ip.getD (canonicalIp peer) := by
  obtain ⟨-, rfl⟩ := TrustedProxiesBuilder.build_eq_ok_iff.mp hb
  obtain ⟨rule, hr⟩ := Option.isSome_iff_exists.mp hp
  simp only [ClientIpConfig.clientIpHeaderFor, hr, Option.bind_some] at hu
  rw [ClientIpConfig.resolveClientIp_of_ruleFor rfl hr, resolveFrom_ip_of_carries hc hu, hl,
    firstNonTrustedFromRight_concat he]

section Sufficient

theorem safeTrustAll_of_closed (hv : QuotesClosed v) : SafeTrustAll v := by
  intro mode headers peer a w hs hu hw hc
  exact Or.inl (resolve_trustAll_ip hs hu hc (forwardedHops_of_closed hv hw))

theorem safeTrustAll_of_no_hop (hv : ¬ QuotesClosed v) (ho : openHop v = .Opaque) :
    SafeTrustAll v := by
  intro mode headers peer a w hs hu hw hc
  have hl := forwardedHops_of_open hv hw
  rw [ho] at hl
  exact Or.inr (resolve_trustAll_ip hs hu hc hl)

theorem safeTrusted_of_closed (hv : QuotesClosed v) : SafeTrusted v := by
  intro env builder config headers peer a w hb hp hu ha hw hc
  have he : trustedHop config (.Ip (canonicalIp a)) = false := by
    rw [trustedHop, ClientIpConfig.isTrustedProxy_canonicalIp, ha]
  exact Or.inl (resolve_trusted_ip hb hp hu hc (forwardedHops_of_closed hv hw) he)

theorem safeTrusted_of_no_hop (hv : ¬ QuotesClosed v) (ho : openHop v = .Opaque) :
    SafeTrusted v := by
  intro env builder config headers peer a w hb hp hu ha hw hc
  have hl := forwardedHops_of_open hv hw
  rw [ho] at hl
  exact Or.inr (resolve_trusted_ip hb hp hu hc hl rfl)

end Sufficient

section Necessary

def hostCidr (q : Ipv4Addr) : Cidr 32 := ⟨q, 32, le_rfl, by simp⟩

theorem mem_hostCidr {q b : Ipv4Addr} : b ∈ hostCidr q ↔ b = q := by
  simp only [Cidr.mem_iff, Cidr.size, hostCidr, Fin.ext_iff, Nat.sub_self, pow_zero]
  omega

def trustingOne (q : Ipv4Addr) : TrustedProxiesBuilder := { rules := [.new (.v4 (hostCidr q))] }

theorem covers_trustingOne {q : Ipv4Addr} {r : TrustedProxyRule} {x : IpAddr}
    (hr : r ∈ (trustingOne q).rules) :
    TrustedProxiesBuilder.Covers r x ↔ canonicalIp x = .v4 q := by
  obtain rfl := List.mem_singleton.mp hr
  unfold TrustedProxiesBuilder.Covers
  rw [IpCidr.contains_iff]
  change canonicalIp x ∈ (IpCidr.v4 (hostCidr q)).span ↔ _
  cases canonicalIp x with
  | v4 b => rw [IpCidr.v4_mem_span, mem_hostCidr, IpAddr.v4.injEq]
  | v6 b => simp

theorem build_trustingOne (q : Ipv4Addr) :
    ∃ config, (trustingOne q).build TrustedProxiesBuilder.sampleEnv = .ok config := by
  have hok : ensureNoCrossMetadataOverlap (trustingOne q).canonicalRules = .ok () := by
    rw [ensure_eq_ok_iff]
    intro r hr s hs _
    obtain rfl := List.mem_singleton.mp hr
    obtain rfl := List.mem_singleton.mp hs
    rfl
  exact ⟨_, TrustedProxiesBuilder.build_eq_ok_iff.mpr ⟨hok, rfl⟩⟩

theorem exists_config_trusting (q : Ipv4Addr) :
    ∃ config, (trustingOne q).build TrustedProxiesBuilder.sampleEnv = .ok config ∧
      (∀ x, config.isTrustedProxy x = true ↔ canonicalIp x = .v4 q) ∧
      ∀ x, config.clientIpHeaderFor x = none := by
  have hk : TrustedProxiesBuilder.sampleEnv.combiners.Exact := normalCombiners_exact
  obtain ⟨config, hb⟩ := build_trustingOne q
  refine ⟨config, hb, fun x => ?_, fun x => ?_⟩
  · rw [TrustedProxiesBuilder.isTrustedProxy_iff hk hb]
    constructor
    · rintro ⟨r, hr, hx⟩
      exact (covers_trustingOne hr).mp hx
    · exact fun hx => ⟨_, List.mem_cons_self, (covers_trustingOne List.mem_cons_self).mpr hx⟩
  · obtain ⟨rules, hc, -⟩ := TrustedProxiesBuilder.build_stores hk hb
    simp only [ClientIpConfig.clientIpHeaderFor, hc, Option.bind_eq_none_iff]
    intro rule hr
    rw [← hc] at hr
    obtain ⟨s, hs, hm, -⟩ :=
      (TrustedProxiesBuilder.exists_ruleFor_iff hk hb).mp ⟨rule, hr, rfl⟩
    obtain rfl := List.mem_singleton.mp hs
    unfold TrustedProxyRule.clientIpHeader
    rw [← hm]
    rfl

theorem exists_address_ne (x : IpAddr) :
    ∃ (u : Text) (b : Ipv4Addr), IpAddr.parse u = some (.v4 b) ∧ u.all isReadableChar = true ∧
      b.val < 2 ∧ IpAddr.v4 b ≠ x := by
  by_cases h : IpAddr.v4 0 = x
  · refine ⟨"0.0.0.1".toList, 1, by decide +kernel, by decide, by decide, ?_⟩
    rw [← h]
    decide
  · exact ⟨"0.0.0.0".toList, 0, by decide +kernel, by decide, by decide, h⟩

theorem readable_appendFor (hv : v.all isReadableChar = true) (hw : w.all isReadableChar = true) :
    (appendFor v w).all isReadableChar = true := by
  have hf : (", for=".toList).all isReadableChar = true := by decide
  rw [appendFor, List.all_append, List.all_append, hv, hf, hw]
  rfl

theorem carries_ofLine (h : line.all isReadableChar = true) :
    CarriesForwarded (.ofLine ChainHeader.forwarded.name line h) defaultChainHeaderOrder line := by
  have hne : ChainHeader.forwarded.name ≠ ChainHeader.xForwardedFor.name := by decide
  have hx : (HeaderMap.ofLine ChainHeader.forwarded.name line h).getAll
      ChainHeader.xForwardedFor.name = [] := by
    simp [HeaderMap.getAll, HeaderMap.ofLine, hne]
  have hf : (HeaderMap.ofLine ChainHeader.forwarded.name line h).getAll
      ChainHeader.forwarded.name = [.ofReadable line h] := by
    simp [HeaderMap.getAll, HeaderMap.ofLine]
  refine ⟨.forwarded, ?_, rfl, ?_⟩
  · simp [firstCarried, defaultChainHeaderOrder, ChainHeader.asHeaderName, hx, hf]
  · rw [ChainHeader.asHeaderName, hf, readLines_cons, HeaderValue.toStr_ofReadable]
    rfl

theorem canonical_openHop (ho : openHop v = .Ip ip) : ip.Canonical := canonical_of_pairs ho

theorem not_safeTrustAll (hv : v.all isReadableChar = true) (hq : ¬ QuotesClosed v)
    (ho : openHop v = .Ip ip) : ¬ SafeTrustAll v := by
  intro hsafe
  obtain ⟨u, b, hu, hr, -, hne⟩ := exists_address_ne ip
  have hc := carries_ofLine (readable_appendFor hv hr)
  have hl := forwardedHops_of_open hq (.v4 hu)
  rw [ho] at hl
  have hs := hsafe {} _ (.v4 b) (.v4 b) u rfl rfl (.v4 hu) hc
  rw [resolve_trustAll_ip rfl rfl hc hl, or_self] at hs
  exact hne hs.symm

theorem not_safeTrusted (hv : v.all isReadableChar = true) (hq : ¬ QuotesClosed v)
    (ho : openHop v = .Ip ip) : ¬ SafeTrusted v := by
  intro hsafe
  obtain ⟨u, b, hu, hr, hb2, hne⟩ := exists_address_ne ip
  -- the peer is neither the address of the hidden hop nor the one that is appended
  obtain ⟨q, hq2, hqne⟩ : ∃ q : Ipv4Addr, 2 ≤ q.val ∧ IpAddr.v4 q ≠ ip := by
    by_cases h : IpAddr.v4 2 = ip
    · refine ⟨3, by decide, ?_⟩
      rw [← h]
      decide
    · exact ⟨2, by decide, h⟩
  obtain ⟨config, hb, ht, hn⟩ := exists_config_trusting q
  have hc := carries_ofLine (readable_appendFor hv hr)
  have hl := forwardedHops_of_open hq (.v4 hu)
  rw [ho] at hl
  have hcanon : canonicalIp ip = ip := IpAddr.Canonical.toCanonical (canonical_openHop ho)
  have hip : trustedHop config (.Ip ip) = false := by
    rw [trustedHop, ← Bool.not_eq_true, ht, hcanon]
    exact Ne.symm hqne
  have ha : config.isTrustedProxy (.v4 b) = false := by
    rw [← Bool.not_eq_true, ht]
    intro h
    obtain rfl := IpAddr.v4.inj h
    omega
  have hu' : ∀ hs : HeaderMap, configuredIp hs (config.clientIpHeaderFor (.v4 q)) = none := by
    intro hs
    rw [hn]
    rfl
  have hp : config.isTrustedProxy (.v4 q) = true := (ht _).mpr rfl
  have hs := hsafe _ _ config _ (.v4 q) (.v4 b) u hb hp (hu' _) ha (.v4 hu) hc
  rw [resolve_trusted_ip hb hp (hu' _) hc hl hip] at hs
  rcases hs with hs | hs
  · exact hne hs.symm
  · exact hqne hs.symm

end Necessary

/--
Which texts a client may send without having a say in the answer: those that close their quotes, and
those whose last element names no usable address in front of the string left open.
-/
theorem appended_hop_is_safe_iff (v : Text) (hv : v.all isReadableChar = true) :
    (SafeTrustAll v ↔ QuotesClosed v ∨ openHop v = .Opaque) ∧
      (SafeTrusted v ↔ QuotesClosed v ∨ openHop v = .Opaque) := by
  by_cases hq : QuotesClosed v
  · exact ⟨iff_of_true (safeTrustAll_of_closed hq) (Or.inl hq),
      iff_of_true (safeTrusted_of_closed hq) (Or.inl hq)⟩
  · cases ho : openHop v with
    | Opaque =>
      exact ⟨iff_of_true (safeTrustAll_of_no_hop hq ho) (Or.inr rfl),
        iff_of_true (safeTrusted_of_no_hop hq ho) (Or.inr rfl)⟩
    | Ip ip =>
      have hn : ¬ (QuotesClosed v ∨ ChainEntry.Ip ip = .Opaque) := by simp [hq]
      exact ⟨iff_of_false (not_safeTrustAll hv hq ho) hn,
        iff_of_false (not_safeTrusted hv hq ho) hn⟩

/-- A client's text that opens a quoted string and never closes it. -/
def openText : Text := "for=6.6.6.6;x=\"".toList

theorem openText_is_not_safe : ¬ SafeTrustAll openText ∧ ¬ SafeTrusted openText := by
  have h : ¬ (QuotesClosed openText ∨ openHop openText = .Opaque) := by decide +kernel
  have hs := appended_hop_is_safe_iff openText (by decide)
  exact ⟨fun hn => h (hs.1.mp hn), fun hn => h (hs.2.mp hn)⟩

/-- The hop that the peer appends disappears in the client's string under both trust models. -/
theorem appended_hop_is_swallowed :
    let appended : IpAddr := .v4 (Ipv4Addr.new 9 9 9 9)
    let text := appendFor openText "9.9.9.9".toList
    let headers := .ofLine ChainHeader.forwarded.name text (by decide +kernel)
    let peer := TrustedProxiesBuilder.sampleProxy
    let config := TrustedProxiesBuilder.sampleConfig
    let swallowed : ClientIp :=
      ⟨.v4 (Ipv4Addr.new 6 6 6 6), .chainHeader ChainHeader.forwarded.name⟩
    IpAddr.parse "9.9.9.9".toList = some appended ∧
      ClientIpConfig.resolveClientIp ⟨.trustAllProxies {}⟩ headers peer = swallowed ∧
      config.isTrustedProxy peer = true ∧ config.isTrustedProxy appended = false ∧
      config.resolveClientIp headers peer = swallowed ∧
      swallowed.ip ≠ canonicalIp appended ∧ swallowed.ip ≠ canonicalIp peer := by
  decide +kernel

end ClientAddr
