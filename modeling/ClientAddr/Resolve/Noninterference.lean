import ClientAddr.Resolve.Search

/-! # Headers that cannot influence the answer

An untrusted peer's headers are not read at all. A usable client IP header hides
everything else, and otherwise only the lines of the first carried chain header
count.
-/

namespace ClientAddr

open Text

variable {headers headers' : HeaderMap} {order : List ChainHeader} {h : ChainHeader}
  {peer : IpAddr} {pick : List ChainEntry → Option IpAddr}

/-- The two requests carry the same chain header first, with the same lines, or none. -/
def SameCarried (headers headers' : HeaderMap) (order : List ChainHeader) : Prop :=
  firstCarried headers order = firstCarried headers' order ∧
    ∀ h ∈ firstCarried headers order,
      headers.getAll h.asHeaderName = headers'.getAll h.asHeaderName

theorem SameCarried.chainAnswer_eq (hs : SameCarried headers headers' order) :
    chainAnswer headers order pick = chainAnswer headers' order pick := by
  obtain ⟨hf, hv⟩ := hs
  unfold chainAnswer
  rw [← hf]
  cases hc : firstCarried headers order with
  | none => rfl
  | some h => rw [Option.bind_some, Option.bind_some, hv h hc]

theorem configuredClientIpHeader_congr {n : HeaderName}
    (hl : (headers.getAll n).getLast? = (headers'.getAll n).getLast?) :
    configuredClientIpHeader headers n = configuredClientIpHeader headers' n := by
  unfold configuredClientIpHeader
  rw [hl]

theorem configuredClientIpHeader_of_last {n : HeaderName} {v : HeaderValue} {raw : Text}
    {ip : IpAddr} (hl : (headers.getAll n).getLast? = some v) (hr : v.toStr = some raw)
    (hp : IpAddr.parse (trim raw) = some ip) :
    configuredClientIpHeader headers n = some (canonicalIp ip) := by
  simp [configuredClientIpHeader, hl, hr, hp]

namespace ClientIpConfig

variable {config : ClientIpConfig}

/-- The peer is covered by no rule, or no proxy is trusted at all. -/
def Untrusted (config : ClientIpConfig) (peer : IpAddr) : Prop :=
  match config.trust with
  | .noProxy => True
  | .trustedProxies rules _ => ∀ r ∈ rules, r.cidr.contains (canonicalIp peer) = false
  | .trustAllProxies _ => False

theorem mem_of_ruleFor {rules : List TrustedProxyRule} {rule : TrustedProxyRule}
    (ht : config.trust = .trustedProxies rules order) (hr : config.ruleFor peer = some rule) :
    rule ∈ rules ∧ rule.cidr.contains (canonicalIp peer) = true := by
  simp only [ruleFor, ht, Option.bind_eq_bind, Option.bind_eq_some_iff,
    Option.ite_none_right_eq_some, Option.some.injEq] at hr
  obtain ⟨i, -, r, hi, hc, rfl⟩ := hr
  exact ⟨List.mem_of_getElem? hi, hc⟩

theorem resolveClientIp_of_untrusted (hu : config.Untrusted peer) (headers : HeaderMap) :
    config.resolveClientIp headers peer = ⟨canonicalIp peer, .socket⟩ := by
  unfold Untrusted at hu
  split at hu
  · next ht => simp only [resolveClientIp, ht]
  · next rules order ht =>
    apply resolveClientIp_of_not_covered ht
    rw [Option.eq_none_iff_forall_ne_some]
    intro rule hr
    obtain ⟨hm, hc⟩ := mem_of_ruleFor ht hr
    rw [hu rule hm] at hc
    cases hc
  · cases hu

/-- Every answer is the socket peer or comes from the part that the trust models share. -/
theorem resolveClientIp_cases (config : ClientIpConfig) (peer : IpAddr) :
    (∀ headers, config.resolveClientIp headers peer = ⟨canonicalIp peer, .socket⟩) ∨
      ∃ pick, ∀ headers, config.resolveClientIp headers peer =
        resolveFrom headers (canonicalIp peer) (config.clientIpHeaderFor peer)
          config.chainHeaderOrder pick := by
  cases ht : config.trust with
  | noProxy =>
    apply Or.inl
    intro headers
    simp only [resolveClientIp, ht]
  | trustedProxies rules order =>
    cases hr : config.ruleFor peer with
    | none => exact Or.inl fun headers => resolveClientIp_of_not_covered ht hr
    | some rule =>
      refine Or.inr ⟨firstNonTrustedFromRight config, fun headers => ?_⟩
      rw [resolveClientIp_of_ruleFor ht hr]
      simp only [clientIpHeaderFor, chainHeaderOrder, ht, hr, Option.bind_some]
  | trustAllProxies mode =>
    refine Or.inr ⟨selectTrustAllChainIp mode.chainIpSelection, fun headers => ?_⟩
    simp only [resolveClientIp, ht, resolveClientIpTrustingAllProxies, clientIpHeaderFor,
      chainHeaderOrder]

/--
Only the headers that the trust model names can influence the answer: none for an untrusted peer,
the last value of a usable client IP header, else the lines of the first carried chain header.
-/
theorem only_named_headers_count (config : ClientIpConfig) (peer : IpAddr)
    (headers headers' : HeaderMap) :
    (config.Untrusted peer →
      config.resolveClientIp headers peer = ⟨canonicalIp peer, .socket⟩ ∧
      config.resolveClientIp headers' peer = ⟨canonicalIp peer, .socket⟩) ∧
    (∀ n v raw ip, config.clientIpHeaderFor peer = some n →
      (headers.getAll n).getLast? = some v → (headers'.getAll n).getLast? = some v →
      v.toStr = some raw → IpAddr.parse (trim raw) = some ip →
      config.resolveClientIp headers peer = config.resolveClientIp headers' peer) ∧
    (configuredIp headers (config.clientIpHeaderFor peer) = none →
      configuredIp headers' (config.clientIpHeaderFor peer) = none →
      SameCarried headers headers' config.chainHeaderOrder →
      config.resolveClientIp headers peer = config.resolveClientIp headers' peer) := by
  refine ⟨fun hu => ⟨resolveClientIp_of_untrusted hu _, resolveClientIp_of_untrusted hu _⟩, ?_, ?_⟩
  · intro n v raw ip hn hv hv' hr hp
    rcases resolveClientIp_cases config peer with hs | ⟨pick, hs⟩
    · rw [hs, hs]
    · have hc := configuredClientIpHeader_of_last hv hr hp
      have hc' := configuredClientIpHeader_of_last hv' hr hp
      rw [hs, hs, hn]
      simp only [resolveFrom, Option.bind_some, hc, hc', Option.map_some]
  · intro hc hc' hsame
    rcases resolveClientIp_cases config peer with hs | ⟨pick, hs⟩
    · rw [hs, hs]
    · rw [hs, hs, resolveFrom_of_unusable hc, resolveFrom_of_unusable hc', hsame.chainAnswer_eq]

/-- The same lines count behind the sample's proxy with and without 6.6.6.6, and none past it. -/
theorem sample_only_named_headers_count :
    let config := TrustedProxiesBuilder.sampleConfig
    let proxy := TrustedProxiesBuilder.sampleProxy
    let client := TrustedProxiesBuilder.sampleClient
    let header : HeaderName := ⟨"x-real-ip".toList, by decide⟩
    let named : HeaderMap := .ofLine header "203.0.113.7".toList (by decide)
    let listed : HeaderMap :=
      .ofLine ChainHeader.xForwardedFor.name "203.0.113.7".toList (by decide)
    let forged : HeaderMap := .ofLine ChainHeader.forwarded.name "for=6.6.6.6".toList (by decide)
    config.resolveClientIp forged client = ⟨client, .socket⟩ ∧
      config.resolveClientIp (forged ++ named) proxy = config.resolveClientIp named proxy ∧
      config.resolveClientIp (forged ++ listed) proxy = config.resolveClientIp listed proxy := by
  intro config proxy client header named listed forged
  have hu : ∀ r ∈ TrustedProxiesBuilder.sampleRules, r.cidr.contains (canonicalIp client) = false :=
    by decide +kernel
  refine ⟨((only_named_headers_count config client forged forged).1 hu).1, ?_, ?_⟩
  · exact (only_named_headers_count config proxy (forged ++ named) named).2.1 header
      (.ofReadable "203.0.113.7".toList (by decide)) "203.0.113.7".toList client
      (by decide +kernel) rfl rfl (HeaderValue.toStr_ofReadable _ _) (by decide +kernel)
  · have hfirst : SameCarried (forged ++ listed) listed config.chainHeaderOrder := by
      unfold SameCarried
      decide +kernel
    exact (only_named_headers_count config proxy (forged ++ listed) listed).2.2
      (by decide +kernel) (by decide +kernel) hfirst

end ClientIpConfig

end ClientAddr
