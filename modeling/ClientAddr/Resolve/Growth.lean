import ClientAddr.Resolve.Scan

/-! # Rules added to a config

More rules mean more trusted proxies, so a scan may walk further. An answer changes
only where an added rule covers the address of the old one.
-/

namespace ClientAddr

open Text

theorem chainAnswer_of_carried {headers : HeaderMap} {order : List ChainHeader} {ip : IpAddr}
    {pick : List ChainEntry → Option IpAddr} {entries : List ChainEntry}
    (he : entries ∈ carriedEntries headers order) (hp : pick entries = some ip) :
    ∃ source, chainAnswer headers order pick = some ⟨ip, source⟩ := by
  obtain ⟨h, hf, hv⟩ := Option.bind_eq_some_iff.mp he
  exact ⟨.chainHeader h.asHeaderName, by rw [chainAnswer, hf, Option.bind_some, hv,
    Option.bind_some, hp, Option.map_some]⟩

theorem resolveFrom_congr_chain {headers : HeaderMap} {order order' : List ChainHeader}
    {pick pick' : List ChainEntry → Option IpAddr} {socketIp : IpAddr} {header : Option HeaderName}
    (h : configuredIp headers header = none →
      chainAnswer headers order pick = chainAnswer headers order' pick') :
    resolveFrom headers socketIp header order pick =
      resolveFrom headers socketIp header order' pick' := by
  cases hc : configuredIp headers header with
  | some ip =>
    have answer : ∀ order pick, ∃ n ∈ header,
        resolveFrom headers socketIp header order pick = ⟨ip, .configuredHeader n⟩ := fun _ _ =>
      resolveFrom_of_configured hc
    obtain ⟨n, hn, hres⟩ := answer order pick
    obtain ⟨n', hn', hres'⟩ := answer order' pick'
    rw [hres, hres', Option.mem_unique hn hn']
  | none => rw [resolveFrom_of_unusable hc, resolveFrom_of_unusable hc, h hc]

namespace TrustedProxiesBuilder

variable {env env' : BuildEnv} {builder : TrustedProxiesBuilder} {config config' : ClientIpConfig}
  {extra : List TrustedProxyRule} {headers : HeaderMap} {peer x : IpAddr}
  {entries : List ChainEntry}

instance (r : TrustedProxyRule) (x : IpAddr) : Decidable (Covers r x) :=
  inferInstanceAs (Decidable (_ = true))

theorem covers_canonicalIp {r : TrustedProxyRule} : Covers r (canonicalIp x) ↔ Covers r x := by
  unfold Covers
  rw [canonicalIp_canonicalIp]

/-- Both configs of a build and of a build with more rules. -/
structure Grows (env env' : BuildEnv) (builder : TrustedProxiesBuilder)
    (extra : List TrustedProxyRule) (config config' : ClientIpConfig) : Prop where
  exact : env.combiners.Exact
  exact' : env'.combiners.Exact
  built : builder.build env = .ok config
  built' : (builder.proxies extra).build env' = .ok config'

namespace Grows

theorem isTrustedProxy_iff (h : Grows env env' builder extra config config') :
    config'.isTrustedProxy x = true ↔ config.isTrustedProxy x = true ∨ ∃ r ∈ extra, Covers r x := by
  rw [TrustedProxiesBuilder.isTrustedProxy_iff h.exact' h.built',
    TrustedProxiesBuilder.isTrustedProxy_iff h.exact h.built]
  simp only [proxies, List.mem_append, or_and_right, exists_or]

theorem isTrustedProxy_eq_false (h : Grows env env' builder extra config config')
    (hx : config.isTrustedProxy x = false) (hc : ∀ r ∈ extra, ¬ Covers r x) :
    config'.isTrustedProxy x = false := by
  rw [← Bool.not_eq_true, h.isTrustedProxy_iff, not_or]
  exact ⟨Bool.not_eq_true _ ▸ hx, fun ⟨r, hr, hrx⟩ => hc r hr hrx⟩

theorem trustedHop_of (h : Grows env env' builder extra config config') {e : ChainEntry}
    (he : trustedHop config e = true) : trustedHop config' e = true := by
  cases e with
  | Ip ip => exact h.isTrustedProxy_iff.mpr (Or.inl he)
  | Opaque => cases he

/-- The scan stops where it stopped before, unless an added rule covers the hop there. -/
theorem firstNonTrustedFromRight_eq (h : Grows env env' builder extra config config')
    (hc : ∀ ip ∈ firstNonTrustedFromRight config entries, ∀ r ∈ extra, ¬ Covers r ip) :
    firstNonTrustedFromRight config' entries = firstNonTrustedFromRight config entries := by
  cases hs : firstNonTrustedFromRight config entries with
  | some ip =>
    obtain ⟨hn, l, r, rfl, hr⟩ := firstNonTrustedFromRight_eq_some.mp hs
    exact firstNonTrustedFromRight_eq_some.mpr ⟨h.isTrustedProxy_eq_false hn (hc ip hs), l, r, rfl,
      fun e he => h.trustedHop_of (hr e he)⟩
  | none =>
    rw [firstNonTrustedFromRight_eq_none] at hs ⊢
    rcases hs with hall | ⟨l, r, rfl, hr⟩
    · exact Or.inl fun e he => h.trustedHop_of (hall e he)
    · exact Or.inr ⟨l, r, rfl, fun e he => h.trustedHop_of (hr e he)⟩

theorem exists_rule (h : Grows env env' builder extra config config') {rule : TrustedProxyRule}
    (hr : config.ruleFor peer = some rule) :
    ∃ rule', config'.ruleFor peer = some rule' ∧ rule'.metadata = rule.metadata := by
  obtain ⟨r, hm, hmeta, hcov⟩ := (exists_ruleFor_iff h.exact h.built).mp ⟨rule, hr, rfl⟩
  exact (exists_ruleFor_iff h.exact' h.built').mpr
    ⟨r, List.mem_append_left extra hm, hmeta, hcov⟩

end Grows

/-- An answer that an added rule does not cover stays the answer. -/
theorem added_rules_keep_answer (env env' : BuildEnv) (builder : TrustedProxiesBuilder)
    (extra : List TrustedProxyRule) (config config' : ClientIpConfig)
    (h : Grows env env' builder extra config config') (headers : HeaderMap) (peer : IpAddr)
    (hc : ∀ r ∈ extra, ¬ Covers r (config.resolveClientIp headers peer).ip) :
    config'.resolveClientIp headers peer = config.resolveClientIp headers peer := by
  obtain ⟨rules, hconfig, -⟩ := build_stores h.exact h.built
  obtain ⟨rules', hconfig', -⟩ := build_stores h.exact' h.built'
  have ht : config.trust = .trustedProxies rules builder.chainHeaderOrder := by rw [hconfig]
  have ht' : config'.trust = .trustedProxies rules' builder.chainHeaderOrder := by
    rw [hconfig']
    rfl
  cases hr : config.ruleFor peer with
  | none =>
    rw [ClientIpConfig.resolveClientIp_of_not_covered ht hr] at hc ⊢
    apply ClientIpConfig.resolveClientIp_of_not_covered ht'
    have hold := (ruleFor_eq_none_iff h.exact h.built).mp hr
    rw [ruleFor_eq_none_iff h.exact' h.built']
    intro r hm
    rcases List.mem_append.mp hm with hm | hm
    · exact hold r hm
    · exact fun hcov => hc r hm (covers_canonicalIp.mpr hcov)
  | some rule =>
    obtain ⟨rule', hr', hmeta⟩ := h.exists_rule hr
    have hheader : rule'.clientIpHeader = rule.clientIpHeader := by
      unfold TrustedProxyRule.clientIpHeader
      rw [hmeta]
    rw [ClientIpConfig.resolveClientIp_of_ruleFor ht hr] at hc ⊢
    rw [ClientIpConfig.resolveClientIp_of_ruleFor ht' hr', hheader]
    apply resolveFrom_congr_chain
    intro hi
    rw [resolveFrom_of_unusable hi] at hc
    apply chainAnswer_congr
    intro entries he
    apply h.firstNonTrustedFromRight_eq
    intro ip hip
    obtain ⟨source, ha⟩ := chainAnswer_of_carried he hip
    rwa [ha] at hc

/-- Every IPv6 address as a plain proxy, which joins one rule of the sample. -/
def addedRule : TrustedProxyRule := .new (.v6 (Cidr.all 128))

/-- The sample still answers with 203.0.113.7 when every IPv6 address is trusted as well. -/
theorem sample_grows : ∃ config',
    (sampleBuilder.proxies [addedRule]).build sampleEnv = .ok config' ∧
    config'.resolveClientIp (.ofLine ChainHeader.xForwardedFor.name "203.0.113.7".toList
      (by decide)) sampleProxy = ⟨sampleClient, .chainHeader ChainHeader.xForwardedFor.name⟩ := by
  have hok : ((sampleBuilder.proxies [addedRule]).build sampleEnv).isOk = true := by decide +kernel
  cases hb : (sampleBuilder.proxies [addedRule]).build sampleEnv with
  | error e =>
    rw [hb] at hok
    cases hok
  | ok config' =>
    have hkeep := added_rules_keep_answer sampleEnv sampleEnv sampleBuilder [addedRule] sampleConfig
      config' ⟨normalCombiners_exact, normalCombiners_exact, build_sample, hb⟩
      (.ofLine ChainHeader.xForwardedFor.name "203.0.113.7".toList (by decide)) sampleProxy
      (by decide +kernel)
    exact ⟨config', rfl, hkeep.trans (by decide +kernel)⟩

end TrustedProxiesBuilder

end ClientAddr
