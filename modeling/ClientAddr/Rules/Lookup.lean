import ClientAddr.Rules.Merge

/-! # Looking up a built config

The stored rules are disjoint and sorted, so the one rule probed by the search
is the only one that can contain the address. The lookup therefore agrees with a
scan over the rules as they were added.
-/

namespace ClientAddr

open Laminar TrustedProxyRule

variable {rules : List TrustedProxyRule} {order : List ChainHeader} {x : IpAddr}
  {r : TrustedProxyRule} {m : TrustedProxyMetadata}

namespace ClientIpConfig

theorem ruleFor_eq_some_iff (hs : Separated TrustedProxyRule.span rules) :
    ruleFor ⟨.trustedProxies rules order⟩ x = some r ↔ r ∈ rules ∧ canonicalIp x ∈ r.span := by
  have hsome : ruleFor ⟨.trustedProxies rules order⟩ x = some r ↔
      ∃ i, checkedSub (floorIndex TrustedProxyRule.span (canonicalIp x) rules) 1 = some i ∧
        rules[i]? = some r ∧ r.cidr.contains (canonicalIp x) = true := by
    simp only [ruleFor, Option.bind_eq_bind, Option.bind_eq_some_iff, Option.ite_none_right_eq_some,
      Option.some.injEq]
    constructor
    · rintro ⟨i, hi, r', hr, hc, rfl⟩
      exact ⟨i, hi, hr, hc⟩
    · rintro ⟨i, hi, hr, hc⟩
      exact ⟨i, hi, r, hr, hc, rfl⟩
  rw [hsome]
  constructor
  · rintro ⟨i, -, hr, hc⟩
    exact ⟨List.mem_of_getElem? hr, IpCidr.contains_iff.mp hc⟩
  · rintro ⟨hr, hx⟩
    obtain ⟨hpos, hi⟩ := hs.getElem?_floorIndex_pred hr hx
    exact ⟨_, checkedSub_eq_some.mpr (by omega), hi, IpCidr.contains_iff.mpr hx⟩

@[simp] theorem ruleFor_canonicalIp (config : ClientIpConfig) (x : IpAddr) :
    config.ruleFor (canonicalIp x) = config.ruleFor x := by
  unfold ruleFor
  simp only [canonicalIp_canonicalIp]

@[simp] theorem isTrustedProxy_canonicalIp (config : ClientIpConfig) (x : IpAddr) :
    config.isTrustedProxy (canonicalIp x) = config.isTrustedProxy x := by
  unfold isTrustedProxy
  simp only [ruleFor_canonicalIp]

end ClientIpConfig

namespace TrustedProxiesBuilder

variable {env : BuildEnv} {builder : TrustedProxiesBuilder} {config : ClientIpConfig}

/-- What a successful build stores. -/
structure Stores (builder : TrustedProxiesBuilder) (rules : List TrustedProxyRule) : Prop where
  separated : Separated TrustedProxyRule.span rules
  coverage : ∀ m, coverage rules m = ClientAddr.coverage builder.canonicalRules m

theorem build_stores (hk : env.combiners.Exact) (hb : builder.build env = .ok config) :
    ∃ rules, config = ⟨.trustedProxies rules builder.chainHeaderOrder⟩ ∧ Stores builder rules := by
  obtain ⟨he, rfl⟩ := build_eq_ok_iff.mp hb
  refine ⟨_, rfl, ⟨separated_of_sorted (pairwise_sortByKey _ _) ?_, fun m => ?_⟩⟩
  · have hd := pairwise_mergeRules hk (ensure_eq_ok_iff.mp he)
    exact hd.perm (perm_sortByKey _ _).symm fun h hm => h hm.symm
  · rw [coverage_congr fun r => mem_sortByKey _, coverage_mergeRules hk]

theorem mem_coverage_canonicalRules :
    canonicalIp x ∈ coverage builder.canonicalRules m ↔
      ∃ r ∈ builder.rules, r.metadata = m ∧ Covers r x := by
  constructor
  · rintro ⟨r, hr, rfl, hx⟩
    obtain ⟨s, hs, rfl⟩ := mem_canonicalRules.mp hr
    exact ⟨s, hs, rfl, IpCidr.contains_iff.mpr hx⟩
  · rintro ⟨s, hs, rfl, hx⟩
    exact ⟨_, mem_canonicalRules.mpr ⟨s, hs, rfl⟩, rfl, IpCidr.contains_iff.mp hx⟩

/-- The stored rule of an address and the added rules that cover it have the same metadata. -/
theorem exists_ruleFor_iff (hk : env.combiners.Exact) (hb : builder.build env = .ok config) :
    (∃ r, config.ruleFor x = some r ∧ r.metadata = m) ↔
      ∃ r ∈ builder.rules, r.metadata = m ∧ Covers r x := by
  obtain ⟨rules, rfl, hs⟩ := build_stores hk hb
  rw [← mem_coverage_canonicalRules, ← hs.coverage m]
  simp only [ClientIpConfig.ruleFor_eq_some_iff hs.separated]
  constructor
  · rintro ⟨r, ⟨hr, hx⟩, rfl⟩
    exact ⟨r, hr, rfl, hx⟩
  · rintro ⟨r, hr, rfl, hx⟩
    exact ⟨r, ⟨hr, hx⟩, rfl⟩

theorem isTrustedProxy_iff (hk : env.combiners.Exact) (hb : builder.build env = .ok config) :
    config.isTrustedProxy x = true ↔ ∃ r ∈ builder.rules, Covers r x := by
  have hsome : config.isTrustedProxy x = true ↔ ∃ r, config.ruleFor x = some r := by
    obtain ⟨rules, rfl, -⟩ := build_stores hk hb
    exact Option.isSome_iff_exists
  rw [hsome]
  constructor
  · rintro ⟨r, hr⟩
    obtain ⟨s, hs, -, hc⟩ := (exists_ruleFor_iff hk hb).mp ⟨r, hr, rfl⟩
    exact ⟨s, hs, hc⟩
  · rintro ⟨s, hs, hc⟩
    obtain ⟨r, hr, -⟩ := (exists_ruleFor_iff hk hb).mpr ⟨s, hs, rfl, hc⟩
    exact ⟨r, hr⟩

theorem isTrustedProxy_eq_false_iff (hk : env.combiners.Exact)
    (hb : builder.build env = .ok config) :
    config.isTrustedProxy x = false ↔ ∀ r ∈ builder.rules, ¬ Covers r x := by
  rw [← Bool.not_eq_true, isTrustedProxy_iff hk hb]
  simp only [not_exists, not_and]

theorem ruleFor_eq_none_iff (hk : env.combiners.Exact) (hb : builder.build env = .ok config) :
    config.ruleFor x = none ↔ ∀ r ∈ builder.rules, ¬ Covers r x := by
  rw [← isTrustedProxy_eq_false_iff hk hb]
  obtain ⟨rules, rfl, -⟩ := build_stores hk hb
  exact Option.isNone_iff_eq_none.symm.trans Option.isSome_eq_false_iff.symm

/-- The search in a built config answers as a linear scan over the rules as they were added. -/
theorem ruleFor_agrees_with_scan (env : BuildEnv) (builder : TrustedProxiesBuilder)
    (config : ClientIpConfig) (hk : env.combiners.Exact) (hb : builder.build env = .ok config)
    (x : IpAddr) :
    (∀ m, (∃ r, config.ruleFor x = some r ∧ r.metadata = m) ↔
      ∃ r ∈ builder.rules, r.metadata = m ∧ Covers r x) ∧
    (config.ruleFor x = none ↔ ∀ r ∈ builder.rules, ¬ Covers r x) ∧
    (config.isTrustedProxy x = false ↔ ∀ r ∈ builder.rules, ¬ Covers r x) :=
  ⟨fun _ => exists_ruleFor_iff hk hb, ruleFor_eq_none_iff hk hb, isTrustedProxy_eq_false_iff hk hb⟩

/-- The assertion on the merged rules holds whenever the check before the merge did. -/
theorem ensure_mergeRules {rules : List TrustedProxyRule} (hk : env.combiners.Exact)
    (he : ensureNoCrossMetadataOverlap rules = .ok ()) :
    ensureNoCrossMetadataOverlap (mergeRulesByMetadata env rules) = .ok () := by
  have hd := pairwise_mergeRules hk (ensure_eq_ok_iff.mp he)
  have : Std.Symm fun r s : TrustedProxyRule => ¬ Meets r.span s.span := ⟨fun _ _ h hm => h hm.symm⟩
  rw [ensure_eq_ok_iff]
  intro r hr s hs hm
  by_cases hrs : r = s
  · rw [hrs]
  · exact absurd hm (hd.forall hr hs hrs)

def sampleEnv : BuildEnv := ⟨normalCombiners, insertionOrder⟩

/-- Two halves of 10.0.0.0/24, one of them written as an IPv4-mapped network, and 2001:db8::/32. -/
def sampleBuilder : TrustedProxiesBuilder where
  rules := [.withXRealIp (.v6 ⟨(Ipv4Addr.new 10 0 0 128).toIpv6Mapped, 121, by decide, by decide⟩),
    .new (.v6 ⟨⟨0x20010db8 * 2 ^ 96, by decide⟩, 32, by decide, by decide⟩),
    .withXRealIp (.v4 ⟨Ipv4Addr.new 10 0 0 0, 25, by decide, by decide⟩)]

def sampleRules : List TrustedProxyRule :=
  [.withXRealIp (.v4 ⟨Ipv4Addr.new 10 0 0 0, 24, by decide, by decide⟩),
    .new (.v6 ⟨⟨0x20010db8 * 2 ^ 96, by decide⟩, 32, by decide, by decide⟩)]

def sampleConfig : ClientIpConfig := ⟨.trustedProxies sampleRules defaultChainHeaderOrder⟩

def sampleProxy : IpAddr := .v4 (Ipv4Addr.new 10 0 0 7)

def sampleClient : IpAddr := .v4 (Ipv4Addr.new 203 0 113 7)

theorem build_sample : sampleBuilder.build sampleEnv = .ok sampleConfig := by decide +kernel

theorem ruleFor_sample_agrees_with_scan :
    ∃ r ∈ sampleBuilder.rules, r.metadata = .withClientIpHeader ⟨"x-real-ip".toList, by decide⟩ ∧
      Covers r sampleProxy :=
  ((ruleFor_agrees_with_scan sampleEnv sampleBuilder sampleConfig normalCombiners_exact build_sample
    sampleProxy).1 _).mp ⟨sampleRules.head (by decide), by decide +kernel, rfl⟩

/--
Rules that pass the check before the merge pass it after the merge as well. The rules of the config
are disjoint, every one ends before the next one starts, and the test of the search holds for those
in front of the partition point and for no other.
-/
theorem built_rules_separated (env : BuildEnv) (builder : TrustedProxiesBuilder)
    (hk : env.combiners.Exact)
    (he : ensureNoCrossMetadataOverlap builder.canonicalRules = .ok ()) :
    ensureNoCrossMetadataOverlap (mergeRulesByMetadata env builder.canonicalRules) = .ok () ∧
    ∃ rules, builder.build env = .ok ⟨.trustedProxies rules builder.chainHeaderOrder⟩ ∧
      (rules.Pairwise fun r s =>
        ∀ x, ¬ (r.cidr.contains x = true ∧ s.cidr.contains x = true)) ∧
      (rules.Pairwise fun r s => r.cidr.firstAddress < s.cidr.firstAddress ∧
        r.cidr.lastAddress < s.cidr.firstAddress) ∧
      ∀ ip, ∃ below above, rules = below ++ above ∧ (∀ r ∈ below, r.cidr.firstAddress ≤ ip) ∧
        (∀ r ∈ above, ¬ r.cidr.firstAddress ≤ ip) ∧
        partitionPoint (fun rule => decide (rule.cidr.firstAddress ≤ ip)) rules =
          below.length := by
  refine ⟨ensure_mergeRules hk he, ?_⟩
  have hb : builder.build env = .ok _ := build_eq_ok_iff.mpr ⟨he, rfl⟩
  obtain ⟨rules, hc, hs⟩ := build_stores hk hb
  refine ⟨rules, hc ▸ hb, ?_, ?_, hs.separated.exists_floorIndex⟩
  · refine hs.separated.imp fun {r s} hlt x hx => ?_
    have hr := IpCidr.contains_iff.mp hx.1
    have hs := IpCidr.contains_iff.mp hx.2
    exact absurd (hs.1.trans hr.2) (not_le.mpr hlt)
  · exact (hs.separated.fst_lt.and hs.separated).imp id

theorem sampleRules_separated :
    ensureNoCrossMetadataOverlap (mergeRulesByMetadata sampleEnv sampleBuilder.canonicalRules) =
      .ok () :=
  (built_rules_separated sampleEnv sampleBuilder normalCombiners_exact
    (by decide +kernel)).1

end TrustedProxiesBuilder

end ClientAddr
