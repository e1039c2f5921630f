import ClientAddr.Resolve.Choice

/-! # What answers tell about rules

Two builds that try the same chain headers answer every request alike exactly when
their rules give every address the same policies. The exception are rules under which
no header is read: those that trust no address, and those that trust every address
and name no client IP header.
-/

namespace ClientAddr

open Text

theorem configuredIp_of_chain_source {headers : HeaderMap} {socketIp : IpAddr}
    {header : Option HeaderName} {order : List ChainHeader}
    {pick : List ChainEntry → Option IpAddr} {n : HeaderName}
    (hs : (resolveFrom headers socketIp header order pick).source = .chainHeader n) :
    configuredIp headers header = none := by
  rw [Option.eq_none_iff_forall_ne_some]
  intro ip hc
  obtain ⟨m, -, hres⟩ : ∃ m ∈ header, resolveFrom headers socketIp header order pick =
    ⟨ip, .configuredHeader m⟩ := resolveFrom_of_configured hc
  rw [hres] at hs
  cases hs

namespace ClientIpConfig

variable {config config' : ClientIpConfig} {rules rules' : List TrustedProxyRule}
  {order order' : List ChainHeader} {headers : HeaderMap} {peer x : IpAddr} {h : ChainHeader}
  {n : HeaderName}

theorem clientIpHeaderFor_of_source
    (hs : (config.resolveClientIp headers peer).source = .configuredHeader n) :
    config.clientIpHeaderFor peer = some n := by
  rcases config.resolveClientIp_cases peer with hr | ⟨pick, hr⟩
  · rw [hr] at hs
    cases hs
  · rw [hr] at hs
    cases hc : configuredIp headers (config.clientIpHeaderFor peer) with
    | some ip =>
      obtain ⟨m, hm, hres⟩ : ∃ m ∈ config.clientIpHeaderFor peer, resolveFrom headers
        (canonicalIp peer) (config.clientIpHeaderFor peer) config.chainHeaderOrder pick =
          ⟨ip, .configuredHeader m⟩ := resolveFrom_of_configured hc
      rw [hres] at hs
      obtain rfl := ClientIpSource.configuredHeader.inj hs
      exact hm
    | none =>
      rw [resolveFrom_of_unusable hc] at hs
      cases ha : chainAnswer headers config.chainHeaderOrder pick with
      | none =>
        rw [ha] at hs
        cases hs
      | some answer =>
        obtain ⟨entries, -, -, g, -, hg⟩ := chainAnswer_eq_some ha
        rw [ha, Option.getD_some, hg] at hs
        cases hs

theorem clientIpHeaderFor_eq_of_same
    (hs : ∀ headers, config.resolveClientIp headers peer = config'.resolveClientIp headers peer) :
    config.clientIpHeaderFor peer = config'.clientIpHeaderFor peer := by
  have half : ∀ {c c' : ClientIpConfig},
      (∀ headers, c.resolveClientIp headers peer = c'.resolveClientIp headers peer) →
      ∀ n, c.clientIpHeaderFor peer = some n → c'.clientIpHeaderFor peer = some n := by
    intro c c' hs n hn
    obtain ⟨headers, hc⟩ := exists_configuredIp n (canonical_canonicalIp peer)
    rw [← hn] at hc
    obtain ⟨m, hm, hres⟩ := resolveClientIp_of_configured hc
    obtain rfl := Option.mem_unique hm hn
    apply clientIpHeaderFor_of_source
    rw [← hs headers, hres]
  ext n
  constructor
  · exact half hs n
  · exact half (fun headers => (hs headers).symm) n

theorem of_chain_source (ht : config.trust = .trustedProxies rules order)
    (hs : (config.resolveClientIp headers peer).source = .chainHeader n) :
    config.isTrustedProxy peer = true ∧
      config.isTrustedProxy (config.resolveClientIp headers peer).ip = false := by
  cases hr : config.ruleFor peer with
  | none =>
    rw [resolveClientIp_of_not_covered ht hr] at hs
    cases hs
  | some rule =>
    refine ⟨by simp only [isTrustedProxy, ht, hr, Option.isSome_some], ?_⟩
    rw [resolveClientIp_of_ruleFor ht hr] at hs ⊢
    have hc := configuredIp_of_chain_source hs
    rw [resolveFrom_of_unusable hc] at hs ⊢
    exact (chainAnswer_scan_eq_some (chainAnswer_of_source hs)).1

/-- If a config has a trusted and an untrusted address, answers tell them from each other. -/
theorem isTrustedProxy_of_same (ht : config.trust = .trustedProxies rules (h :: order))
    (ht' : config'.trust = .trustedProxies rules' order')
    (hs : ∀ headers, config.resolveClientIp headers peer = config'.resolveClientIp headers peer)
    (hp : config.isTrustedProxy peer = true) (hx : config.isTrustedProxy x = false) :
    config'.isTrustedProxy peer = true ∧ config'.isTrustedProxy x = false := by
  simp only [isTrustedProxy, ht] at hp
  obtain ⟨rule, hr⟩ := Option.isSome_iff_exists.mp hp
  rw [← isTrustedProxy_canonicalIp] at hx
  obtain ⟨headers, ha⟩ := exists_scan_answer ht hr (canonical_canonicalIp x) hx
  rw [hs headers] at ha
  have h := of_chain_source ht' (congrArg ClientIp.source ha)
  rwa [ha, isTrustedProxy_canonicalIp] at h

theorem trusts_none_of_same (ht : config.trust = .trustedProxies rules (h :: order))
    (ht' : config'.trust = .trustedProxies rules' order')
    (hs : ∀ headers peer,
      config.resolveClientIp headers peer = config'.resolveClientIp headers peer)
    (hx : config.isTrustedProxy x = false) (ha : ∀ x, config'.isTrustedProxy x = true)
    (p : IpAddr) : config.isTrustedProxy p = false := by
  by_contra hp
  rw [Bool.not_eq_false] at hp
  have hx' := (isTrustedProxy_of_same ht ht' (fun headers => hs headers p) hp hx).2
  rw [ha] at hx'
  cases hx'

/-- The rule of an address, in terms of what answers tell about it. -/
theorem metadata_eq (ht : config.trust = .trustedProxies rules order)
    (ht' : config'.trust = .trustedProxies rules' order')
    (hp : config.isTrustedProxy x = config'.isTrustedProxy x)
    (hh : config.clientIpHeaderFor x = config'.clientIpHeaderFor x) :
    (config.ruleFor x).map TrustedProxyRule.metadata =
      (config'.ruleFor x).map TrustedProxyRule.metadata := by
  simp only [isTrustedProxy, ht, ht'] at hp
  simp only [clientIpHeaderFor, ht, ht'] at hh
  cases hr : config.ruleFor x with
  | none =>
    rw [hr, Option.isSome_none, eq_comm, Option.isSome_eq_false_iff,
      Option.isNone_iff_eq_none] at hp
    rw [hp]
  | some rule =>
    rw [hr] at hp
    obtain ⟨rule', hr'⟩ := Option.isSome_iff_exists.mp hp.symm
    rw [hr, hr'] at hh
    rw [hr']
    exact congrArg (fun header => some (TrustedProxyMetadata.mk header)) hh

end ClientIpConfig

namespace TrustedProxiesBuilder

variable {env env' : BuildEnv} {builder builder' : TrustedProxiesBuilder}
  {config config' : ClientIpConfig} {x : IpAddr} {m : TrustedProxyMetadata}

/-- The metadata of the rules that cover an address. -/
def policies (builder : TrustedProxiesBuilder) (x : IpAddr) : Set TrustedProxyMetadata :=
  {m | ∃ r ∈ builder.rules, r.metadata = m ∧ Covers r x}

/-- No header is read under these rules. -/
def Deaf (builder : TrustedProxiesBuilder) : Prop :=
  (∀ x, builder.policies x = ∅) ∨ ∀ x, builder.policies x = {.none}

theorem mem_policies (hk : env.combiners.Exact) (hb : builder.build env = .ok config) :
    m ∈ builder.policies x ↔ (config.ruleFor x).map TrustedProxyRule.metadata = some m := by
  rw [Option.map_eq_some_iff]
  exact (exists_ruleFor_iff hk hb).symm

theorem policies_eq_iff (hk : env.combiners.Exact) (hb : builder.build env = .ok config)
    (hk' : env'.combiners.Exact) (hb' : builder'.build env' = .ok config') :
    builder.policies x = builder'.policies x ↔
      (config.ruleFor x).map TrustedProxyRule.metadata =
        (config'.ruleFor x).map TrustedProxyRule.metadata := by
  simp only [Set.ext_iff, mem_policies hk hb, mem_policies hk' hb']
  exact Option.ext_iff.symm

theorem isTrustedProxy_iff_policies (hk : env.combiners.Exact)
    (hb : builder.build env = .ok config) :
    config.isTrustedProxy x = true ↔ (builder.policies x).Nonempty := by
  rw [isTrustedProxy_iff hk hb]
  constructor
  · rintro ⟨r, hr, hx⟩
    exact ⟨r.metadata, r, hr, rfl, hx⟩
  · rintro ⟨m, r, hr, -, hx⟩
    exact ⟨r, hr, hx⟩

theorem Deaf.answer_socket (hd : builder.Deaf) (hk : env.combiners.Exact)
    (hb : builder.build env = .ok config) (headers : HeaderMap) (peer : IpAddr) :
    config.resolveClientIp headers peer = ⟨canonicalIp peer, .socket⟩ := by
  obtain ⟨rules, hc, -⟩ := build_stores hk hb
  have ht : config.trust = .trustedProxies rules builder.chainHeaderOrder := by rw [hc]
  rcases hd with hd | hd
  · apply ClientIpConfig.resolveClientIp_of_not_covered ht
    rw [ruleFor_eq_none_iff hk hb]
    intro r hr hx
    have hm : r.metadata ∈ builder.policies peer := ⟨r, hr, rfl, hx⟩
    rw [hd peer] at hm
    exact hm
  · have hall : ∀ x, config.isTrustedProxy x = true := fun x => by
      rw [isTrustedProxy_iff_policies hk hb, hd x]
      exact Set.singleton_nonempty _
    obtain ⟨rule, hr, hm⟩ := Option.map_eq_some_iff.mp
      ((mem_policies hk hb).mp (by rw [hd peer]; exact rfl))
    have hn : rule.clientIpHeader = none := by rw [TrustedProxyRule.clientIpHeader, hm]; rfl
    rw [ClientIpConfig.resolveClientIp_of_ruleFor ht hr, hn, resolveFrom_of_unusable rfl]
    cases ha : chainAnswer headers builder.chainHeaderOrder (firstNonTrustedFromRight config) with
    | none => rfl
    | some answer =>
      have := (chainAnswer_scan_eq_some ha).1
      rw [hall] at this
      cases this

theorem deaf_of_trust (hk : env.combiners.Exact) (hk' : env'.combiners.Exact)
    (hb : builder.build env = .ok config) (hb' : builder'.build env' = .ok config')
    (hh : ∀ x, config.clientIpHeaderFor x = config'.clientIpHeaderFor x)
    (hn : ∀ x, config.isTrustedProxy x = false) (ha : ∀ x, config'.isTrustedProxy x = true) :
    builder.Deaf ∧ builder'.Deaf := by
  refine ⟨Or.inl fun x => ?_, Or.inr fun x => ?_⟩
  · rw [← Set.not_nonempty_iff_eq_empty, ← isTrustedProxy_iff_policies hk hb, hn]
    decide
  · obtain ⟨rules, rfl, -⟩ := build_stores hk hb
    obtain ⟨rules', rfl, -⟩ := build_stores hk' hb'
    obtain ⟨rule', hr'⟩ := Option.isSome_iff_exists.mp (ha x)
    have hr := Option.isNone_iff_eq_none.mp (Option.isSome_eq_false_iff.mp (hn x))
    have hnone : rule'.metadata.clientIpHeader = none := by
      have h := hh x
      simp only [ClientIpConfig.clientIpHeaderFor, hr, hr', Option.bind_none, Option.bind_some] at h
      exact h.symm
    ext m
    rw [mem_policies hk' hb', hr', Option.map_some, Option.some.injEq, Set.mem_singleton_iff,
      eq_comm]
    exact iff_of_eq (congrArg (m = TrustedProxyMetadata.mk ·) hnone)

theorem policies_eq_of_trust (hk : env.combiners.Exact) (hk' : env'.combiners.Exact)
    (hb : builder.build env = .ok config) (hb' : builder'.build env' = .ok config')
    (hp : config.isTrustedProxy x = config'.isTrustedProxy x)
    (hh : config.clientIpHeaderFor x = config'.clientIpHeaderFor x) :
    builder.policies x = builder'.policies x := by
  rw [policies_eq_iff hk hb hk' hb']
  obtain ⟨rules, rfl, -⟩ := build_stores hk hb
  obtain ⟨rules', rfl, -⟩ := build_stores hk' hb'
  exact ClientIpConfig.metadata_eq rfl rfl hp hh

/--
Two builds that try the same chain headers answer every request alike exactly when their rules give
every address the same policies, or when no header is read under either.
-/
theorem same_answers_iff (env env' : BuildEnv) (builder builder' : TrustedProxiesBuilder)
    (config config' : ClientIpConfig) (hk : env.combiners.Exact) (hk' : env'.combiners.Exact)
    (hb : builder.build env = .ok config) (hb' : builder'.build env' = .ok config')
    (ho : builder.chainHeaderOrder ≠ [])
    (ho' : builder'.chainHeaderOrder = builder.chainHeaderOrder) :
    (∀ headers peer,
      config.resolveClientIp headers peer = config'.resolveClientIp headers peer) ↔
    (∀ x, builder.policies x = builder'.policies x) ∨ (builder.Deaf ∧ builder'.Deaf) := by
  obtain ⟨h, order, ho⟩ := List.exists_cons_of_ne_nil ho
  obtain ⟨rules, hc, -⟩ := build_stores hk hb
  obtain ⟨rules', hc', -⟩ := build_stores hk' hb'
  have ht : config.trust = .trustedProxies rules (h :: order) := by rw [hc, ho]
  have ht' : config'.trust = .trustedProxies rules' (h :: order) := by rw [hc', ho', ho]
  constructor
  · intro hs
    have hh : ∀ x, config.clientIpHeaderFor x = config'.clientIpHeaderFor x := fun x =>
      ClientIpConfig.clientIpHeaderFor_eq_of_same fun headers => hs headers x
    have hs' : ∀ headers peer,
      config'.resolveClientIp headers peer = config.resolveClientIp headers peer :=
      fun headers peer => (hs headers peer).symm
    -- whether each config leaves an address that a chain header can name
    by_cases hx : ∃ x, config.isTrustedProxy x = false
    · obtain ⟨x, hx⟩ := hx
      by_cases hx' : ∃ x, config'.isTrustedProxy x = false
      · obtain ⟨x', hx'⟩ := hx'
        refine Or.inl fun p => policies_eq_of_trust hk hk' hb hb' ?_ (hh p)
        rw [Bool.eq_iff_iff]
        constructor
        · exact fun hp => (ClientIpConfig.isTrustedProxy_of_same ht ht' (hs · p) hp hx).1
        · exact fun hp => (ClientIpConfig.isTrustedProxy_of_same ht' ht (hs' · p) hp hx').1
      · simp only [not_exists, Bool.not_eq_false] at hx'
        exact Or.inr (deaf_of_trust hk hk' hb hb' hh
          (ClientIpConfig.trusts_none_of_same ht ht' hs hx hx') hx')
    · simp only [not_exists, Bool.not_eq_false] at hx
      by_cases hx' : ∃ x, config'.isTrustedProxy x = false
      · obtain ⟨x', hx'⟩ := hx'
        exact Or.inr (deaf_of_trust hk' hk hb' hb (fun x => (hh x).symm)
          (ClientIpConfig.trusts_none_of_same ht' ht hs' hx' hx) hx).symm
      · simp only [not_exists, Bool.not_eq_false] at hx'
        exact Or.inl fun p =>
          policies_eq_of_trust hk hk' hb hb' (by rw [hx, hx']) (hh p)
  · rintro (hp | ⟨hd, hd'⟩) headers peer
    · simp only [policies_eq_iff hk hb hk' hb'] at hp
      rw [hc, hc', ho'] at hp ⊢
      exact resolveClientIp_congr_rules hp
    · rw [hd.answer_socket hk hb, hd'.answer_socket hk' hb']

def everyProxy : TrustedProxiesBuilder where
  rules := [.new (.v4 (Cidr.all 32)), .new (.v6 (Cidr.all 128))]

theorem policies_everyProxy (x : IpAddr) : everyProxy.policies x = {.none} := by
  have hm : ∀ r ∈ everyProxy.rules, r.metadata = .none := by decide
  have hx : ∃ r ∈ everyProxy.rules, Covers r x := by
    unfold Covers
    cases canonicalIp x with
    | v4 a =>
      refine ⟨_, List.mem_cons_self, ?_⟩
      exact decide_eq_true (Nat.div_eq_of_lt a.isLt)
    | v6 a =>
      refine ⟨_, List.mem_cons_of_mem _ List.mem_cons_self, ?_⟩
      exact decide_eq_true (Nat.div_eq_of_lt a.isLt)
  ext m
  constructor
  · rintro ⟨r, hr, rfl, -⟩
    exact hm r hr
  · rintro rfl
    obtain ⟨r, hr, hx⟩ := hx
    exact ⟨r, hr, hm r hr, hx⟩

/-- To trust every address as a plain proxy and to trust none is the same. -/
theorem sample_same_answers :
    ClientIpConfig.resolveClientIp ⟨.trustedProxies everyProxy.rules defaultChainHeaderOrder⟩ =
      ClientIpConfig.resolveClientIp ⟨.trustedProxies [] defaultChainHeaderOrder⟩ := by
  funext headers peer
  refine (same_answers_iff sampleEnv sampleEnv everyProxy {} _ _ normalCombiners_exact
    normalCombiners_exact (by decide +kernel) (by decide +kernel) (by decide) rfl).mpr
    (Or.inr ⟨Or.inr policies_everyProxy, Or.inl fun x => ?_⟩) headers peer
  simp [policies]

end TrustedProxiesBuilder

end ClientAddr
