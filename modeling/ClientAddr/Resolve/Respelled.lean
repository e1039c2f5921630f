import ClientAddr.Headers.Respelled
import ClientAddr.Resolve.Canonical
import ClientAddr.Resolve.Congruence

/-! # Requests written another way

Any IPv4 address of a request or of its config may be written in IPv4-mapped
form. Each such step keeps the answer, so any number of them does.
-/

namespace ClientAddr

open Net Text

section Requests

structure Request where
  config : ClientIpConfig
  headers : HeaderMap
  peer : IpAddr

def Request.answer (q : Request) : ClientIp := q.config.resolveClientIp q.headers q.peer

/--
One IPv4 address is written in IPv4-mapped form: the socket peer, the last value of the client IP
header, a hop of a chain header, or the network of a trusted proxy rule.
-/
inductive Respelled : Request → Request → Prop
  | peer (config : ClientIpConfig) (headers : HeaderMap) (a : Ipv4Addr) :
    Respelled ⟨config, headers, .v4 a⟩ ⟨config, headers, .v6 a.toIpv6Mapped⟩
  | clientIpHeader {config : ClientIpConfig} {pre post : HeaderMap} {peer : IpAddr}
    {n : HeaderName} {v v' : HeaderValue} {raw raw' : Text} {a : Ipv4Addr} :
    config.clientIpHeaderFor peer = some n → HeaderMap.getAll post n = [] →
    v.toStr = some raw → v'.toStr = some raw' → IpAddr.parse (trim raw) = some (.v4 a) →
    trim raw' = mappedPrefix ++ trim raw →
    Respelled ⟨config, pre ++ (n, v) :: post, peer⟩ ⟨config, pre ++ (n, v') :: post, peer⟩
  | hop {config : ClientIpConfig} {pre post : HeaderMap} {peer : IpAddr} {n : HeaderName}
    {v v' : HeaderValue} {raw raw' : Text} {h : ChainHeader} :
    (config.chainHeaderOrder.find? fun h => h.asHeaderName = n) = some h →
    v.toStr = some raw → v'.toStr = some raw' → RespelledLine h.kind raw raw' →
    Respelled ⟨config, pre ++ (n, v) :: post, peer⟩ ⟨config, pre ++ (n, v') :: post, peer⟩
  | rule {env env' : BuildEnv} {l r : List TrustedProxyRule} {m : TrustedProxyMetadata}
    {d : Cidr 32} {c : Cidr 128} {order : List ChainHeader} {config config' : ClientIpConfig}
    {headers : HeaderMap} {peer : IpAddr} :
    env.combiners.Exact → env'.combiners.Exact → MappedCidr c d →
    TrustedProxiesBuilder.build env ⟨l ++ ⟨.v4 d, m⟩ :: r, order⟩ = .ok config →
    TrustedProxiesBuilder.build env' ⟨l ++ ⟨.v6 c, m⟩ :: r, order⟩ = .ok config' →
    Respelled ⟨config, headers, peer⟩ ⟨config', headers, peer⟩

variable {config config' : ClientIpConfig} {headers headers' : HeaderMap} {peer : IpAddr}
  {q q' : Request}

theorem resolveClientIp_congr
    (hc : ∀ n ∈ config.clientIpHeaderFor peer,
      configuredClientIpHeader headers n = configuredClientIpHeader headers' n)
    (ha : configuredIp headers (config.clientIpHeaderFor peer) = none → ∀ pick,
      chainAnswer headers config.chainHeaderOrder pick =
        chainAnswer headers' config.chainHeaderOrder pick) :
    config.resolveClientIp headers peer = config.resolveClientIp headers' peer := by
  rcases config.resolveClientIp_cases peer with hs | ⟨pick, hs⟩
  · rw [hs, hs]
  · rw [hs, hs]
    apply resolveFrom_congr
    · cases hn : config.clientIpHeaderFor peer with
      | none => rfl
      | some n => exact hc n hn
    · exact fun hu => ha hu pick

theorem firstNonTrusted_congr (ht : ∀ x, config.isTrustedProxy x = config'.isTrustedProxy x)
    (l : List ChainEntry) : firstNonTrusted config l = firstNonTrusted config' l := by
  induction l with
  | nil => rfl
  | cons e l ih =>
    cases e with
    | Opaque => rfl
    | Ip x => simp only [firstNonTrusted, ht, ih]

/-- A trusted-proxies config answers as its rules look up metadata. -/
theorem resolveClientIp_congr_rules {rules rules' : List TrustedProxyRule}
    {order : List ChainHeader} (hl : ∀ x,
      (ClientIpConfig.ruleFor ⟨.trustedProxies rules order⟩ x).map TrustedProxyRule.metadata =
        (ClientIpConfig.ruleFor ⟨.trustedProxies rules' order⟩ x).map TrustedProxyRule.metadata) :
    ClientIpConfig.resolveClientIp ⟨.trustedProxies rules order⟩ headers peer =
      ClientIpConfig.resolveClientIp ⟨.trustedProxies rules' order⟩ headers peer := by
  have ht : ∀ x, ClientIpConfig.isTrustedProxy ⟨.trustedProxies rules order⟩ x =
      ClientIpConfig.isTrustedProxy ⟨.trustedProxies rules' order⟩ x := by
    intro x
    have := congrArg Option.isSome (hl x)
    rw [Option.isSome_map, Option.isSome_map] at this
    exact this
  have hscan : firstNonTrustedFromRight ⟨.trustedProxies rules order⟩ =
      firstNonTrustedFromRight ⟨.trustedProxies rules' order⟩ := by
    funext entries
    exact firstNonTrusted_congr ht _
  have hp := hl peer
  cases hr : ClientIpConfig.ruleFor ⟨.trustedProxies rules order⟩ peer with
  | none =>
    rw [hr] at hp
    have hr' := Option.map_eq_none_iff.mp hp.symm
    rw [ClientIpConfig.resolveClientIp_of_not_covered rfl hr,
      ClientIpConfig.resolveClientIp_of_not_covered rfl hr']
  | some rule =>
    rw [hr] at hp
    obtain ⟨rule', hr', hm⟩ := Option.map_eq_some_iff.mp hp.symm
    have hh : rule'.clientIpHeader = rule.clientIpHeader := by
      unfold TrustedProxyRule.clientIpHeader
      rw [hm]
    rw [ClientIpConfig.resolveClientIp_of_ruleFor rfl hr,
      ClientIpConfig.resolveClientIp_of_ruleFor rfl hr', hscan, hh]

theorem resolveClientIp_last_congr {pre post : HeaderMap} {n : HeaderName} {v v' : HeaderValue}
    {raw raw' : Text} {a : Ipv4Addr} (hn : config.clientIpHeaderFor peer = some n)
    (hpost : HeaderMap.getAll post n = []) (hv : v.toStr = some raw) (hv' : v'.toStr = some raw')
    (hp : IpAddr.parse (trim raw) = some (.v4 a)) (hm : trim raw' = mappedPrefix ++ trim raw) :
    config.resolveClientIp (pre ++ (n, v) :: post) peer =
      config.resolveClientIp (pre ++ (n, v') :: post) peer := by
  have hp' := IpAddr.parse_mapped hp
  rw [← hm] at hp'
  have hc : ∀ {w t}, w.toStr = some t → (IpAddr.parse (trim t)).map canonicalIp = some (.v4 a) →
      configuredClientIpHeader (pre ++ (n, w) :: post) n = some (.v4 a) := by
    intro w t hw ht
    simp only [configuredClientIpHeader_eq, getAll_append, getAll_cons_self, hpost,
      List.getLast?_append, List.getLast?_singleton, Option.some_or, Option.bind_some, hw, ht]
  have hold := hc hv (by simp [hp, canonicalIp])
  have hnew := hc hv' (by simp [hp', canonicalIp])
  apply resolveClientIp_congr
  · intro m hm'
    obtain rfl : n = m := Option.some.inj (hn ▸ hm')
    rw [hold, hnew]
  · intro hu
    rw [configuredIp, hn, Option.bind_some, hold] at hu
    cases hu

theorem covers_mapped_iff {c : Cidr 128} {d : Cidr 32} {m : TrustedProxyMetadata} {x : IpAddr}
    (hm : MappedCidr c d) :
    TrustedProxiesBuilder.Covers ⟨.v6 c, m⟩ x ↔ TrustedProxiesBuilder.Covers ⟨.v4 d, m⟩ x := by
  simp only [TrustedProxiesBuilder.Covers, canonicalCidr_of_mapped hm]
  rfl

theorem resolveClientIp_rule_congr {env env' : BuildEnv} {l r : List TrustedProxyRule}
    {m : TrustedProxyMetadata} {d : Cidr 32} {c : Cidr 128} {order : List ChainHeader}
    (hk : env.combiners.Exact) (hk' : env'.combiners.Exact) (hm : MappedCidr c d)
    (hb : TrustedProxiesBuilder.build env ⟨l ++ ⟨.v4 d, m⟩ :: r, order⟩ = .ok config)
    (hb' : TrustedProxiesBuilder.build env' ⟨l ++ ⟨.v6 c, m⟩ :: r, order⟩ = .ok config') :
    config.resolveClientIp headers peer = config'.resolveClientIp headers peer := by
  obtain ⟨rules, rfl, -⟩ := TrustedProxiesBuilder.build_stores hk hb
  obtain ⟨rules', rfl, -⟩ := TrustedProxiesBuilder.build_stores hk' hb'
  apply resolveClientIp_congr_rules
  intro x
  ext m'
  simp only [Option.map_eq_some_iff]
  rw [TrustedProxiesBuilder.exists_ruleFor_iff hk hb,
    TrustedProxiesBuilder.exists_ruleFor_iff hk' hb']
  simp only [List.mem_append, List.mem_cons, or_and_right, exists_or, exists_eq_left,
    covers_mapped_iff hm]

theorem Respelled.answer_eq (h : Respelled q q') : q.answer = q'.answer := by
  cases h with
  | peer config headers a =>
    simp only [Request.answer, ClientIpConfig.resolveClientIp, canonicalIp, IpAddr.toCanonical_v4,
      IpAddr.toCanonical_mapped]
  | clientIpHeader hn hpost hv hv' hp hm => exact resolveClientIp_last_congr hn hpost hv hv' hp hm
  | hop hh hv hv' hl =>
    apply resolveClientIp_congr
    · exact fun m _ => configuredClientIpHeader_line_congr hv hv' hl.parse_eq m
    · exact fun _ pick => chainAnswer_line_congr hh hv hv' hl.hopsOf_eq
  | rule hk hk' hm hb hb' => exact resolveClientIp_rule_congr hk hk' hm hb hb'

/--
The answer to a request is never an IPv4-mapped address, and it does not depend on which of its
addresses are written in that form.
-/
theorem one_address_in_every_form :
    (∀ q : Request, q.answer.ip.Canonical) ∧
      ∀ q q' : Request, Relation.EqvGen Respelled q q' → q.answer = q'.answer := by
  constructor
  · exact fun q => q.config.canonical_resolveClientIp q.headers q.peer
  · intro q q' h
    induction h with
    | rel q q' h => exact h.answer_eq
    | refl q => rfl
    | symm q q' _ ih => exact ih.symm
    | trans q q' q'' _ _ ih ih' => exact ih.trans ih'

/-- A hop, the network of a rule and the socket peer are written in the other form. -/
theorem sample_in_every_form :
    let name := ChainHeader.xForwardedFor.name
    let v : HeaderValue := .ofReadable "203.0.113.7".toList (by decide)
    let v' : HeaderValue := .ofReadable "::ffff:203.0.113.7".toList (by decide +kernel)
    Request.answer
        ⟨TrustedProxiesBuilder.sampleConfig, [(name, v)], TrustedProxiesBuilder.sampleProxy⟩ =
      Request.answer ⟨TrustedProxiesBuilder.sampleConfig, [(name, v')],
        .v6 (Ipv4Addr.new 10 0 0 7).toIpv6Mapped⟩ := by
  intro name v v'
  have hhop : RespelledHop (trim "203.0.113.7".toList) (trim "::ffff:203.0.113.7".toList) := by
    have hp : IpAddr.parse (trim "203.0.113.7".toList) = some (.v4 (Ipv4Addr.new 203 0 113 7)) := by
      decide +kernel
    have hm : trim "::ffff:203.0.113.7".toList = mappedPrefix ++ trim "203.0.113.7".toList := by
      decide +kernel
    rw [hm]
    exact .plain hp
  have hline : RespelledLine .xForwardedFor ([] ++ ("203.0.113.7".toList ++ []))
      ([] ++ ("::ffff:203.0.113.7".toList ++ [])) := .list .start .stop hhop
  have hop : Respelled
      ⟨TrustedProxiesBuilder.sampleConfig, [] ++ (name, v) :: [], TrustedProxiesBuilder.sampleProxy⟩
      ⟨TrustedProxiesBuilder.sampleConfig, [] ++ (name, v') :: [],
        TrustedProxiesBuilder.sampleProxy⟩ :=
    .hop (h := .xForwardedFor) (by decide +kernel) (HeaderValue.toStr_ofReadable _ _)
      (HeaderValue.toStr_ofReadable _ _) hline
  -- the first network of the sample is 10.0.0.128/25 in IPv4-mapped form
  have hplain : TrustedProxiesBuilder.build TrustedProxiesBuilder.sampleEnv
      ⟨[] ++ .withXRealIp (.v4 ⟨Ipv4Addr.new 10 0 0 128, 25, by decide, by decide⟩) ::
        TrustedProxiesBuilder.sampleBuilder.rules.tail, defaultChainHeaderOrder⟩ =
      .ok TrustedProxiesBuilder.sampleConfig := by
    decide +kernel
  have rule : Respelled
      ⟨TrustedProxiesBuilder.sampleConfig, [(name, v')], TrustedProxiesBuilder.sampleProxy⟩
      ⟨TrustedProxiesBuilder.sampleConfig, [(name, v')], TrustedProxiesBuilder.sampleProxy⟩ :=
    .rule normalCombiners_exact normalCombiners_exact ⟨rfl, rfl⟩ hplain
      TrustedProxiesBuilder.build_sample
  have peer : Respelled
      ⟨TrustedProxiesBuilder.sampleConfig, [(name, v')], TrustedProxiesBuilder.sampleProxy⟩
      ⟨TrustedProxiesBuilder.sampleConfig, [(name, v')],
        .v6 (Ipv4Addr.new 10 0 0 7).toIpv6Mapped⟩ := .peer _ _ _
  exact one_address_in_every_form.2 _ _
    (.trans _ _ _ (.rel _ _ hop) (.trans _ _ _ (.rel _ _ rule) (.rel _ _ peer)))

end Requests

end ClientAddr
