import ClientAddr.Order.Firsts
import ClientAddr.Resolve.Growth
import ClientAddr.Resolve.Observed

/-! # What answers tell about the order

A chain header counts where its name stands first in the order. When a build leaves
something to the headers, its answers determine these headers, their kinds and their
order, besides the policies of every address.
-/

namespace ClientAddr

open Text

/-- The chain headers that count, in their order. -/
def effectiveOrder (order : List ChainHeader) : List ChainHeader :=
  firsts ChainHeader.asHeaderName order

variable {names : List HeaderName} {order order' : List ChainHeader} {config : ClientIpConfig}
  {header header' : Option HeaderName} {pick pick' : List ChainEntry → Option IpAddr}
  {peer x : IpAddr}

theorem firstCarried_effectiveOrder (headers : HeaderMap) (order : List ChainHeader) :
    firstCarried headers (effectiveOrder order) = firstCarried headers order :=
  find?_firsts (fun n => decide (headers.getAll n ≠ [])) order

theorem chainAnswer_effectiveOrder (headers : HeaderMap) (order : List ChainHeader)
    (pick : List ChainEntry → Option IpAddr) :
    chainAnswer headers (effectiveOrder order) pick = chainAnswer headers order pick := by
  rw [chainAnswer, firstCarried_effectiveOrder]
  rfl

theorem resolveClientIp_effectiveOrder (rules : List TrustedProxyRule) (order : List ChainHeader)
    (headers : HeaderMap) (peer : IpAddr) :
    ClientIpConfig.resolveClientIp ⟨.trustedProxies rules order⟩ headers peer =
      ClientIpConfig.resolveClientIp ⟨.trustedProxies rules (effectiveOrder order)⟩ headers
        peer := by
  have htrust : ∀ x, ClientIpConfig.isTrustedProxy ⟨.trustedProxies rules order⟩ x =
      ClientIpConfig.isTrustedProxy ⟨.trustedProxies rules (effectiveOrder order)⟩ x := fun _ => rfl
  have hscan : firstNonTrustedFromRight ⟨.trustedProxies rules order⟩ =
      firstNonTrustedFromRight ⟨.trustedProxies rules (effectiveOrder order)⟩ := by
    funext entries
    exact firstNonTrusted_congr htrust entries.reverse
  have hrule : ClientIpConfig.ruleFor ⟨.trustedProxies rules (effectiveOrder order)⟩ peer =
      ClientIpConfig.ruleFor ⟨.trustedProxies rules order⟩ peer := rfl
  cases hr : ClientIpConfig.ruleFor ⟨.trustedProxies rules order⟩ peer with
  | none =>
    rw [ClientIpConfig.resolveClientIp_of_not_covered rfl hr,
      ClientIpConfig.resolveClientIp_of_not_covered rfl (hrule.trans hr)]
  | some rule =>
    rw [ClientIpConfig.resolveClientIp_of_ruleFor rfl hr,
      ClientIpConfig.resolveClientIp_of_ruleFor rfl (hrule.trans hr), hscan]
    exact resolveFrom_congr_chain fun _ => (chainAnswer_effectiveOrder _ _ _).symm

/-- A pick that answers a long enough chain of an address with it, and none without addresses. -/
structure Finds (pick : List ChainEntry → Option IpAddr) (x : IpAddr) : Prop where
  address : ∃ n, ∀ k, n < k → pick (List.replicate k (.Ip x)) = some x
  nothing : ∀ k, pick (List.replicate k .Opaque) = none

theorem finds_scan (hx : config.isTrustedProxy x = false) :
    Finds (firstNonTrustedFromRight config) x where
  address := by
    have hn : trustedHop config (.Ip x) = false := hx
    refine ⟨0, fun k hk => ?_⟩
    obtain ⟨k, rfl⟩ := Nat.exists_eq_succ_of_ne_zero hk.ne'
    rw [List.replicate_succ', firstNonTrustedFromRight_concat hn]
    rfl
  nothing := by
    intro k
    cases k with
    | zero => rfl
    | succ k =>
      rw [List.replicate_succ', firstNonTrustedFromRight_concat rfl]
      rfl

theorem find?_name_of_same (hs : ∀ headers, resolveFrom headers peer header order pick =
      resolveFrom headers peer header' order' pick')
    (hx : x.Canonical) (hp : Finds pick x) (hp' : Finds pick' x) {g : ChainHeader}
    (hg : order.find? (fun h => decide (h.asHeaderName ∈ names)) = some g) :
    order'.find? (fun h => decide (h.asHeaderName ∈ names)) = some g := by
  obtain ⟨v, t, hv, ht, hh⟩ := exists_value g.kind hx
  obtain ⟨n, hn⟩ := hp.address
  obtain ⟨n', hn'⟩ := hp'.address
  -- long enough for both picks
  have hhops : ∀ kind, (List.replicate (n + n' + 1) t).flatMap (hopsOf kind) =
      List.replicate (n + n' + 1) (onlyAs g.kind x kind) := fun kind => by
    rw [List.flatMap_replicate, hh, List.flatten_replicate_singleton]
  have hplain : ∀ w ∈ List.replicate (n + n' + 1) v, ∀ s, w.toStr = some s →
      IpAddr.parse (trim s) = none := by
    rintro w hw s hws
    rw [List.eq_of_mem_replicate hw] at hws
    exact Option.some.inj (hv.symm.trans hws) ▸ ht
  have hne : List.replicate (n + n' + 1) v ≠ [] := List.cons_ne_nil _ _
  have hl := readLines_replicate hv (n + n' + 1)
  have hself : onlyAs g.kind x g.kind = .Ip x := if_pos rfl
  have ha := hs (carrying names (List.replicate (n + n' + 1) v))
  rw [resolveFrom_carrying names hne hl hplain, resolveFrom_carrying names hne hl hplain, hg,
    Option.bind_some, hhops, hself, hn _ (by omega)] at ha
  cases hg' : order'.find? fun h => decide (h.asHeaderName ∈ names) with
  | none =>
    rw [hg'] at ha
    cases congrArg ClientIp.source ha
  | some g' =>
    rw [hg', Option.bind_some, hhops] at ha
    by_cases hk : g'.kind = g.kind
    · rw [hk, hself, hn' _ (by omega)] at ha
      have hname := ClientIpSource.chainHeader.inj (congrArg ClientIp.source ha)
      cases g
      cases g'
      exact congrArg some (congrArg₂ ChainHeader.mk hname.symm hk)
    · have hother : onlyAs g.kind x g'.kind = .Opaque := if_neg hk
      rw [hother, hp'.nothing] at ha
      cases congrArg ClientIp.source ha

/-- Answers tell which chain headers count, and in which order. -/
theorem effectiveOrder_eq_of_same (hs : ∀ headers, resolveFrom headers peer header order pick =
      resolveFrom headers peer header' order' pick')
    (hx : x.Canonical) (hp : Finds pick x) (hp' : Finds pick' x) :
    effectiveOrder order = effectiveOrder order' := by
  apply firsts_eq_of_find?_eq
  intro names
  ext g
  constructor
  · exact find?_name_of_same hs hx hp hp'
  · exact find?_name_of_same (fun headers => (hs headers).symm) hx hp' hp

namespace TrustedProxiesBuilder

variable {env env' : BuildEnv} {builder builder' : TrustedProxiesBuilder}

/-- Some peer is trusted and some address is not, and a chain header is tried. -/
structure Listens (builder : TrustedProxiesBuilder) : Prop where
  order : builder.chainHeaderOrder ≠ []
  trusted : ∃ p, (builder.policies p).Nonempty
  untrusted : ∃ x, builder.policies x = ∅

/--
When a build leaves something to the headers, another build answers every request alike exactly when
it gives every address the same policies and the same chain headers count, in the same order.
-/
theorem answers_determine_build (env env' : BuildEnv) (builder builder' : TrustedProxiesBuilder)
    (config config' : ClientIpConfig) (hk : env.combiners.Exact) (hk' : env'.combiners.Exact)
    (hb : builder.build env = .ok config) (hb' : builder'.build env' = .ok config')
    (hl : builder.Listens) :
    (∀ headers peer,
      config.resolveClientIp headers peer = config'.resolveClientIp headers peer) ↔
    (∀ x, builder.policies x = builder'.policies x) ∧
      effectiveOrder builder.chainHeaderOrder = effectiveOrder builder'.chainHeaderOrder := by
  obtain ⟨horder, ⟨p, hp⟩, x, hx⟩ := hl
  obtain ⟨h, order, ho⟩ := List.exists_cons_of_ne_nil horder
  obtain ⟨rules, hc, -⟩ := build_stores hk hb
  obtain ⟨rules', hc', -⟩ := build_stores hk' hb'
  have ht : config.trust = .trustedProxies rules (h :: order) := by rw [hc, ho]
  have ht' : config'.trust = .trustedProxies rules' builder'.chainHeaderOrder := by rw [hc']
  rw [← isTrustedProxy_iff_policies hk hb] at hp
  rw [← Set.not_nonempty_iff_eq_empty, ← isTrustedProxy_iff_policies hk hb, Bool.not_eq_true] at hx
  constructor
  · intro hs
    have told : ∀ q y, config.isTrustedProxy q = true → config.isTrustedProxy y = false →
        config'.isTrustedProxy q = true ∧ config'.isTrustedProxy y = false := fun q y =>
      ClientIpConfig.isTrustedProxy_of_same ht ht' (hs · q)
    refine ⟨fun y => policies_eq_of_trust hk hk' hb hb' ?_
      (ClientIpConfig.clientIpHeaderFor_eq_of_same (hs · y)), ?_⟩
    · cases hy : config.isTrustedProxy y with
      | true => exact (told y x hy hx).1.symm
      | false => exact (told p y hp hy).2.symm
    · obtain ⟨hp', hx'⟩ := told p x hp hx
      rw [← ClientIpConfig.isTrustedProxy_canonicalIp] at hx hx'
      simp only [ClientIpConfig.isTrustedProxy, ht, ht'] at hp hp'
      obtain ⟨rule, hr⟩ := Option.isSome_iff_exists.mp hp
      obtain ⟨rule', hr'⟩ := Option.isSome_iff_exists.mp hp'
      have hsame := (hs · p)
      simp only [ClientIpConfig.resolveClientIp_of_ruleFor ht hr,
        ClientIpConfig.resolveClientIp_of_ruleFor ht' hr'] at hsame
      rw [ho]
      exact effectiveOrder_eq_of_same hsame (canonical_canonicalIp x) (finds_scan hx)
        (finds_scan hx')
  · rintro ⟨hpol, hord⟩ headers peer
    simp only [policies_eq_iff hk hb hk' hb'] at hpol
    rw [hc, hc'] at hpol ⊢
    rw [resolveClientIp_effectiveOrder, resolveClientIp_effectiveOrder rules', hord]
    exact resolveClientIp_congr_rules hpol

theorem listens_sample : sampleBuilder.Listens where
  order := by decide
  trusted := ⟨sampleProxy,
    (isTrustedProxy_iff_policies normalCombiners_exact build_sample).mp (by decide +kernel)⟩
  untrusted := by
    refine ⟨sampleClient, ?_⟩
    rw [← Set.not_nonempty_iff_eq_empty,
      ← isTrustedProxy_iff_policies normalCombiners_exact build_sample]
    decide +kernel

/-- The sample answers differently when its chain headers are tried in the other order. -/
theorem sample_other_order :
    ClientIpConfig.resolveClientIp sampleConfig ≠
      ClientIpConfig.resolveClientIp
        ⟨.trustedProxies sampleRules defaultChainHeaderOrder.reverse⟩ := by
  intro hs
  have hb : (sampleBuilder.withChainHeaderOrder defaultChainHeaderOrder.reverse).build sampleEnv =
      .ok ⟨.trustedProxies sampleRules defaultChainHeaderOrder.reverse⟩ := by decide +kernel
  have h := (answers_determine_build sampleEnv sampleEnv sampleBuilder _ _ _ normalCombiners_exact
    normalCombiners_exact build_sample hb listens_sample).mp fun headers peer =>
      congrFun (congrFun hs headers) peer
  exact absurd h.2 (by decide +kernel)

end TrustedProxiesBuilder

end ClientAddr
