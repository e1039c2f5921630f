import ClientAddr.Rules.Normal

/-! # Configs that grow

A config can be built again from the rules it holds and some more. However the rules
are cut into such batches, the config in the end is that of one build with all of
them, and a batch fails exactly when that build would.
-/

namespace ClientAddr

namespace TrustedProxiesBuilder

variable {env : BuildEnv} {builder builder' : TrustedProxiesBuilder} {config c : ClientIpConfig}
  {rules batch : List TrustedProxyRule} {m : TrustedProxyMetadata}

def rebuild (env : BuildEnv) (config : ClientIpConfig) (batch : List TrustedProxyRule) :
    Except ClientIpConfigBuildError ClientIpConfig :=
  (((({} : TrustedProxiesBuilder).proxies config.trustedProxyRules).proxies
    batch).withChainHeaderOrder config.chainHeaderOrder).build env

/-- One batch after the other, each with the environment of its own build. -/
def rebuilds (config : ClientIpConfig) :
    List (BuildEnv × List TrustedProxyRule) → Except ClientIpConfigBuildError ClientIpConfig
  | [] => .ok config
  | (env, batch) :: steps => do rebuilds (← rebuild env config batch) steps

theorem coverage_append (rules batch : List TrustedProxyRule) (m : TrustedProxyMetadata) :
    coverage (rules ++ batch) m = coverage rules m ∪ coverage batch m := by
  ext x
  simp only [coverage, Set.mem_ofPred_eq, Set.mem_union, List.mem_append, or_and_right, exists_or]

theorem canonicalRules_proxies (builder : TrustedProxiesBuilder) (batch : List TrustedProxyRule) :
    (builder.proxies batch).canonicalRules = builder.canonicalRules ++
      batch.map fun rule => { rule with cidr := canonicalCidr rule.cidr } :=
  List.map_append

theorem proxies_proxies (builder : TrustedProxiesBuilder) (batch batch' : List TrustedProxyRule) :
    (builder.proxies batch).proxies batch' = builder.proxies (batch ++ batch') := by
  simp only [proxies, List.append_assoc]

theorem build_ok_of_proxies (hb : (builder.proxies batch).build env = .ok c) :
    ∃ c, builder.build env = .ok c := by
  have hmono : ∀ m x, x ∈ coverage builder.canonicalRules m →
      x ∈ coverage (builder.proxies batch).canonicalRules m := by
    intro m x hx
    rw [canonicalRules_proxies, coverage_append]
    exact Or.inl hx
  have hone := build_eq_ok_iff_coverage.mp ⟨c, hb⟩
  rw [build_eq_ok_iff_coverage]
  exact fun m m' x hx hx' => hone m m' x (hmono m x hx) (hmono m' x hx')

/-- One batch more gives the config of one build. -/
theorem rebuild_eq_ok_iff {env' : BuildEnv} (hk : env.combiners.Exact)
    (hj : env.combiners.SiblingFree) (hk' : env'.combiners.Exact) (hj' : env'.combiners.SiblingFree)
    (hb : builder.build env = .ok config) :
    rebuild env' config batch = .ok c ↔ (builder.proxies batch).build env = .ok c := by
  obtain ⟨rules, rfl, hs, hn⟩ := build_normal hk hj hb
  have hc : ∀ m, coverage (proxies ⟨rules, builder.chainHeaderOrder⟩ batch).canonicalRules m =
      coverage (builder.proxies batch).canonicalRules m := by
    intro m
    rw [canonicalRules_proxies, canonicalRules_proxies, coverage_append, coverage_append,
      canonicalRules_stored hn hs, hs.coverage]
  have hr : rebuild env' ⟨.trustedProxies rules builder.chainHeaderOrder⟩ batch =
      (proxies ⟨rules, builder.chainHeaderOrder⟩ batch).build env' := rfl
  rw [hr]
  constructor
  · exact build_eq_of_coverage hk' hj' hk hj (fun m => (hc m).symm) rfl
  · exact build_eq_of_coverage hk hj hk' hj' hc rfl

/--
However rules are added in batches, each to the rules that the last build stored, the runs that
succeed end with the config of one build with all rules, and they succeed exactly when it does.
-/
theorem rebuilds_eq_build (env : BuildEnv) (builder : TrustedProxiesBuilder)
    (config : ClientIpConfig) (steps : List (BuildEnv × List TrustedProxyRule))
    (hk : env.combiners.Exact) (hj : env.combiners.SiblingFree)
    (hs : ∀ step ∈ steps, step.1.combiners.Exact ∧ step.1.combiners.SiblingFree)
    (hb : builder.build env = .ok config) (c : ClientIpConfig) :
    rebuilds config steps = .ok c ↔
      (builder.proxies (steps.flatMap Prod.snd)).build env = .ok c := by
  induction steps generalizing builder config with
  | nil =>
    have hp : builder.proxies [] = builder := by simp [proxies]
    rw [List.flatMap_nil, hp, hb, rebuilds]
  | cons step steps ih =>
    obtain ⟨env', batch⟩ := step
    obtain ⟨⟨hk', hj'⟩, hs⟩ := List.forall_mem_cons.mp hs
    have hstep : ∀ c, rebuild env' config batch = .ok c ↔ _ := fun c =>
      rebuild_eq_ok_iff hk hj hk' hj' hb
    rw [rebuilds, List.flatMap_cons, ← proxies_proxies]
    cases hr : rebuild env' config batch with
    | ok config' => exact ih (builder.proxies batch) config' hs ((hstep config').mp hr)
    | error e =>
      refine iff_of_false nofun fun hc => ?_
      -- the rules up to this batch would build, so the batch would not fail
      obtain ⟨config', hb'⟩ := build_ok_of_proxies hc
      rw [(hstep config').mpr hb'] at hr
      cases hr

/-- The networks of the sample are added one by one. -/
theorem rebuild_sample_in_batches :
    rebuilds ⟨.trustedProxies [] defaultChainHeaderOrder⟩
      (sampleBuilder.rules.map fun r => (sampleEnv, [r])) = .ok sampleConfig := by
  have h := rebuilds_eq_build sampleEnv {} ⟨.trustedProxies [] defaultChainHeaderOrder⟩
    (sampleBuilder.rules.map fun r => (sampleEnv, [r])) normalCombiners_exact
    normalCombiners_siblingFree (by
      intro step hs
      obtain ⟨r, -, rfl⟩ := List.mem_map.mp hs
      exact ⟨normalCombiners_exact, normalCombiners_siblingFree⟩) (by decide +kernel) sampleConfig
  exact h.mpr build_sample

end TrustedProxiesBuilder

end ClientAddr
