import ClientAddr.Rules.Lookup

/-! # Builds are canonical

With combiners that join siblings, the stored rules of each metadata value and
family are a normal form. They are determined by the covered addresses, no list
with the same coverage is shorter, and building from them again changes nothing.
-/

namespace ClientAddr

open Laminar TrustedProxyRule

variable {rules rules' : List TrustedProxyRule} {m : TrustedProxyMetadata} {r s : TrustedProxyRule}

section Families

def networksOf (rules : List TrustedProxyRule) (m : TrustedProxyMetadata) : List IpCidr :=
  (rules.filter fun r => r.metadata = m).map cidr

theorem mem_networksOf {c : IpCidr} : c ∈ networksOf rules m ↔ ⟨c, m⟩ ∈ rules := by
  simp only [networksOf, List.mem_map, List.mem_filter, decide_eq_true_eq]
  constructor
  · rintro ⟨r, ⟨hr, rfl⟩, rfl⟩
    exact hr
  · exact fun h => ⟨_, ⟨h, rfl⟩, rfl⟩

theorem covered_networksOf : covered (networksOf rules m) = coverage rules m := by
  ext x
  constructor
  · rintro ⟨c, hc, hx⟩
    exact ⟨_, mem_networksOf.mp hc, rfl, hx⟩
  · rintro ⟨r, hr, rfl, hx⟩
    exact ⟨r.cidr, mem_networksOf.mpr hr, hx⟩

def ipv4Of (rules : List TrustedProxyRule) (m : TrustedProxyMetadata) : List (Cidr 32) :=
  ipv4Pushed (networksOf rules m)

def ipv6Of (rules : List TrustedProxyRule) (m : TrustedProxyMetadata) : List (Cidr 128) :=
  ipv6Pushed (networksOf rules m)

theorem pairwise_networksOf (h : rules.Pairwise fun r s => ¬ Meets r.span s.span) :
    (networksOf rules m).Pairwise fun c d => ¬ Meets c.span d.span :=
  List.pairwise_map.mpr (h.filter _)

namespace Family

variable {w : ℕ} (F : Family w) {p : Cidr w}

abbrev ofRules (rules : List TrustedProxyRule) (m : TrustedProxyMetadata) : List (Cidr w) :=
  F.pushed (networksOf rules m)

theorem mem_ofRules : p ∈ F.ofRules rules m ↔ ⟨F.cidr p, m⟩ ∈ rules :=
  F.mem_pushed.trans mem_networksOf

theorem cover_ofRules_congr (h : coverage rules m = coverage rules' m) :
    Cidr.cover (F.ofRules rules m) = Cidr.cover (F.ofRules rules' m) := by
  ext a
  rw [← F.addr_mem_covered, ← F.addr_mem_covered, covered_networksOf, covered_networksOf, h]

theorem siblingFree_perm (h : rules'.Perm rules) (hs : Cidr.SiblingFree (F.ofRules rules m)) :
    Cidr.SiblingFree (F.ofRules rules' m) := by
  intro c hc
  simpa only [mem_ofRules, h.mem_iff] using hs c hc

theorem siblingFree_mergeRules {env : BuildEnv} {f : List (Cidr w) → List (Cidr w)}
    (hf : JoinsSiblings f)
    (h : ∀ {cs p}, F.cidr p ∈ mergeCidrs env.combiners cs ↔ p ∈ f (F.pushed cs)) :
    Cidr.SiblingFree (F.ofRules (mergeRulesByMetadata env rules) m) := by
  intro c hc hlo hup
  obtain ⟨cs, hg, hl⟩ := mem_mergeRules.mp (F.mem_ofRules.mp hlo)
  obtain ⟨cs', hg', hu⟩ := mem_mergeRules.mp (F.mem_ofRules.mp hup)
  obtain rfl := eq_of_mem_groups (nodup_groups rules) hg hg'
  exact hf _ c hc (h.mp hl) (h.mp hu)

end Family

end Families

/-- Separated rules that cannot be joined any further. -/
structure NormalRules (rules : List TrustedProxyRule) : Prop where
  separated : Separated TrustedProxyRule.span rules
  ipv4 : ∀ m, Cidr.SiblingFree (ipv4Of rules m)
  ipv6 : ∀ m, Cidr.SiblingFree (ipv6Of rules m)

theorem not_meets_of_separated (h : Separated TrustedProxyRule.span rules) :
    rules.Pairwise fun r s => ¬ Meets r.span s.span := h.imp not_meets_of_snd_lt

namespace NormalRules

theorem normal_ipv4 (h : NormalRules rules) (m : TrustedProxyMetadata) :
    Cidr.Normal (Family.ipv4.ofRules rules m) where
  disjoint := Family.ipv4.disjoint_pushed (pairwise_networksOf (not_meets_of_separated h.separated))
  siblingFree := h.ipv4 m

theorem normal_ipv6 (h : NormalRules rules) (m : TrustedProxyMetadata) :
    Cidr.Normal (Family.ipv6.ofRules rules m) where
  disjoint := Family.ipv6.disjoint_pushed (pairwise_networksOf (not_meets_of_separated h.separated))
  siblingFree := h.ipv6 m

theorem mem_iff_of_coverage_eq (h : NormalRules rules) (h' : NormalRules rules')
    (hc : ∀ m, coverage rules m = coverage rules' m) : r ∈ rules ↔ r ∈ rules' := by
  obtain ⟨c, m⟩ := r
  have family : ∀ {w} (F : Family w) {p : Cidr w}, Cidr.Normal (F.ofRules rules m) →
      Cidr.Normal (F.ofRules rules' m) → (⟨F.cidr p, m⟩ ∈ rules ↔ ⟨F.cidr p, m⟩ ∈ rules') := by
    intro w F p hn hn'
    rw [← F.mem_ofRules, ← F.mem_ofRules]
    exact hn.mem_iff_of_cover_eq hn' (F.cover_ofRules_congr (hc m))
  cases c with
  | v4 p => exact family Family.ipv4 (h.normal_ipv4 m) (h'.normal_ipv4 m)
  | v6 p => exact family Family.ipv6 (h.normal_ipv6 m) (h'.normal_ipv6 m)

theorem nodup (h : NormalRules rules) : rules.Nodup := by
  apply h.separated.fst_lt.imp
  rintro r s hlt rfl
  exact lt_irrefl _ hlt

/-- Sorting by first address leaves no tie, so equal coverage means equal lists. -/
theorem eq_of_coverage_eq (h : NormalRules rules) (h' : NormalRules rules')
    (hc : ∀ m, coverage rules m = coverage rules' m) : rules = rules' := by
  have hp : rules.Perm rules' :=
    (List.perm_ext_iff_of_nodup h.nodup h'.nodup).mpr fun _ => h.mem_iff_of_coverage_eq h' hc
  refine hp.eq_of_pairwise ?_ h.separated.fst_lt h'.separated.fst_lt
  intro r s _ _ hlt hlt'
  exact absurd hlt' hlt.asymm

theorem exists_mem_le (h : NormalRules rules) (hc : ∀ m, coverage rules m = coverage rules' m)
    (hr : r ∈ rules) : ∃ s ∈ rules', s.span ≤ r.span := by
  obtain ⟨c, m⟩ := r
  have family : ∀ {w} (F : Family w) {p : Cidr w}, Cidr.Normal (F.ofRules rules m) →
      ⟨F.cidr p, m⟩ ∈ rules → ∃ s ∈ rules', s.span ≤ (F.cidr p).span := by
    intro w F p hn hp
    obtain ⟨q, hq, hle⟩ := hn.exists_mem_le (F.cover_ofRules_congr (hc m)) (F.mem_ofRules.mpr hp)
    exact ⟨_, F.mem_ofRules.mp hq, F.span_le.mpr hle⟩
  cases c with
  | v4 p => exact family Family.ipv4 (h.normal_ipv4 m) hr
  | v6 p => exact family Family.ipv6 (h.normal_ipv6 m) hr

theorem length_le (h : NormalRules rules) (hc : ∀ m, coverage rules m = coverage rules' m) :
    rules.length ≤ rules'.length := by
  refine length_le_of_separating (R := fun r s => s.span ≤ r.span)
    (fun r hr => h.exists_mem_le hc hr) ?_
  apply (not_meets_of_separated h.separated).imp
  intro r r' hn s hr hr'
  have hf : s.span.fst ≤ s.span.snd := s.span.fst_le_snd
  exact hn ⟨s.span.fst, ⟨hr.1, hf.trans hr.2⟩, ⟨hr'.1, hf.trans hr'.2⟩⟩

end NormalRules

theorem agree_iff_coverage :
    (∀ r ∈ rules, ∀ s ∈ rules, Agree span metadata r s) ↔
      ∀ m m' x, x ∈ coverage rules m → x ∈ coverage rules m' → m = m' := by
  constructor
  · rintro h m m' x ⟨r, hr, rfl, hx⟩ ⟨s, hs, rfl, hx'⟩
    exact h r hr s hs ⟨x, hx, hx'⟩
  · rintro h r hr s hs ⟨x, hx, hx'⟩
    exact h _ _ x ⟨r, hr, rfl, hx⟩ ⟨s, hs, rfl, hx'⟩

/-- The same networks under the same metadata, written another way. -/
inductive Rearranged : List TrustedProxyRule → List TrustedProxyRule → Prop
  | perm {l l'} : l.Perm l' → Rearranged l l'
  | duplicate {l r} : r ∈ l → Rearranged l (r :: l)
  | subnetwork {l r s} : r ∈ l → s.metadata = r.metadata → s.span ≤ r.span → Rearranged l (s :: l)
  | splitV4 {l m} (c : Cidr 32) (h : c.networkLength < 32) :
    Rearranged (⟨.v4 c, m⟩ :: l) (⟨.v4 (c.lower h), m⟩ :: ⟨.v4 (c.upper h), m⟩ :: l)
  | splitV6 {l m} (c : Cidr 128) (h : c.networkLength < 128) :
    Rearranged (⟨.v6 c, m⟩ :: l) (⟨.v6 (c.lower h), m⟩ :: ⟨.v6 (c.upper h), m⟩ :: l)
  | trans {l l' l''} : Rearranged l l' → Rearranged l' l'' → Rearranged l l''

theorem Rearranged.canonical_split {c : Cidr 128} (hc : OneFamily (.v6 c))
    (h : c.networkLength < 128) :
    Rearranged (⟨canonicalCidr (.v6 c), m⟩ :: rules)
      (⟨canonicalCidr (.v6 (c.lower h)), m⟩ :: ⟨canonicalCidr (.v6 (c.upper h)), m⟩ :: rules) := by
  rcases hc with ⟨d, hd⟩ | hn
  · have hlen : d.networkLength < 32 := by
      have := hd.2
      omega
    rw [canonicalCidr_of_mapped hd, canonicalCidr_of_mapped (hd.lower h hlen),
      canonicalCidr_of_mapped (hd.upper h hlen)]
    exact .splitV4 d hlen
  · rw [canonicalCidr_of_not_mapped hn,
      canonicalCidr_of_not_mapped fun x hx => hn x (Cidr.le_iff.mp (Cidr.lower_le h) x hx),
      canonicalCidr_of_not_mapped fun x hx => hn x (Cidr.le_iff.mp (Cidr.upper_le h) x hx)]
    exact .splitV6 c h

/-- A rearrangement of networks of one family is one of the rewritten networks. -/
theorem Rearranged.canonical (h : Rearranged rules rules') (hf : ∀ r ∈ rules, OneFamily r.cidr) :
    (∀ r ∈ rules', OneFamily r.cidr) ∧
      Rearranged (rules.map fun r => { r with cidr := canonicalCidr r.cidr })
        (rules'.map fun r => { r with cidr := canonicalCidr r.cidr }) := by
  induction h with
  | perm h => exact ⟨fun r hr => hf r (h.mem_iff.mpr hr), .perm (h.map _)⟩
  | duplicate hr =>
    exact ⟨List.forall_mem_cons.mpr ⟨hf _ hr, hf⟩, .duplicate (List.mem_map_of_mem hr)⟩
  | subnetwork hr hm hle =>
    obtain ⟨hs, hsub⟩ := (hf _ hr).of_le hle
    exact ⟨List.forall_mem_cons.mpr ⟨hs, hf⟩, .subnetwork (List.mem_map_of_mem hr) hm hsub⟩
  | splitV4 c h =>
    obtain ⟨-, hl⟩ := List.forall_mem_cons.mp hf
    refine ⟨?_, .splitV4 c h⟩
    rw [List.forall_mem_cons, List.forall_mem_cons]
    exact ⟨trivial, trivial, hl⟩
  | splitV6 c h =>
    obtain ⟨hc, hl⟩ := List.forall_mem_cons.mp hf
    refine ⟨?_, canonical_split hc h⟩
    rw [List.forall_mem_cons, List.forall_mem_cons]
    exact ⟨(hc.of_le (IpCidr.span_v6_le.mpr (Cidr.lower_le h))).1,
      (hc.of_le (IpCidr.span_v6_le.mpr (Cidr.upper_le h))).1, hl⟩
  | trans _ _ ih ih' =>
    obtain ⟨hf', h⟩ := ih hf
    obtain ⟨hf'', h'⟩ := ih' hf'
    exact ⟨hf'', h.trans h'⟩

/-- The halves of `::fffe:0:0/95` fall apart in the rewrite: the upper one becomes `0.0.0.0/0`. -/
theorem Rearranged.straddling {c : Cidr 128} (ha : c.address.val = 0xfffe * 2 ^ 32)
    (hl : c.networkLength = 95) (h : c.networkLength < 128) :
    ¬ OneFamily (.v6 c) ∧
      Rearranged [⟨.v6 c, m⟩] [⟨.v6 (c.lower h), m⟩, ⟨.v6 (c.upper h), m⟩] ∧
      ∀ a : Ipv4Addr, .v4 a ∉ coverage [⟨canonicalCidr (.v6 c), m⟩] m ∧
        .v4 a ∈ coverage
          [⟨canonicalCidr (.v6 (c.lower h)), m⟩, ⟨canonicalCidr (.v6 (c.upper h)), m⟩] m := by
  have hup : MappedCidr (c.upper h) (Cidr.all 32) := by
    refine ⟨Fin.ext ?_, ?_⟩
    · simp [Cidr.upper, Cidr.all, Ipv4Addr.toIpv6Mapped, mappedBase, ha, hl]
    · simp [Cidr.upper, Cidr.all, hl]
  have hc : canonicalCidr (.v6 c) = .v6 c := by
    rcases canonicalCidr_v6 c with ⟨d, -, -, hd⟩ | ⟨hc, -⟩
    · omega
    · exact hc
  refine ⟨?_, .splitV6 c h, fun a => ⟨?_, ?_⟩⟩
  · rintro (⟨d, -, hd⟩ | hn)
    · omega
    · have hx := hn _ (Cidr.le_iff.mp (Cidr.upper_le h) _ (Cidr.address_mem _))
      rw [hup.1] at hx
      simp at hx
  · rintro ⟨r, hr, -, hx⟩
    obtain rfl := List.mem_singleton.mp hr
    rw [TrustedProxyRule.span, hc] at hx
    simp at hx
  · refine ⟨_, List.mem_cons_of_mem _ List.mem_cons_self, rfl, ?_⟩
    rw [TrustedProxyRule.span, canonicalCidr_of_mapped hup]
    exact IpCidr.v4_mem_span.mpr (Cidr.mem_all a)

theorem mem_coverage_cons {x : IpAddr} :
    x ∈ coverage (r :: rules) m ↔ (r.metadata = m ∧ x ∈ r.span) ∨ x ∈ coverage rules m := by
  simp only [coverage, Set.mem_ofPred_eq, List.exists_mem_cons_iff]

theorem coverage_cons_of_le (hr : r ∈ rules) (hm : s.metadata = r.metadata)
    (hle : s.span ≤ r.span) : coverage (s :: rules) m = coverage rules m := by
  ext x
  rw [mem_coverage_cons, or_iff_right_of_imp]
  rintro ⟨rfl, hx⟩
  exact ⟨r, hr, hm.symm, ⟨hle.1.trans hx.1, hx.2.trans hle.2⟩⟩

theorem Rearranged.coverage_eq (h : Rearranged rules rules') (m : TrustedProxyMetadata) :
    coverage rules m = coverage rules' m := by
  induction h with
  | perm h => exact coverage_congr fun r => h.mem_iff
  | duplicate hr => exact (coverage_cons_of_le hr rfl le_rfl).symm
  | subnetwork hr hm hle => exact (coverage_cons_of_le hr hm hle).symm
  | splitV4 c h =>
    ext x
    simp only [mem_coverage_cons, TrustedProxyRule.span, ← or_assoc, ← and_or_left]
    cases x with
    | v4 a => simp only [IpCidr.v4_mem_span, Cidr.mem_halves_iff h]
    | v6 a => simp only [IpCidr.v6_not_mem_span, or_self]
  | splitV6 c h =>
    ext x
    simp only [mem_coverage_cons, TrustedProxyRule.span, ← or_assoc, ← and_or_left]
    cases x with
    | v4 a => simp only [IpCidr.v4_not_mem_span, or_self]
    | v6 a => simp only [IpCidr.v6_mem_span, Cidr.mem_halves_iff h]
  | trans _ _ ih ih' => exact ih.trans ih'

namespace TrustedProxiesBuilder

variable {env env' : BuildEnv} {builder builder' : TrustedProxiesBuilder} {config : ClientIpConfig}

theorem build_eq_ok_iff_coverage : (∃ config, builder.build env = .ok config) ↔
    ∀ m m' x, x ∈ coverage builder.canonicalRules m → x ∈ coverage builder.canonicalRules m' →
      m = m' := by
  rw [← agree_iff_coverage, ← ensure_eq_ok_iff]
  constructor
  · rintro ⟨config, hb⟩
    exact (build_eq_ok_iff.mp hb).1
  · exact fun h => ⟨_, build_eq_ok_iff.mpr ⟨h, rfl⟩⟩

theorem build_normal (hk : env.combiners.Exact) (hj : env.combiners.SiblingFree)
    (hb : builder.build env = .ok config) :
    ∃ rules, config = ⟨.trustedProxies rules builder.chainHeaderOrder⟩ ∧ Stores builder rules ∧
      NormalRules rules := by
  obtain ⟨rules, hc, hs⟩ := build_stores hk hb
  rw [(build_eq_ok_iff.mp hb).2] at hc
  obtain ⟨rfl, -⟩ := TrustModel.trustedProxies.inj (ClientIpConfig.mk.inj hc)
  refine ⟨_, (build_eq_ok_iff.mp hb).2, hs, hs.separated, fun m => ?_, fun m => ?_⟩
  · exact Family.ipv4.siblingFree_perm (perm_sortByKey _ _)
      (Family.ipv4.siblingFree_mergeRules hj.ipv4 v4_mem_mergeCidrs)
  · exact Family.ipv6.siblingFree_perm (perm_sortByKey _ _)
      (Family.ipv6.siblingFree_mergeRules hj.ipv6 v6_mem_mergeCidrs)

theorem build_eq_of_coverage (hk : env.combiners.Exact) (hj : env.combiners.SiblingFree)
    (hk' : env'.combiners.Exact) (hj' : env'.combiners.SiblingFree)
    (hc : ∀ m, coverage builder'.canonicalRules m = coverage builder.canonicalRules m)
    (ho : builder'.chainHeaderOrder = builder.chainHeaderOrder)
    (hb : builder.build env = .ok config) : builder'.build env' = .ok config := by
  have hok : ∃ config', builder'.build env' = .ok config' := by
    rw [build_eq_ok_iff_coverage]
    simp only [hc]
    exact build_eq_ok_iff_coverage.mp ⟨config, hb⟩
  obtain ⟨config', hb'⟩ := hok
  obtain ⟨rules, rfl, hs, hn⟩ := build_normal hk hj hb
  obtain ⟨rules', rfl, hs', hn'⟩ := build_normal hk' hj' hb'
  have he : rules' = rules := hn'.eq_of_coverage_eq hn fun m => by
    rw [hs'.coverage, hs.coverage, hc]
  rw [hb', he, ho]

theorem canonicalCidr_stored (hn : NormalRules rules) (hs : Stores builder rules) (hr : r ∈ rules) :
    canonicalCidr r.cidr = r.cidr := by
  obtain ⟨c, m⟩ := r
  cases c with
  | v4 c => rfl
  | v6 c =>
    rcases canonicalCidr_v6 c with ⟨d, -, hca, hcl⟩ | ⟨hc, -⟩
    · -- the address was pushed with a wider network, which a stored network contains
      have hcov : Cidr.cover (Family.ipv6.ofRules rules m) =
          Cidr.cover (Family.ipv6.ofRules builder.canonicalRules m) :=
        Family.ipv6.cover_ofRules_congr (hs.coverage m)
      have hx : c.address ∈ Cidr.cover (Family.ipv6.ofRules builder.canonicalRules m) :=
        hcov ▸ ⟨c, Family.ipv6.mem_ofRules.mpr hr, Cidr.address_mem c⟩
      obtain ⟨b, hb, hxb⟩ := hx
      obtain ⟨s, -, hs'⟩ := mem_canonicalRules.mp (Family.ipv6.mem_ofRules.mp hb)
      have hb96 : b.networkLength < 96 :=
        length_lt_of_canonicalCidr (congrArg TrustedProxyRule.cidr hs') hxb
          (by rw [hca]; simp)
      obtain ⟨p, hp, hbp⟩ := (hn.normal_ipv6 m).exists_le b fun x hx => hcov ▸ ⟨b, hb, hx⟩
      obtain rfl := (hn.normal_ipv6 m).disjoint.eq_of_mem hp (Family.ipv6.mem_ofRules.mpr hr)
        (Cidr.le_iff.mp hbp _ hxb) (Cidr.address_mem c)
      have := Cidr.length_le_of_le hbp
      omega
    · exact hc

theorem canonicalRules_stored (hn : NormalRules rules) (hs : Stores builder rules)
    (order : List ChainHeader) : canonicalRules ⟨rules, order⟩ = rules := by
  refine (List.map_congr_left fun r hr => ?_).trans (List.map_id _)
  rw [canonicalCidr_stored hn hs hr, id]

theorem length_stored_le (hn : NormalRules rules) (hs : Stores builder rules)
    (hc : ∀ m, coverage builder'.canonicalRules m = coverage builder.canonicalRules m) :
    rules.length ≤ builder'.rules.length := by
  have hle := hn.length_le fun m => (hs.coverage m).trans (hc m).symm
  rwa [canonicalRules, List.length_map] at hle

/--
A build depends only on the addresses covered under each metadata value: not on how the networks
are written, nor on the hash order. Its rules cover the same addresses and can be built again, and
no list of rules with the same coverage is shorter.
-/
theorem build_canonical_form (env env' : BuildEnv) (hk : env.combiners.Exact)
    (hj : env.combiners.SiblingFree) (hk' : env'.combiners.Exact)
    (hj' : env'.combiners.SiblingFree) (builder : TrustedProxiesBuilder) :
    (∀ builder' : TrustedProxiesBuilder, builder'.chainHeaderOrder = builder.chainHeaderOrder →
      ((∀ m, coverage builder'.canonicalRules m = coverage builder.canonicalRules m) ∨
        Rearranged builder.canonicalRules builder'.canonicalRules ∨
        (∀ r ∈ builder.rules, OneFamily r.cidr) ∧ Rearranged builder.rules builder'.rules) →
      ((∃ e, builder.build env = .error e) ∧ ∃ e, builder'.build env' = .error e) ∨
        ∃ config, builder.build env = .ok config ∧ builder'.build env' = .ok config) ∧
    ∀ config, builder.build env = .ok config →
      (∀ m, coverage config.trustedProxyRules m = coverage builder.canonicalRules m) ∧
      build env' ⟨config.trustedProxyRules, builder.chainHeaderOrder⟩ = .ok config ∧
      ∀ builder' : TrustedProxiesBuilder,
        (∀ m, coverage builder'.canonicalRules m = coverage builder.canonicalRules m) →
        config.trustedProxyRules.length ≤ builder'.rules.length := by
  constructor
  · intro builder' ho h
    have hc : ∀ m, coverage builder'.canonicalRules m = coverage builder.canonicalRules m := by
      rcases h with h | h | ⟨hf, h⟩
      · exact h
      · exact fun m => (h.coverage_eq m).symm
      · exact fun m => ((h.canonical hf).2.coverage_eq m).symm
    cases hb : builder.build env with
    | ok config => exact Or.inr ⟨config, rfl, build_eq_of_coverage hk hj hk' hj' hc ho hb⟩
    | error e =>
      cases hb' : builder'.build env' with
      | error e' => exact Or.inl ⟨⟨e, rfl⟩, e', rfl⟩
      | ok config =>
        have := build_eq_of_coverage hk' hj' hk hj (fun m => (hc m).symm) ho.symm hb'
        rw [hb] at this
        simp at this
  · intro config hb
    obtain ⟨rules, rfl, hs, hn⟩ := build_normal hk hj hb
    refine ⟨hs.coverage, ?_, fun builder' hc => length_stored_le hn hs hc⟩
    refine build_eq_of_coverage hk hj hk' hj' (fun m => ?_) ?_ hb
    · rw [← hs.coverage m]
      exact congrArg (coverage · m) (canonicalRules_stored hn hs _)
    · rfl

theorem build_sample_reversed :
    build sampleEnv { sampleBuilder with rules := sampleBuilder.rules.reverse } =
      .ok sampleConfig := by
  have h := (build_canonical_form sampleEnv sampleEnv normalCombiners_exact
    normalCombiners_siblingFree normalCombiners_exact normalCombiners_siblingFree sampleBuilder).1
    { sampleBuilder with rules := sampleBuilder.rules.reverse } rfl
    (Or.inr (Or.inl (.perm ((List.reverse_perm _).symm.map _))))
  rcases h with ⟨⟨e, he⟩, -⟩ | ⟨config, hb, hb'⟩
  · rw [build_sample] at he
    simp at he
  · rw [hb', ← hb, build_sample]

end TrustedProxiesBuilder

end ClientAddr
