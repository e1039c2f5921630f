import ClientAddr.Model.Builder
import ClientAddr.Rules.Rewrite

/-! # Overlapping rules

The sweep of `ensureNoCrossMetadataOverlap` is the laminar sweep. A build fails
exactly when two rules of different metadata cover one socket peer.
-/

namespace ClientAddr

open Laminar

namespace TrustedProxyRule

def span (rule : TrustedProxyRule) : NonemptyInterval IpAddr := rule.cidr.span

theorem nested (r s : TrustedProxyRule) : Nested r.span s.span := IpCidr.nested r.cidr s.cidr

end TrustedProxyRule

variable {rules : List TrustedProxyRule}

open TrustedProxyRule

/-- The loop is the laminar sweep over the intervals of the rules. -/
theorem sweep_eq (o : Option TrustedProxyRule) (l : List TrustedProxyRule) :
    sweep o l = match clash span metadata o l with
      | none => .ok ()
      | some (left, right) => .error (.overlappingTrustedProxyRules left right) := by
  induction l generalizing o with
  | nil => cases o <;> rfl
  | cons rule order ih =>
    cases o with
    | none => exact ih (some rule)
    | some outer =>
      rw [sweep, clash]
      by_cases hr : rule.cidr.firstAddress ≤ outer.cidr.lastAddress
      · have hr' : rule.span.fst ≤ outer.span.snd := hr
        rw [if_pos hr, if_pos hr']
        split_ifs with hm
        · rfl
        · exact ih (some outer)
      · have hr' : ¬ rule.span.fst ≤ outer.span.snd := hr
        rw [if_neg hr, if_neg hr']
        exact ih (some rule)

theorem precedes_of_sweepKey_le {r s : TrustedProxyRule} (h : sweepKey r ≤ sweepKey s) :
    Precedes r.span s.span := by
  rcases Prod.Lex.toLex_le_toLex.mp h with h | ⟨h, h'⟩
  · exact Or.inl h
  · exact Or.inr ⟨h, OrderDual.toDual_le_toDual.mp h'⟩

theorem pairwise_precedes (rules : List TrustedProxyRule) :
    (sortByKey sweepKey rules).Pairwise fun r s => Precedes r.span s.span :=
  (pairwise_sortByKey sweepKey rules).imp precedes_of_sweepKey_le

/-- The check accepts rules exactly when overlapping ones agree on their metadata. -/
theorem ensure_eq_ok_iff :
    ensureNoCrossMetadataOverlap rules = .ok () ↔
      ∀ r ∈ rules, ∀ s ∈ rules, Agree span metadata r s := by
  have hc : clash span metadata none (sortByKey sweepKey rules) = none ↔ _ :=
    clash_eq_none_iff nested (pairwise_precedes rules)
  simp only [mem_sortByKey] at hc
  rw [← hc, ensureNoCrossMetadataOverlap, sweep_eq]
  cases clash span metadata none (sortByKey sweepKey rules) with
  | none => simp
  | some p => simp

theorem ensure_eq_error {left right : TrustedProxyRule}
    (h : ensureNoCrossMetadataOverlap rules = .error (.overlappingTrustedProxyRules left right)) :
    left ∈ rules ∧ right ∈ rules ∧ left.metadata ≠ right.metadata ∧ right.span ≤ left.span := by
  rw [ensureNoCrossMetadataOverlap, sweep_eq] at h
  cases hc : clash span metadata none (sortByKey sweepKey rules) with
  | none => simp [hc] at h
  | some p =>
    obtain ⟨l, r⟩ := p
    simp only [hc, Except.error.injEq,
      ClientIpConfigBuildError.overlappingTrustedProxyRules.injEq] at h
    obtain ⟨rfl, rfl⟩ := h
    obtain ⟨hl, hr, hne, hle⟩ := clash_sound nested (o := none) (pairwise_precedes rules) hc
    exact ⟨(mem_sortByKey sweepKey).mp hl, (mem_sortByKey sweepKey).mp hr, hne, hle⟩

namespace TrustedProxiesBuilder

variable {env : BuildEnv} {builder : TrustedProxiesBuilder}

theorem mem_canonicalRules {r : TrustedProxyRule} :
    r ∈ builder.canonicalRules ↔
      ∃ s ∈ builder.rules, { s with cidr := canonicalCidr s.cidr } = r := List.mem_map

theorem build_eq_ok_iff {config : ClientIpConfig} :
    builder.build env = .ok config ↔
      ensureNoCrossMetadataOverlap builder.canonicalRules = .ok () ∧
        config = ⟨.trustedProxies (sortByKey (fun rule => rule.cidr.firstAddress)
          (mergeRulesByMetadata env builder.canonicalRules)) builder.chainHeaderOrder⟩ := by
  cases h : ensureNoCrossMetadataOverlap builder.canonicalRules with
  | error e => simp [build, h, bind, Except.bind]
  | ok u => simp [build, h, bind, Except.bind, pure, Except.pure, eq_comm]

theorem build_eq_error_iff {e : ClientIpConfigBuildError} :
    builder.build env = .error e ↔
      ensureNoCrossMetadataOverlap builder.canonicalRules = .error e := by
  cases h : ensureNoCrossMetadataOverlap builder.canonicalRules with
  | error e => simp [build, h, bind, Except.bind]
  | ok u => simp [build, h, bind, Except.bind, pure, Except.pure]

theorem exists_canonical_of_meets {r s : TrustedProxyRule} (hr : r ∈ builder.canonicalRules)
    (hs : s ∈ builder.canonicalRules) (h : Meets r.span s.span) :
    ∃ x, IpAddr.Canonical x ∧ x ∈ r.span ∧ x ∈ s.span := by
  obtain ⟨r', -, rfl⟩ := mem_canonicalRules.mp hr
  obtain ⟨s', -, rfl⟩ := mem_canonicalRules.mp hs
  rcases nested _ _ h with hle | hle
  · obtain ⟨x, hx, hc⟩ := exists_canonical_mem r'.cidr
    exact ⟨x, hc, hx, ⟨hle.1.trans hx.1, hx.2.trans hle.2⟩⟩
  · obtain ⟨x, hx, hc⟩ := exists_canonical_mem s'.cidr
    exact ⟨x, hc, ⟨hle.1.trans hx.1, hx.2.trans hle.2⟩, hx⟩

/-- The rewritten rule covers the socket peer `x`. -/
def Covers (r : TrustedProxyRule) (x : IpAddr) : Prop :=
  (canonicalCidr r.cidr).contains (canonicalIp x) = true

theorem covers_of_canonical {r : TrustedProxyRule} {x : IpAddr} (hx : x.Canonical)
    (h : x ∈ (canonicalCidr r.cidr).span) : Covers r x := by
  rwa [Covers, canonicalIp, hx.toCanonical, IpCidr.contains_iff]

theorem build_eq_error {left right : TrustedProxyRule}
    (h : builder.build env = .error (.overlappingTrustedProxyRules left right)) :
    left ∈ builder.canonicalRules ∧ right ∈ builder.canonicalRules ∧
      left.metadata ≠ right.metadata ∧ right.span ≤ left.span :=
  ensure_eq_error (build_eq_error_iff.mp h)

theorem exists_conflict_of_error {e : ClientIpConfigBuildError} (h : builder.build env = .error e) :
    ∃ x, ∃ r ∈ builder.rules, ∃ s ∈ builder.rules,
      r.metadata ≠ s.metadata ∧ Covers r x ∧ Covers s x := by
  obtain ⟨left, right⟩ := e
  obtain ⟨hl, hr, hne, hle⟩ := build_eq_error h
  have hm : Meets left.span right.span :=
    ⟨right.span.fst, ⟨hle.1, right.span.fst_le_snd.trans hle.2⟩, ⟨le_rfl, right.span.fst_le_snd⟩⟩
  obtain ⟨x, hx, hxl, hxr⟩ := exists_canonical_of_meets hl hr hm
  obtain ⟨l, hl', rfl⟩ := mem_canonicalRules.mp hl
  obtain ⟨r, hr', rfl⟩ := mem_canonicalRules.mp hr
  exact ⟨x, l, hl', r, hr', hne, covers_of_canonical hx hxl, covers_of_canonical hx hxr⟩

theorem metadata_eq_of_build {config : ClientIpConfig} {x : IpAddr} {r s : TrustedProxyRule}
    (hb : builder.build env = .ok config) (hr : r ∈ builder.rules) (hs : s ∈ builder.rules)
    (hxr : Covers r x) (hxs : Covers s x) : r.metadata = s.metadata := by
  have hr' := mem_canonicalRules.mpr ⟨r, hr, rfl⟩
  have hs' := mem_canonicalRules.mpr ⟨s, hs, rfl⟩
  apply ensure_eq_ok_iff.mp (build_eq_ok_iff.mp hb).1 _ hr' _ hs'
  exact ⟨canonicalIp x, IpCidr.contains_iff.mp hxr, IpCidr.contains_iff.mp hxs⟩

/--
A build fails exactly when some socket peer would have two policies, and the two reported rules are
the wider and the narrower of two rewritten rules that differ in metadata.
-/
theorem build_fails_iff_conflict (env : BuildEnv) (builder : TrustedProxiesBuilder) :
    ((∃ e, builder.build env = .error e) ↔
      ∃ x, ∃ r ∈ builder.rules, ∃ s ∈ builder.rules,
        r.metadata ≠ s.metadata ∧ Covers r x ∧ Covers s x) ∧
    ∀ left right,
      builder.build env = .error (.overlappingTrustedProxyRules left right) →
        (∃ r ∈ builder.rules, left = { r with cidr := canonicalCidr r.cidr }) ∧
        (∃ s ∈ builder.rules, right = { s with cidr := canonicalCidr s.cidr }) ∧
        left.metadata ≠ right.metadata ∧
        ∀ x, right.cidr.contains x = true → left.cidr.contains x = true := by
  refine ⟨⟨?_, ?_⟩, ?_⟩
  · rintro ⟨e, h⟩
    exact exists_conflict_of_error h
  · rintro ⟨x, r, hr, s, hs, hne, hxr, hxs⟩
    cases hb : builder.build env with
    | error e => exact ⟨e, rfl⟩
    | ok config => exact absurd (metadata_eq_of_build hb hr hs hxr hxs) hne
  · intro left right h
    obtain ⟨hl, hr, hne, hle⟩ := build_eq_error h
    obtain ⟨l, hl', rfl⟩ := mem_canonicalRules.mp hl
    obtain ⟨r, hr', rfl⟩ := mem_canonicalRules.mp hr
    refine ⟨⟨l, hl', rfl⟩, ⟨r, hr', rfl⟩, hne, fun x hx => ?_⟩
    rw [IpCidr.contains_iff] at hx ⊢
    exact ⟨hle.1.trans hx.1, hx.2.trans hle.2⟩

end TrustedProxiesBuilder

end ClientAddr
