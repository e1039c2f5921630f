import ClientAddr.Rules.Lookup

/-! # What a failed build reports

The first rule of the report is the widest rule around the conflict, and the second
one is the rule that completes a conflict first in the order of the sweep. The two
networks therefore do not depend on the order in which the rules were added.
-/

namespace ClientAddr

open Laminar TrustedProxyRule

/-- The report of a failed check, in terms of the rules alone. -/
structure Reported (rules : List TrustedProxyRule) (left right : TrustedProxyRule) : Prop where
  left_mem : left ∈ rules
  right_mem : right ∈ rules
  metadata_ne : left.metadata ≠ right.metadata
  right_le : right.span ≤ left.span
  widest : ∀ r ∈ rules, Meets r.span left.span → r.span ≤ left.span
  first : ∀ r ∈ rules, ∀ s ∈ rules, r.metadata ≠ s.metadata → Meets r.span s.span →
    sweepKey right ≤ max (sweepKey r) (sweepKey s)

variable {rules rules' : List TrustedProxyRule} {left right left' right' : TrustedProxyRule}

theorem IpCidr.span_injective : Function.Injective IpCidr.span := by
  intro c d h
  have hfst : c.firstAddress = d.firstAddress := congrArg (fun s => s.fst) h
  cases c with
  | v4 p =>
    cases d with
    | v4 q =>
      have hpq := le_antisymm (IpCidr.span_v4_le.mp h.le) (IpCidr.span_v4_le.mp h.ge)
      rw [hpq]
    | v6 q => cases hfst
  | v6 p =>
    cases d with
    | v4 q => cases hfst
    | v6 q =>
      have hpq := le_antisymm (IpCidr.span_v6_le.mp h.le) (IpCidr.span_v6_le.mp h.ge)
      rw [hpq]

theorem cidr_eq_of_sweepKey_eq {r s : TrustedProxyRule} (h : sweepKey r = sweepKey s) :
    r.cidr = s.cidr := by
  obtain ⟨hf, hl⟩ := Prod.mk.inj (toLex.injective h)
  exact IpCidr.span_injective (NonemptyInterval.ext (Prod.ext hf (OrderDual.toDual.injective hl)))

theorem sweepKey_le_of_le {r s : TrustedProxyRule} (h : r.span ≤ s.span) :
    sweepKey s ≤ sweepKey r := by
  rw [sweepKey, sweepKey, Prod.Lex.toLex_le_toLex]
  rcases h.1.lt_or_eq with hlt | heq
  · exact Or.inl hlt
  · exact Or.inr ⟨heq, OrderDual.toDual_le_toDual.mpr h.2⟩

theorem meets_of_le {r s : TrustedProxyRule} (h : r.span ≤ s.span) : Meets s.span r.span :=
  ⟨r.span.fst, ⟨h.1, r.span.fst_le_snd.trans h.2⟩, ⟨le_rfl, r.span.fst_le_snd⟩⟩

theorem sweepKey_le_of_clash {r s : TrustedProxyRule}
    (hc : clash span metadata none (sortByKey sweepKey rules) = some (left, right))
    (hr : r ∈ rules) (hs : s ∈ rules) (hne : r.metadata ≠ s.metadata)
    (hm : Meets r.span s.span) : sweepKey right ≤ max (sweepKey r) (sweepKey s) := by
  obtain ⟨l₁, l₂, hl, hn⟩ := exists_prefix_of_clash hc
  have hsorted := pairwise_sortByKey sweepKey rules
  have hprec := pairwise_precedes rules
  rw [hl] at hsorted hprec
  have hagree := (clash_eq_none_iff nested (List.pairwise_append.mp hprec).1).mp hn
  have hmem : ∀ {a : TrustedProxyRule}, a ∈ rules → a ∈ l₁ ∨ sweepKey right ≤ sweepKey a := by
    intro a ha
    rw [← mem_sortByKey sweepKey, hl, List.mem_append, List.mem_cons] at ha
    rcases ha with ha | rfl | ha
    · exact Or.inl ha
    · exact Or.inr le_rfl
    · have hcons := (List.pairwise_append.mp hsorted).2.1
      exact Or.inr ((List.pairwise_cons.mp hcons).1 a ha)
  rcases hmem hr with hr | hr
  · rcases hmem hs with hs | hs
    · exact absurd (hagree r hr s hs hm) hne
    · exact le_max_of_le_right hs
  · exact le_max_of_le_left hr

theorem ensure_reported
    (h : ensureNoCrossMetadataOverlap rules = .error (.overlappingTrustedProxyRules left right)) :
    Reported rules left right := by
  obtain ⟨hl, hr, hne, hle⟩ := ensure_eq_error h
  have hc : clash span metadata none (sortByKey sweepKey rules) = some (left, right) := by
    rw [ensureNoCrossMetadataOverlap, sweep_eq] at h
    cases hc : clash span metadata none (sortByKey sweepKey rules) with
    | none => simp [hc] at h
    | some p =>
      simp only [hc, Except.error.injEq,
        ClientIpConfigBuildError.overlappingTrustedProxyRules.injEq] at h
      exact congrArg some (Prod.ext h.1 h.2)
  refine ⟨hl, hr, hne, hle, fun r hm hmeets => ?_, fun r hm s hs => sweepKey_le_of_clash hc hm hs⟩
  exact le_of_meets_of_clash nested (pairwise_precedes rules) hc ((mem_sortByKey sweepKey).mpr hm)
    hmeets

namespace Reported

theorem sweepKey_right_le (h : Reported rules left right) (h' : Reported rules' left' right')
    (hm : ∀ r ∈ rules', r ∈ rules) : sweepKey right ≤ sweepKey right' := by
  have hle := h.first left' (hm _ h'.left_mem) right' (hm _ h'.right_mem) h'.metadata_ne
    (meets_of_le h'.right_le)
  rwa [max_eq_right (sweepKey_le_of_le h'.right_le)] at hle

/-- The networks of a report are determined by the set of rules. -/
theorem cidr_eq (h : Reported rules left right) (h' : Reported rules' left' right')
    (hm : ∀ r, r ∈ rules' ↔ r ∈ rules) : left'.cidr = left.cidr ∧ right'.cidr = right.cidr := by
  have hright : right'.cidr = right.cidr := cidr_eq_of_sweepKey_eq
    (le_antisymm (h'.sweepKey_right_le h fun r => (hm r).mpr)
      (h.sweepKey_right_le h' fun r => (hm r).mp))
  have hspan : right'.span = right.span := congrArg IpCidr.span hright
  -- both widest rules contain the second network
  obtain ⟨x, hx, hx'⟩ := meets_of_le h.right_le
  have hmeets : Meets left'.span left.span :=
    ⟨x, ⟨h'.right_le.1.trans (hspan ▸ hx'.1), (hspan ▸ hx'.2).trans h'.right_le.2⟩, hx⟩
  have hle := h.widest left' ((hm _).mp h'.left_mem) hmeets
  have hge := h'.widest left ((hm _).mpr h.left_mem) hmeets.symm
  exact ⟨IpCidr.span_injective (le_antisymm hle hge), hright⟩

end Reported

namespace TrustedProxiesBuilder

variable {builder : TrustedProxiesBuilder}

theorem exists_error_of_overlap (env : BuildEnv) (hl : left ∈ builder.canonicalRules)
    (hr : right ∈ builder.canonicalRules) (hne : left.metadata ≠ right.metadata)
    (hle : right.span ≤ left.span) :
    ∃ left' right', builder.build env = .error (.overlappingTrustedProxyRules left' right') := by
  cases hb : builder.build env with
  | ok c =>
    have hagree := ensure_eq_ok_iff.mp (build_eq_ok_iff.mp hb).1
    exact absurd (hagree left hl right hr (meets_of_le hle)) hne
  | error e =>
    obtain ⟨left', right'⟩ := e
    exact ⟨left', right', rfl⟩

/--
A failed build reports the widest rule around a conflict, and the rule that completes a conflict
first. With the same rules in another order or added more than once, the build fails with the same
two networks.
-/
theorem build_reports_first_conflict (env : BuildEnv) (builder : TrustedProxiesBuilder)
    (left right : TrustedProxyRule)
    (h : builder.build env = .error (.overlappingTrustedProxyRules left right)) :
    Reported builder.canonicalRules left right ∧
    ∀ (env' : BuildEnv) (builder' : TrustedProxiesBuilder),
      (∀ r, r ∈ builder'.rules ↔ r ∈ builder.rules) →
      ∃ left' right', builder'.build env' = .error (.overlappingTrustedProxyRules left' right') ∧
        left'.cidr = left.cidr ∧ right'.cidr = right.cidr := by
  have hrep := ensure_reported (build_eq_error_iff.mp h)
  refine ⟨hrep, fun env' builder' hm => ?_⟩
  have hcan : ∀ r, r ∈ builder'.canonicalRules ↔ r ∈ builder.canonicalRules := by
    intro r
    simp only [mem_canonicalRules, hm]
  obtain ⟨left', right', hb⟩ := exists_error_of_overlap env' ((hcan _).mpr hrep.left_mem)
    ((hcan _).mpr hrep.right_mem) hrep.metadata_ne hrep.right_le
  have hrep' := ensure_reported (build_eq_error_iff.mp hb)
  exact ⟨left', right', hb, hrep.cidr_eq hrep' hcan⟩

def clashingBuilder : TrustedProxiesBuilder := sampleBuilder.proxy (.v4 (Cidr.all 32))

theorem build_clashingBuilder : clashingBuilder.build sampleEnv =
    .error (.overlappingTrustedProxyRules
      (.new (.v4 (Cidr.all 32)))
      (.withXRealIp (.v4 ⟨Ipv4Addr.new 10 0 0 0, 25, by decide, by decide +kernel⟩))) := by
  decide +kernel

/-- Whatever the order, 10.0.0.0/25 inside 0.0.0.0/0 is reported, and not the other half. -/
theorem clashingBuilder_reports : ∃ left right,
    build sampleEnv { clashingBuilder with rules := clashingBuilder.rules.reverse } =
      .error (.overlappingTrustedProxyRules left right) ∧
    left.cidr = .v4 (Cidr.all 32) ∧
      right.cidr = .v4 ⟨Ipv4Addr.new 10 0 0 0, 25, by decide, by decide +kernel⟩ := by
  obtain ⟨left, right, he, hl, hr⟩ :=
    (build_reports_first_conflict _ _ _ _ build_clashingBuilder).2 sampleEnv
      { clashingBuilder with rules := clashingBuilder.rules.reverse } (by simp)
  exact ⟨left, right, he, hl, hr⟩

end TrustedProxiesBuilder

end ClientAddr
