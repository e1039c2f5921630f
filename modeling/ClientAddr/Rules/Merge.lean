import ClientAddr.Cidr.Combine
import ClientAddr.Net.Family
import ClientAddr.Rules.Overlap

/-! # Merging keeps coverage

Rules are grouped by metadata and every group is handed to the combiners. The
merged rules cover the same addresses under each metadata value as the rules
before, and they do not meet when the rules before agreed.
-/

namespace ClientAddr

open Laminar TrustedProxyRule

/-- A combiner returns disjoint networks that cover exactly what was pushed. -/
def CombinesExactly {w : ℕ} (f : List (Cidr w) → List (Cidr w)) : Prop :=
  ∀ l, Cidr.Disjoint (f l) ∧ Cidr.cover (f l) = Cidr.cover l

/-- A combiner returns no two halves of one network. -/
def JoinsSiblings {w : ℕ} (f : List (Cidr w) → List (Cidr w)) : Prop := ∀ l, Cidr.SiblingFree (f l)

structure Combiners.Exact (k : Combiners) : Prop where
  ipv4 : CombinesExactly k.ipv4
  ipv6 : CombinesExactly k.ipv6

structure Combiners.SiblingFree (k : Combiners) : Prop where
  ipv4 : JoinsSiblings k.ipv4
  ipv6 : JoinsSiblings k.ipv6

def normalCombiners : Combiners := ⟨Cidr.combine, Cidr.combine⟩

theorem combinesExactly_combine (w : ℕ) : CombinesExactly (Cidr.combine (w := w)) := fun l =>
  ⟨(Cidr.combine_normal l).disjoint, Cidr.cover_combine l⟩

theorem normalCombiners_exact : normalCombiners.Exact :=
  ⟨combinesExactly_combine 32, combinesExactly_combine 128⟩

theorem normalCombiners_siblingFree : normalCombiners.SiblingFree :=
  ⟨fun l => (Cidr.combine_normal l).siblingFree, fun l => (Cidr.combine_normal l).siblingFree⟩

def insertionOrder {κ ν : Type} : HashOrder κ ν := ⟨id, fun _ => .refl _⟩

section Groups

variable {groups : List (TrustedProxyMetadata × List IpCidr)} {rule : TrustedProxyRule}
  {m : TrustedProxyMetadata} {c : IpCidr}

def InGroup (groups : List (TrustedProxyMetadata × List IpCidr)) (m : TrustedProxyMetadata)
    (c : IpCidr) : Prop := ∃ cs, (m, cs) ∈ groups ∧ c ∈ cs

theorem inGroup_cons {k : TrustedProxyMetadata} {cs : List IpCidr} :
    InGroup ((k, cs) :: groups) m c ↔ (m = k ∧ c ∈ cs) ∨ InGroup groups m c := by
  unfold InGroup
  constructor
  · rintro ⟨cs', hm, hc⟩
    rcases List.mem_cons.mp hm with h | h
    · obtain ⟨rfl, rfl⟩ := Prod.mk.inj h
      exact Or.inl ⟨rfl, hc⟩
    · exact Or.inr ⟨cs', h, hc⟩
  · rintro (⟨rfl, hc⟩ | ⟨cs', hm, hc⟩)
    · exact ⟨cs, List.mem_cons_self, hc⟩
    · exact ⟨cs', List.mem_cons_of_mem _ hm, hc⟩

theorem inGroup_pushGroup :
    InGroup (pushGroup groups rule) m c ↔
      InGroup groups m c ∨ (m = rule.metadata ∧ c = rule.cidr) := by
  induction groups with
  | nil =>
    rw [pushGroup, inGroup_cons]
    simp [InGroup]
  | cons g groups ih =>
    obtain ⟨k, cs⟩ := g
    rw [pushGroup]
    split_ifs with hk
    · rw [inGroup_cons, inGroup_cons, List.mem_append, List.mem_singleton, ← hk]
      tauto
    · rw [inGroup_cons, inGroup_cons, ih]
      tauto

theorem mem_keys_pushGroup :
    m ∈ (pushGroup groups rule).map Prod.fst ↔ m ∈ groups.map Prod.fst ∨ m = rule.metadata := by
  induction groups with
  | nil => simp [pushGroup]
  | cons g groups ih =>
    obtain ⟨k, cs⟩ := g
    rw [pushGroup]
    split_ifs with hk
    · simp only [List.map_cons, List.mem_cons, ← hk]
      tauto
    · simp only [List.map_cons, List.mem_cons, ih]
      tauto

theorem nodup_keys_pushGroup (h : (groups.map Prod.fst).Nodup) :
    ((pushGroup groups rule).map Prod.fst).Nodup := by
  induction groups with
  | nil => simp [pushGroup]
  | cons g groups ih =>
    obtain ⟨k, cs⟩ := g
    obtain ⟨hk', hg⟩ := List.nodup_cons.mp h
    rw [pushGroup]
    split_ifs with hk
    · exact h
    · refine List.nodup_cons.mpr ⟨fun hm => ?_, ih hg⟩
      rcases mem_keys_pushGroup.mp hm with hm | hm
      · exact hk' hm
      · exact hk hm

theorem inGroup_foldl {rules : List TrustedProxyRule} :
    InGroup (rules.foldl pushGroup groups) m c ↔ InGroup groups m c ∨ ⟨c, m⟩ ∈ rules := by
  induction rules generalizing groups with
  | nil => simp
  | cons r rules ih =>
    rw [List.foldl_cons, ih, inGroup_pushGroup, List.mem_cons, or_assoc]
    have hr : (m = r.metadata ∧ c = r.cidr) ↔ (⟨c, m⟩ : TrustedProxyRule) = r := by
      cases r
      simp [and_comm]
    rw [hr]

theorem nodup_keys_foldl {rules : List TrustedProxyRule} (h : (groups.map Prod.fst).Nodup) :
    ((rules.foldl pushGroup groups).map Prod.fst).Nodup := by
  induction rules generalizing groups with
  | nil => exact h
  | cons r rules ih => exact ih (nodup_keys_pushGroup h)

theorem nodup_groups (rules : List TrustedProxyRule) :
    ((rules.foldl pushGroup []).map Prod.fst).Nodup := nodup_keys_foldl List.nodup_nil

end Groups

section MergeCidrs

variable {k : Combiners} {cs : List IpCidr} {x : IpAddr}

def covered (cs : List IpCidr) : Set IpAddr := {x | ∃ c ∈ cs, x ∈ c.span}

section Family

variable {w : ℕ} (F : Family w) {f : List (Cidr w) → List (Cidr w)} {a : Fin (2 ^ w)}

theorem Family.addr_mem_covered : F.addr a ∈ covered cs ↔ a ∈ Cidr.cover (F.pushed cs) := by
  constructor
  · rintro ⟨c, hc, hx⟩
    obtain ⟨p, rfl, ha⟩ := F.addr_mem_span.mp hx
    exact ⟨p, F.mem_pushed.mpr hc, ha⟩
  · rintro ⟨p, hp, ha⟩
    exact ⟨F.cidr p, F.mem_pushed.mp hp, F.addr_mem_span_cidr.mpr ha⟩

theorem Family.addr_mem_covered_congr {cs' : List IpCidr} (hf : CombinesExactly f)
    (h : ∀ p, F.cidr p ∈ cs' ↔ p ∈ f (F.pushed cs)) :
    F.addr a ∈ covered cs' ↔ F.addr a ∈ covered cs := by
  rw [F.addr_mem_covered, F.addr_mem_covered, ← (hf (F.pushed cs)).2]
  simp only [Cidr.mem_cover, F.mem_pushed, h]

end Family

theorem v4_mem_mergeCidrs {p : Cidr 32} :
    .v4 p ∈ mergeCidrs k cs ↔ p ∈ k.ipv4 (Family.ipv4.pushed cs) := by
  simp only [mergeCidrs, List.mem_append, List.mem_map, IpCidr.v4.injEq, exists_eq_right,
    reduceCtorEq, and_false, exists_false, or_false]
  rfl

theorem v6_mem_mergeCidrs {p : Cidr 128} :
    .v6 p ∈ mergeCidrs k cs ↔ p ∈ k.ipv6 (Family.ipv6.pushed cs) := by
  simp only [mergeCidrs, List.mem_append, List.mem_map, IpCidr.v6.injEq, exists_eq_right,
    reduceCtorEq, and_false, exists_false, false_or]
  rfl

theorem covered_mergeCidrs (hk : k.Exact) : covered (mergeCidrs k cs) = covered cs := by
  ext x
  cases x with
  | v4 a => exact Family.ipv4.addr_mem_covered_congr hk.ipv4 fun _ => v4_mem_mergeCidrs
  | v6 a => exact Family.ipv6.addr_mem_covered_congr hk.ipv6 fun _ => v6_mem_mergeCidrs

theorem pairwise_mergeCidrs (hk : k.Exact) :
    (mergeCidrs k cs).Pairwise fun c d => ¬ Meets c.span d.span := by
  refine List.pairwise_append.mpr ⟨?_, ?_, ?_⟩
  · exact Family.ipv4.pairwise_map_cidr (hk.ipv4 _).1
  · exact Family.ipv6.pairwise_map_cidr (hk.ipv6 _).1
  · rintro c hc d hd ⟨x, hp, hq⟩
    obtain ⟨p, -, rfl⟩ := List.mem_map.mp hc
    obtain ⟨q, -, rfl⟩ := List.mem_map.mp hd
    cases x with
    | v4 a => exact absurd hq IpCidr.v4_not_mem_span
    | v6 a => exact absurd hp IpCidr.v6_not_mem_span

end MergeCidrs

section MergeRules

variable {env : BuildEnv} {rules : List TrustedProxyRule} {m : TrustedProxyMetadata} {x : IpAddr}

/-- The addresses that rules with the given metadata cover. -/
def coverage (rules : List TrustedProxyRule) (m : TrustedProxyMetadata) : Set IpAddr :=
  {x | ∃ r ∈ rules, r.metadata = m ∧ x ∈ r.span}

theorem coverage_congr {rules' : List TrustedProxyRule} (h : ∀ r, r ∈ rules ↔ r ∈ rules') :
    coverage rules m = coverage rules' m := by
  ext x
  simp only [coverage, Set.mem_ofPred_eq, h]

theorem mem_mergeRules {r : TrustedProxyRule} :
    r ∈ mergeRulesByMetadata env rules ↔
      ∃ cs, (r.metadata, cs) ∈ rules.foldl pushGroup [] ∧ r.cidr ∈ mergeCidrs env.combiners cs := by
  simp only [mergeRulesByMetadata, List.mem_flatMap, (env.order.perm _).mem_iff, List.mem_map]
  constructor
  · rintro ⟨⟨m, cs⟩, hg, c, hc, rfl⟩
    exact ⟨cs, hg, hc⟩
  · rintro ⟨cs, hg, hc⟩
    exact ⟨(r.metadata, cs), hg, r.cidr, hc, rfl⟩

theorem eq_of_mem_groups {groups : List (TrustedProxyMetadata × List IpCidr)}
    (h : (groups.map Prod.fst).Nodup) {cs cs' : List IpCidr} (hcs : (m, cs) ∈ groups)
    (hcs' : (m, cs') ∈ groups) : cs = cs' :=
  congrArg Prod.snd (List.inj_on_of_nodup_map h hcs hcs' rfl)

theorem covered_group {cs : List IpCidr} (h : (m, cs) ∈ rules.foldl pushGroup []) :
    covered cs = coverage rules m := by
  have hnd := nodup_groups rules
  have hin : ∀ c, c ∈ cs ↔ ⟨c, m⟩ ∈ rules := by
    intro c
    have hg : InGroup (rules.foldl pushGroup []) m c ↔ ⟨c, m⟩ ∈ rules := by
      rw [inGroup_foldl]
      simp [InGroup]
    rw [← hg]
    constructor
    · exact fun hc => ⟨cs, h, hc⟩
    · rintro ⟨cs', h', hc⟩
      rwa [eq_of_mem_groups hnd h h']
  ext x
  constructor
  · rintro ⟨c, hc, hx⟩
    exact ⟨⟨c, m⟩, (hin c).mp hc, rfl, hx⟩
  · rintro ⟨⟨c, m'⟩, hr, rfl, hx⟩
    exact ⟨c, (hin c).mpr hr, hx⟩

theorem coverage_mergeRules (hk : env.combiners.Exact) :
    coverage (mergeRulesByMetadata env rules) m = coverage rules m := by
  ext x
  constructor
  · rintro ⟨r, hr, rfl, hx⟩
    obtain ⟨cs, hg, hc⟩ := mem_mergeRules.mp hr
    rw [← covered_group hg, ← covered_mergeCidrs hk]
    exact ⟨r.cidr, hc, hx⟩
  · rintro ⟨r, hr, rfl, hx⟩
    have hin : InGroup (rules.foldl pushGroup []) r.metadata r.cidr := inGroup_foldl.mpr (Or.inr hr)
    obtain ⟨cs, hg, hc⟩ := hin
    have hxc : x ∈ covered (mergeCidrs env.combiners cs) := by
      rw [covered_mergeCidrs hk]
      exact ⟨r.cidr, hc, hx⟩
    obtain ⟨c, hc', hx'⟩ := hxc
    exact ⟨⟨c, r.metadata⟩, mem_mergeRules.mpr ⟨cs, hg, hc'⟩, rfl, hx'⟩

/-- Widening inside a group does not reach into another group. -/
theorem pairwise_mergeRules (hk : env.combiners.Exact)
    (ha : ∀ r ∈ rules, ∀ s ∈ rules, Agree span metadata r s) :
    (mergeRulesByMetadata env rules).Pairwise fun r s => ¬ Meets r.span s.span := by
  refine List.pairwise_flatMap.mpr ⟨?_, ?_⟩
  · rintro ⟨m, cs⟩ -
    exact List.pairwise_map.mpr (pairwise_mergeCidrs hk)
  · have hnd : ((env.order.iter (rules.foldl pushGroup [])).map Prod.fst).Nodup :=
      ((env.order.perm _).map Prod.fst).nodup_iff.mpr (nodup_groups rules)
    apply (List.pairwise_map.mp hnd).imp_of_mem
    rintro ⟨m, cs⟩ ⟨m', cs'⟩ hg hg' hne r hr s hs ⟨x, hxr, hxs⟩
    obtain ⟨c, hc, rfl⟩ := List.mem_map.mp hr
    obtain ⟨d, hd, rfl⟩ := List.mem_map.mp hs
    rw [(env.order.perm _).mem_iff] at hg hg'
    have hx : x ∈ coverage rules m := by
      rw [← covered_group hg, ← covered_mergeCidrs hk]
      exact ⟨c, hc, hxr⟩
    have hx' : x ∈ coverage rules m' := by
      rw [← covered_group hg', ← covered_mergeCidrs hk]
      exact ⟨d, hd, hxs⟩
    obtain ⟨p, hp, rfl, hxp⟩ := hx
    obtain ⟨q, hq, rfl, hxq⟩ := hx'
    exact hne (ha p hp q hq ⟨x, hxp, hxq⟩)

end MergeRules

end ClientAddr
