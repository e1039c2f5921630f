import ClientAddr.Model.Errors
import ClientAddr.Net.Display
import ClientAddr.Rules.Report

/-! # The message of a failed build

A header name has no blanks and no parentheses, so the parts of the message can be
told from each other. Two builds that fail with one message fail for one conflict.
-/

namespace ClientAddr

open Net Text TrustedProxyRule

/-- Networks are written without blanks, and each one in its own way. -/
structure NamesNetworks (network : IpCidr → Text) : Prop where
  injective : Function.Injective network
  blank_not_mem : ∀ c, ' ' ∉ network c

variable {network : IpCidr → Text} {r s : TrustedProxyRule} {t u t' u' : Text} {d : Char}

theorem append_cons_inj (ht : d ∉ t) (ht' : d ∉ t') (h : t ++ d :: u = t' ++ d :: u') :
    t = t' ∧ u = u' := by
  have hs := congrArg (splitOnce d) h
  rw [splitOnce_append ht, splitOnce_append ht'] at hs
  exact Prod.mk.inj (Option.some.inj hs)

theorem HeaderName.not_mem_asStr (n : HeaderName) (hd : isNameChar d = false) : d ∉ n.asStr := by
  intro hm
  have := List.all_eq_true.mp n.valid.2 d hm
  rw [hd] at this
  cases this

theorem paren_not_mem_describe (r : TrustedProxyRule) : ')' ∉ describeClientIpHeader r := by
  unfold describeClientIpHeader
  cases r.clientIpHeader with
  | none => decide
  | some n => exact n.not_mem_asStr (by decide)

theorem describe_injective (h : describeClientIpHeader r = describeClientIpHeader s) :
    r.metadata = s.metadata := by
  have none_ne : ∀ n : HeaderName, n.asStr ≠ "no client IP header".toList := fun n hn =>
    n.not_mem_asStr (d := ' ') (by decide) (by rw [hn]; decide)
  obtain ⟨c, ⟨m⟩⟩ := r
  obtain ⟨c', ⟨m'⟩⟩ := s
  simp only [describeClientIpHeader, clientIpHeader] at h
  cases m with
  | none =>
    cases m' with
    | none => rfl
    | some n' => exact absurd h.symm (none_ne n')
  | some n =>
    cases m' with
    | none => exact absurd h (none_ne n)
    | some n' =>
      obtain ⟨t, hv⟩ := n
      obtain ⟨t', hv'⟩ := n'
      obtain rfl : t = t' := h
      rfl

/-- One rule of the message, and what follows it, can be read off. -/
theorem NamesNetworks.rule_eq (hn : NamesNetworks network)
    (h : network r.cidr ++ ' ' :: '(' :: (describeClientIpHeader r ++ ')' :: t) =
      network s.cidr ++ ' ' :: '(' :: (describeClientIpHeader s ++ ')' :: t')) :
    r = s ∧ t = t' := by
  obtain ⟨hc, hrest⟩ := append_cons_inj (hn.blank_not_mem _) (hn.blank_not_mem _) h
  obtain ⟨hd, ht⟩ := append_cons_inj (paren_not_mem_describe r) (paren_not_mem_describe s)
    (List.cons.inj hrest).2
  obtain ⟨c, m⟩ := r
  obtain ⟨c', m'⟩ := s
  obtain rfl : c = c' := hn.injective hc
  obtain rfl : m = m' := describe_injective hd
  exact ⟨rfl, ht⟩

theorem ClientIpConfigBuildError.display_eq (left right : TrustedProxyRule) :
    display network (.overlappingTrustedProxyRules left right) =
      "trusted proxy CIDRs overlap but use different client IP headers: ".toList ++
        (network left.cidr ++ ' ' :: '(' :: (describeClientIpHeader left ++ ')' ::
          (" overlaps ".toList ++ (network right.cidr ++ ' ' :: '(' ::
            (describeClientIpHeader right ++ ')' :: []))))) := by
  have hopen : " (".toList = [' ', '('] := rfl
  have hclose : ")".toList = [')'] := rfl
  have hnext : ") overlaps ".toList = ')' :: " overlaps ".toList := rfl
  unfold display
  simp only [hopen, hclose, hnext, List.append_assoc, List.cons_append, List.nil_append]

theorem NamesNetworks.display_injective (hn : NamesNetworks network) :
    Function.Injective (ClientIpConfigBuildError.display network) := by
  rintro ⟨left, right⟩ ⟨left', right'⟩ h
  rw [ClientIpConfigBuildError.display_eq, ClientIpConfigBuildError.display_eq,
    List.append_cancel_left_eq] at h
  obtain ⟨rfl, hrest⟩ := hn.rule_eq h
  rw [List.append_cancel_left_eq] at hrest
  obtain ⟨rfl, -⟩ := hn.rule_eq hrest
  rfl

/--
The message of a failed build tells two rules. Every build with both of them fails, and every build
that fails with this message has both of them and fails for them.
-/
theorem TrustedProxiesBuilder.message_names_conflict (network : IpCidr → Text)
    (hn : NamesNetworks network) (env : BuildEnv) (builder : TrustedProxiesBuilder)
    (e : ClientIpConfigBuildError) (hb : builder.build env = .error e) :
    ∃ left right, e = .overlappingTrustedProxyRules left right ∧
      left ∈ builder.canonicalRules ∧ right ∈ builder.canonicalRules ∧
      (∀ env' builder', left ∈ canonicalRules builder' → right ∈ canonicalRules builder' →
        ∃ e', builder'.build env' = .error e') ∧
      ∀ env' builder' e', build env' builder' = .error e' → e'.display network = e.display network →
        e' = e ∧ left ∈ builder'.canonicalRules ∧ right ∈ builder'.canonicalRules := by
  obtain ⟨left, right⟩ := e
  obtain ⟨hl, hr, hne, hle⟩ := ensure_eq_error (build_eq_error_iff.mp hb)
  refine ⟨left, right, rfl, hl, hr, fun env' builder' hl hr => ?_,
    fun env' builder' e' hb' he => ?_⟩
  · obtain ⟨left', right', hb'⟩ := exists_error_of_overlap env' hl hr hne hle
    exact ⟨_, hb'⟩
  · obtain rfl := hn.display_injective he
    obtain ⟨hl', hr', -⟩ := ensure_eq_error (build_eq_error_iff.mp hb')
    exact ⟨rfl, hl', hr'⟩

def IpCidr.isHostAddress : IpCidr → Bool
  | v4 c => c.networkLength == 32
  | v6 c => c.networkLength == 128

/-- An address and a prefix length, which is left out for a network of one address. -/
def networkText (c : IpCidr) : Text :=
  c.firstAddress.display ++
    if c.isHostAddress then [] else '/' :: Nat.toDigits 10 c.networkLength

theorem IpAddr.display_injective : Function.Injective IpAddr.display := by
  intro x y h
  have hx := x.parse_display
  rw [h, y.parse_display] at hx
  exact (Option.some.inj hx).symm

theorem toDigits_injective : Function.Injective (Nat.toDigits 10) := by
  intro m n h
  have hread := congrArg (ofDigits 10) h
  rwa [ofDigits_toDigits (by omega) (by omega), ofDigits_toDigits (by omega) (by omega)] at hread

theorem IpCidr.eq_of_firstAddress {c d : IpCidr} (ha : c.firstAddress = d.firstAddress)
    (hl : c.networkLength = d.networkLength ∨ (c.isHostAddress = true ∧ d.isHostAddress = true)) :
    c = d := by
  cases c with
  | v4 c =>
    cases d with
    | v4 d =>
      refine congrArg v4 (Cidr.ext (IpAddr.v4.inj ha) ?_)
      simp only [networkLength, isHostAddress, beq_iff_eq] at hl
      omega
    | v6 d => cases ha
  | v6 c =>
    cases d with
    | v4 d => cases ha
    | v6 d =>
      refine congrArg v6 (Cidr.ext (IpAddr.v6.inj ha) ?_)
      simp only [networkLength, isHostAddress, beq_iff_eq] at hl
      omega

theorem splitOnce_networkText (c : IpCidr) : splitOnce '/' (networkText c) =
    if c.isHostAddress then none
    else some (c.firstAddress.display, Nat.toDigits 10 c.networkLength) := by
  have slash : '/' ∉ c.firstAddress.display := fun hm =>
    absurd (IpAddr.addrChar_of_parse c.firstAddress.parse_display '/' hm) (by decide)
  unfold networkText
  split_ifs
  · rw [List.append_nil, splitOnce_eq_none slash]
  · rw [splitOnce_append slash]

theorem networkText_injective : Function.Injective networkText := by
  intro c d h
  have hs := congrArg (splitOnce '/') h
  rw [splitOnce_networkText, splitOnce_networkText] at hs
  split_ifs at hs with hc hd
  · rw [networkText, networkText, if_pos hc, if_pos hd, List.append_nil, List.append_nil] at h
    exact IpCidr.eq_of_firstAddress (IpAddr.display_injective h) (Or.inr ⟨hc, hd⟩)
  · obtain ⟨ha, hl⟩ := Prod.mk.inj (Option.some.inj hs)
    exact IpCidr.eq_of_firstAddress (IpAddr.display_injective ha) (Or.inl (toDigits_injective hl))

theorem networkText_names : NamesNetworks networkText where
  injective := networkText_injective
  blank_not_mem := by
    intro c
    have hdisplay : ' ' ∉ c.firstAddress.display := fun hm =>
      absurd (IpAddr.addrChar_of_parse c.firstAddress.parse_display ' ' hm) (by decide)
    have hdigits : ' ' ∉ Nat.toDigits 10 c.networkLength := fun hm => by
      have := isDigit_of_mem_toDigits (by omega) (by omega) ' ' hm
      cases this
    unfold networkText
    rw [List.mem_append, not_or]
    refine ⟨hdisplay, ?_⟩
    split_ifs
    · simp
    · simp [hdigits]

namespace TrustedProxiesBuilder

/-- The networks 0.0.0.0/0 and 10.0.0.0/25 are named, and clash in other rules as well. -/
theorem clashingBuilder_message :
    (∃ e, clashingBuilder.build sampleEnv = .error e ∧ e.display networkText =
      ("trusted proxy CIDRs overlap but use different client IP headers: " ++
        "0.0.0.0/0 (no client IP header) overlaps 10.0.0.0/25 (x-real-ip)").toList) ∧
    ∃ e, build sampleEnv ⟨clashingBuilder.rules.reverse, []⟩ = .error e := by
  obtain ⟨left, right, he, hl, hr, hfails, -⟩ :=
    message_names_conflict networkText networkText_names sampleEnv clashingBuilder _
      build_clashingBuilder
  have hm : ∀ r, r ∈ canonicalRules ⟨clashingBuilder.rules.reverse, []⟩ ↔
      r ∈ clashingBuilder.canonicalRules := by simp [mem_canonicalRules]
  exact ⟨⟨_, build_clashingBuilder, by decide +kernel⟩,
    hfails sampleEnv ⟨clashingBuilder.rules.reverse, []⟩ ((hm left).mpr hl) ((hm right).mpr hr)⟩

end TrustedProxiesBuilder

end ClientAddr
