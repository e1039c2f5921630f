import ClientAddr.Resolve.Search

/-! # The scan as a positional pick

The scan from the right stops right before the longest suffix of trusted hops.
It therefore answers as the positional pick that skips as many hops as that
suffix has.
-/

namespace ClientAddr

def trustedHop (config : ClientIpConfig) : ChainEntry → Bool
  | .Ip ip => config.isTrustedProxy ip
  | .Opaque => false

/-- The number of hops in the longest suffix of trusted ones. -/
def trustedHops (config : ClientIpConfig) (entries : List ChainEntry) : ℕ :=
  (entries.rtakeWhile (trustedHop config)).length

variable {config : ClientIpConfig} {entries : List ChainEntry} {headers : HeaderMap}
  {order : List ChainHeader} {peer ip : IpAddr} {h : ChainHeader}

theorem firstNonTrusted_eq (config : ClientIpConfig) (l : List ChainEntry) :
    firstNonTrusted config l = (l.dropWhile (trustedHop config)).head?.bind ChainEntry.ip := by
  induction l with
  | nil => rfl
  | cons e l ih =>
    cases e with
    | Opaque => rfl
    | Ip ip =>
      rw [firstNonTrusted, List.dropWhile_cons]
      by_cases ht : config.isTrustedProxy ip = true
      · rw [if_pos ht, ih, trustedHop, if_pos ht]
      · rw [if_neg ht, trustedHop, if_neg ht]
        rfl

def selectedEntry (selection : TrustAllChainIpSelection) (entries : List ChainEntry) :
    Option ChainEntry :=
  match selection with
  | .leftmost => entries.head?
  | .rightmost => entries.getLast?
  | .skipRightmostHops hops => entries.reverse[hops]?

theorem selectTrustAllChainIp_eq (selection : TrustAllChainIpSelection)
    (entries : List ChainEntry) :
    selectTrustAllChainIp selection entries =
      (selectedEntry selection entries).bind ChainEntry.ip := by
  unfold selectTrustAllChainIp selectedEntry
  cases selection
  all_goals
    simp only
    split <;> simp_all [ChainEntry.ip]

theorem selectTrustAllChainIp_skip (n : ℕ) (entries : List ChainEntry) :
    selectTrustAllChainIp (.skipRightmostHops n) entries =
      entries.reverse[n]?.bind ChainEntry.ip := selectTrustAllChainIp_eq _ _

theorem getElem?_length_takeWhile {α : Type*} (p : α → Bool) (l : List α) :
    l[(l.takeWhile p).length]? = (l.dropWhile p).head? := by
  induction l with
  | nil => rfl
  | cons a l ih =>
    by_cases ha : p a = true
    · simpa [ha] using ih
    · simp [ha]

theorem firstNonTrustedFromRight_eq_select (config : ClientIpConfig) (entries : List ChainEntry) :
    firstNonTrustedFromRight config entries =
      selectTrustAllChainIp (.skipRightmostHops (trustedHops config entries)) entries := by
  rw [selectTrustAllChainIp_skip, trustedHops, List.rtakeWhile, List.length_reverse,
    getElem?_length_takeWhile, firstNonTrustedFromRight, firstNonTrusted_eq]

theorem head?_dropWhile_reverse {α : Type*} {p : α → Bool} {l : List α} {a : α} :
    (l.reverse.dropWhile p).head? = some a ↔
      p a = false ∧ ∃ s t, l = s ++ a :: t ∧ ∀ b ∈ t, p b = true := by
  constructor
  · intro h
    have hn := List.head?_dropWhile_not p l.reverse
    rw [h] at hn
    obtain ⟨t, ht⟩ := List.head?_eq_some_iff.mp h
    have hsplit : l.reverse.takeWhile p ++ a :: t = l.reverse := by
      rw [← ht, List.takeWhile_append_dropWhile]
    refine ⟨by simpa using hn, t.reverse, (l.reverse.takeWhile p).reverse, ?_, ?_⟩
    · have := congrArg List.reverse hsplit
      simpa using this.symm
    · intro b hb
      exact List.mem_takeWhile_imp (List.mem_reverse.mp hb)
  · rintro ⟨ha, s, t, rfl, ht⟩
    have ht' : ∀ b ∈ t.reverse, p b = true := fun b hb => ht b (List.mem_reverse.mp hb)
    rw [List.reverse_append, List.reverse_cons, List.append_assoc, List.dropWhile_append_of_pos ht']
    simp [ha]

/-- What the scan stops at: a hop with only trusted hops to its right. -/
theorem firstNonTrustedFromRight_eq_some :
    firstNonTrustedFromRight config entries = some ip ↔
      config.isTrustedProxy ip = false ∧
        ∃ l r, entries = l ++ .Ip ip :: r ∧ ∀ e ∈ r, trustedHop config e = true := by
  rw [firstNonTrustedFromRight, firstNonTrusted_eq, Option.bind_eq_some_iff]
  constructor
  · rintro ⟨e, he, hip⟩
    cases e with
    | Opaque => cases hip
    | Ip ip' =>
      obtain rfl := Option.some.inj hip
      exact head?_dropWhile_reverse.mp he
  · exact fun h => ⟨.Ip ip, head?_dropWhile_reverse.mpr h, rfl⟩

theorem firstNonTrustedFromRight_eq_none :
    firstNonTrustedFromRight config entries = none ↔
      (∀ e ∈ entries, trustedHop config e = true) ∨
        ∃ l r, entries = l ++ .Opaque :: r ∧ ∀ e ∈ r, trustedHop config e = true := by
  rw [firstNonTrustedFromRight, firstNonTrusted_eq]
  cases he : (entries.reverse.dropWhile (trustedHop config)).head? with
  | none =>
    rw [List.head?_eq_none_iff, List.dropWhile_eq_nil_iff] at he
    exact iff_of_true rfl (Or.inl fun e hm => he e (List.mem_reverse.mpr hm))
  | some e =>
    obtain ⟨hn, l, r, rfl, hr⟩ := head?_dropWhile_reverse.mp he
    cases e with
    | Opaque => exact iff_of_true rfl (Or.inr ⟨l, r, rfl, hr⟩)
    | Ip ip =>
      apply iff_of_false (by simp [ChainEntry.ip])
      rintro (hall | ho)
      · simp [hall (.Ip ip) (by simp)] at hn
      · have := head?_dropWhile_reverse.mpr ⟨rfl, ho⟩
        rw [he] at this
        cases this

/-- How many hops the scan walks past: none if no chain header is carried or it is unreadable. -/
def skippedHops (config : ClientIpConfig) (headers : HeaderMap) (order : List ChainHeader) : ℕ :=
  match carriedEntries headers order with
  | none => 0
  | some entries => trustedHops config entries

theorem chainAnswer_scan (config : ClientIpConfig) (headers : HeaderMap)
    (order : List ChainHeader) :
    chainAnswer headers order (firstNonTrustedFromRight config) =
      chainAnswer headers order
        (selectTrustAllChainIp (.skipRightmostHops (skippedHops config headers order))) := by
  apply chainAnswer_congr
  intro entries he
  rw [firstNonTrustedFromRight_eq_select, skippedHops, he]

theorem chainAnswer_scan_eq_some {answer : ClientIp}
    (ha : chainAnswer headers order (firstNonTrustedFromRight config) = some answer) :
    config.isTrustedProxy answer.ip = false ∧
      ∃ l r, carriedEntries headers order = some (l ++ .Ip answer.ip :: r) ∧
        ∀ e ∈ r, trustedHop config e = true := by
  obtain ⟨entries, he, hp, -⟩ := chainAnswer_eq_some ha
  obtain ⟨hn, l, r, rfl, ht⟩ := firstNonTrustedFromRight_eq_some.mp hp
  exact ⟨hn, l, r, he, ht⟩

theorem chainAnswer_scan_eq_none_iff :
    chainAnswer headers order (firstNonTrustedFromRight config) = none ↔
      carriedEntries headers order = none ∨
      ∃ entries, carriedEntries headers order = some entries ∧
        ((∀ e ∈ entries, trustedHop config e = true) ∨
          ∃ l r, entries = l ++ .Opaque :: r ∧ ∀ e ∈ r, trustedHop config e = true) := by
  rw [chainAnswer_eq_none_iff]
  simp only [← firstNonTrustedFromRight_eq_none]
  cases carriedEntries headers order <;> simp

/--
Behind a trusted peer whose client IP header does not answer, the scan and the trust-all pick that
skips the longest trusted suffix agree. The chain tells whether a hop answers, and which one.
-/
theorem ClientIpConfig.trusted_scan_eq_positional (rules : List TrustedProxyRule)
    (order : List ChainHeader) (headers : HeaderMap) (peer : IpAddr) (rule : TrustedProxyRule)
    (hr : ruleFor ⟨.trustedProxies rules order⟩ peer = some rule)
    (hu : configuredIp headers rule.clientIpHeader = none) :
    let config : ClientIpConfig := ⟨.trustedProxies rules order⟩
    let answer := config.resolveClientIp headers peer
    let k := skippedHops config headers order
    answer = resolveClientIp ⟨.trustAllProxies ⟨none, order, .skipRightmostHops k⟩⟩ headers peer ∧
    (∀ name, answer.source = .chainHeader name →
      config.isTrustedProxy answer.ip = false ∧
      ∃ l r, carriedEntries headers order = some (l ++ .Ip answer.ip :: r) ∧
        ∀ e ∈ r, trustedHop config e = true) ∧
    (answer = ⟨canonicalIp peer, .socket⟩ ↔
      carriedEntries headers order = none ∨
      ∃ entries, carriedEntries headers order = some entries ∧
        ((∀ e ∈ entries, trustedHop config e = true) ∨
          ∃ l r, entries = l ++ .Opaque :: r ∧ ∀ e ∈ r, trustedHop config e = true)) := by
  intro config answer k
  have ha : answer = (chainAnswer headers order (firstNonTrustedFromRight config)).getD
      ⟨canonicalIp peer, .socket⟩ := by
    rw [← resolveFrom_of_unusable hu]
    exact resolveClientIp_of_ruleFor rfl hr
  refine ⟨?_, ?_, ?_⟩
  · rw [ha, chainAnswer_scan]
    have hn : configuredIp headers none = none := rfl
    exact (resolveFrom_of_unusable hn).symm
  · intro name hs
    rw [ha] at hs ⊢
    exact chainAnswer_scan_eq_some (chainAnswer_of_source hs)
  · rw [ha, chainAnswer_getD_eq_socket_iff]
    exact chainAnswer_scan_eq_none_iff

namespace ClientIpConfig

def sampleHeaders : HeaderMap :=
  .ofLine ChainHeader.xForwardedFor.name "1.2.3.4, 203.0.113.7, 10.0.0.9".toList (by decide +kernel)

theorem sample_scan_eq_positional :
    (TrustedProxiesBuilder.sampleConfig.resolveClientIp sampleHeaders
      TrustedProxiesBuilder.sampleProxy).ip = TrustedProxiesBuilder.sampleClient := by
  have h := (trusted_scan_eq_positional TrustedProxiesBuilder.sampleRules defaultChainHeaderOrder
    sampleHeaders TrustedProxiesBuilder.sampleProxy
    (.withXRealIp (.v4 ⟨Ipv4Addr.new 10 0 0 0, 24, by decide, by decide⟩)) (by decide +kernel)
    (by decide +kernel)).1
  exact (congrArg ClientIp.ip h).trans (by decide +kernel)

end ClientIpConfig

end ClientAddr
