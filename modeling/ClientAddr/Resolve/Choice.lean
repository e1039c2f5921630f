import ClientAddr.Resolve.Probe

/-! # What a sender can choose

For every config and every socket peer, these are all the addresses that the headers
of a request can make the answer. An untrusted peer has no choice. Behind a trusted
proxy that names no client IP header, only addresses that are no proxies can be chosen.
-/

namespace ClientAddr

open Text

/-- The addresses that are an answer for the peer under some headers. -/
def choosable (config : ClientIpConfig) (peer : IpAddr) : Set IpAddr :=
  Set.range fun headers => (config.resolveClientIp headers peer).ip

/-- The addresses that the trust model leaves to the headers. -/
def leftToHeaders (config : ClientIpConfig) (peer : IpAddr) : Set IpAddr :=
  match config.trust with
  | .noProxy => ∅
  | .trustedProxies _ order =>
    match config.ruleFor peer with
    | none => ∅
    | some rule =>
      if rule.clientIpHeader.isSome then {x | x.Canonical}
      else if order = [] then ∅
      else {x | x.Canonical ∧ config.isTrustedProxy x = false}
  | .trustAllProxies mode =>
    if mode.clientIpHeader = none ∧ mode.chainHeaderOrder = [] then ∅ else {x | x.Canonical}

variable {config : ClientIpConfig} {peer x : IpAddr} {h : ChainHeader}
  {order : List ChainHeader}

theorem resolveClientIp_no_headers (config : ClientIpConfig) (peer : IpAddr) :
    config.resolveClientIp [] peer = ⟨canonicalIp peer, .socket⟩ := by
  rcases config.resolveClientIp_cases peer with hs | ⟨pick, hs⟩
  · exact hs []
  · have hc : configuredIp [] (config.clientIpHeaderFor peer) = none :=
      configuredIp_of_absent fun _ _ => rfl
    have hf : firstCarried [] config.chainHeaderOrder = none := by
      simp [firstCarried, HeaderMap.getAll]
    rw [hs, resolveFrom_of_unusable hc, chainAnswer, hf]
    rfl

theorem resolveFrom_nil (headers : HeaderMap) (socketIp : IpAddr)
    (pick : List ChainEntry → Option IpAddr) :
    resolveFrom headers socketIp none [] pick = ⟨socketIp, .socket⟩ := rfl

section Upper

variable {headers : HeaderMap}

theorem scan_answer_cases {rule : TrustedProxyRule} {rules : List TrustedProxyRule}
    (ht : config.trust = .trustedProxies rules order) (hr : config.ruleFor peer = some rule)
    (hn : rule.clientIpHeader = none) :
    (config.resolveClientIp headers peer).ip = canonicalIp peer ∨
      config.isTrustedProxy (config.resolveClientIp headers peer).ip = false := by
  rw [ClientIpConfig.resolveClientIp_of_ruleFor ht hr, hn, resolveFrom_of_unusable rfl]
  cases ha : chainAnswer headers order (firstNonTrustedFromRight config) with
  | none => exact Or.inl rfl
  | some answer => exact Or.inr (chainAnswer_scan_eq_some ha).1

theorem choosable_subset (hx : x ∈ choosable config peer) :
    x = canonicalIp peer ∨ x ∈ leftToHeaders config peer := by
  obtain ⟨headers, rfl⟩ := hx
  have hcan := config.canonical_resolveClientIp headers peer
  simp only [leftToHeaders]
  cases ht : config.trust with
  | noProxy =>
    left
    simp only [ClientIpConfig.resolveClientIp, ht]
  | trustedProxies rules order =>
    cases hr : config.ruleFor peer with
    | none =>
      left
      rw [ClientIpConfig.resolveClientIp_of_not_covered ht hr]
    | some rule =>
      simp only
      split_ifs with hh ho
      · exact Or.inr hcan
      · left
        rw [ClientIpConfig.resolveClientIp_of_ruleFor ht hr, Option.not_isSome_iff_eq_none.mp hh,
          ho, resolveFrom_nil]
      · exact (scan_answer_cases ht hr (Option.not_isSome_iff_eq_none.mp hh)).imp_right
          fun hn => ⟨hcan, hn⟩
  | trustAllProxies mode =>
    simp only
    split_ifs with hm
    · left
      simp only [ClientIpConfig.resolveClientIp, ht, resolveClientIpTrustingAllProxies, hm,
        resolveFrom_nil]
    · exact Or.inr hcan

end Upper

section Lower

theorem exists_configuredIp (m : HeaderName) (hx : x.Canonical) :
    ∃ headers, configuredIp headers (some m) = some x := by
  have ht : HopText x.display x := .plain x.parse_display
  have hr : x.display.all isReadableChar = true :=
    readable_of_printable fun c hc => toNat_of_hopChar (ht.hopChar c hc)
  have hl : (HeaderMap.getAll (.ofLine m x.display hr) m).getLast? =
      some (.ofReadable x.display hr) := by
    simp [HeaderMap.ofLine, HeaderMap.getAll]
  have hp : IpAddr.parse (trim x.display) = some x := by
    rw [ht.trimmed.trim]
    exact x.parse_display
  refine ⟨.ofLine m x.display hr, ?_⟩
  rw [configuredIp, Option.bind_some,
    configuredClientIpHeader_of_last hl (HeaderValue.toStr_ofReadable _ _) hp, canonicalIp,
    hx.toCanonical]

theorem mem_choosable_of_clientIpHeader {m : HeaderName} (hx : x.Canonical)
    (hm : config.clientIpHeaderFor peer = some m) : x ∈ choosable config peer := by
  obtain ⟨headers, hc⟩ := exists_configuredIp m hx
  rw [← hm] at hc
  obtain ⟨n, -, hn⟩ := ClientIpConfig.resolveClientIp_of_configured hc
  exact ⟨headers, congrArg ClientIp.ip hn⟩

theorem exists_select_replicate (selection : TrustAllChainIpSelection) (x : IpAddr) :
    ∃ n, ∀ k, n < k → selectTrustAllChainIp selection (List.replicate k (.Ip x)) = some x := by
  simp only [selectTrustAllChainIp_eq]
  cases selection with
  | leftmost =>
    exact ⟨0, fun k hk => by rw [selectedEntry, List.head?_replicate, if_neg hk.ne']; rfl⟩
  | rightmost =>
    exact ⟨0, fun k hk => by rw [selectedEntry, List.getLast?_replicate, if_neg hk.ne']; rfl⟩
  | skipRightmostHops hops => exact ⟨hops, fun k hk => by simp [selectedEntry, hk, ChainEntry.ip]⟩

/-- Behind a trusted peer a chain header can name any address that is no proxy. -/
theorem exists_scan_answer {rules : List TrustedProxyRule} {rule : TrustedProxyRule}
    (ht : config.trust = .trustedProxies rules (h :: order)) (hr : config.ruleFor peer = some rule)
    (hx : x.Canonical) (hp : config.isTrustedProxy x = false) :
    ∃ headers, config.resolveClientIp headers peer = ⟨x, .chainHeader h.asHeaderName⟩ := by
  obtain ⟨headers, hh⟩ := exists_chain h [x] (by simpa using hx) (List.cons_ne_nil _ _)
  have hn : trustedHop config (.Ip x) = false := hp
  refine ⟨headers, ?_⟩
  rw [ClientIpConfig.resolveClientIp_of_ruleFor ht hr, hh, List.map_singleton,
    ← List.nil_append [_], firstNonTrustedFromRight_concat hn]
  rfl

theorem exists_select_answer {mode : TrustAllProxyMode} (ho : mode.chainHeaderOrder = h :: order)
    (hx : x.Canonical) (peer : IpAddr) :
    ∃ headers, ClientIpConfig.resolveClientIp ⟨.trustAllProxies mode⟩ headers peer =
      ⟨x, .chainHeader h.asHeaderName⟩ := by
  obtain ⟨n, hn⟩ := exists_select_replicate mode.chainIpSelection x
  obtain ⟨headers, hh⟩ := exists_chain h (List.replicate (n + 1) x)
    (fun y hy => List.eq_of_mem_replicate hy ▸ hx) (List.cons_ne_nil _ _)
  refine ⟨headers, ?_⟩
  rw [ClientIpConfig.resolveClientIp_trustAll, ho, hh, List.map_replicate, hn _ n.lt_succ_self]
  rfl

theorem subset_choosable (hx : x ∈ leftToHeaders config peer) : x ∈ choosable config peer := by
  simp only [leftToHeaders] at hx
  cases ht : config.trust with
  | noProxy => simp [ht] at hx
  | trustedProxies rules order =>
    cases hr : config.ruleFor peer with
    | none => simp [ht, hr] at hx
    | some rule =>
      simp only [ht, hr] at hx
      split_ifs at hx with hh ho
      · obtain ⟨m, hm⟩ := Option.isSome_iff_exists.mp hh
        apply mem_choosable_of_clientIpHeader hx
        simp only [ClientIpConfig.clientIpHeaderFor, ht, hr, Option.bind_some]
        exact hm
      · exact absurd hx (Set.notMem_empty x)
      · obtain ⟨h, order, rfl⟩ := List.exists_cons_of_ne_nil ho
        obtain ⟨headers, ha⟩ := exists_scan_answer ht hr hx.1 hx.2
        exact ⟨headers, congrArg ClientIp.ip ha⟩
  | trustAllProxies mode =>
    simp only [ht] at hx
    split_ifs at hx with hm
    · exact absurd hx (Set.notMem_empty x)
    · obtain rfl : config = ⟨.trustAllProxies mode⟩ := by
        cases config
        exact congrArg _ ht
      cases hh : mode.clientIpHeader with
      | some m => exact mem_choosable_of_clientIpHeader hx hh
      | none =>
        have ho : mode.chainHeaderOrder ≠ [] := fun ho => hm ⟨hh, ho⟩
        obtain ⟨h, order, ho'⟩ := List.exists_cons_of_ne_nil ho
        obtain ⟨headers, ha⟩ := exists_select_answer ho' hx peer
        exact ⟨headers, congrArg ClientIp.ip ha⟩

end Lower

/--
The addresses that the headers of a request can make the answer are the socket peer and those that
the trust model leaves to the headers, no others.
-/
theorem choosable_eq (config : ClientIpConfig) (peer : IpAddr) :
    choosable config peer = insert (canonicalIp peer) (leftToHeaders config peer) := by
  ext x
  constructor
  · exact choosable_subset
  · rintro (rfl | hx)
    · exact ⟨[], by simp only [resolveClientIp_no_headers]⟩
    · exact subset_choosable hx

end ClientAddr
