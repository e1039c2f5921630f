import ClientAddr.Resolve.Orders

/-! # What answers tell about a trust-all config

The answers of a trust-all config determine its client IP header, the chain headers
that count and, if there are any, which hop is picked. A trust-all config that reads
a chain header answers like no config that trusts proxies by network.
-/

namespace ClientAddr

variable {s s' : TrustAllChainIpSelection} {mode : TrustAllProxyMode} {headers : HeaderMap}
  {peer : IpAddr} {h : ChainHeader} {order order' : List ChainHeader} {n : ℕ}

theorem eq_leftmost_of_skips (hs : s.skips = none) : s = .leftmost := by
  cases s with
  | leftmost => rfl
  | rightmost => cases hs
  | skipRightmostHops n => cases hs

theorem selectTrustAllChainIp_congr (hs : s.skips = s'.skips) :
    selectTrustAllChainIp s = selectTrustAllChainIp s' := by
  cases hn : s'.skips with
  | none => rw [eq_leftmost_of_skips hn, eq_leftmost_of_skips (hs.trans hn)]
  | some n =>
    funext entries
    rw [selectTrustAllChainIp_of_skips hn, selectTrustAllChainIp_of_skips (hs.trans hn)]

/-- Chains of one address behind another one tell how many hops are skipped. -/
theorem skips_of_same (hs : ∀ xs : List IpAddr, (∀ x ∈ xs, x.Canonical) → xs ≠ [] →
      selectTrustAllChainIp s (xs.map .Ip) = selectTrustAllChainIp s' (xs.map .Ip))
    (hn : s.skips = some n) : s'.skips = some n := by
  let x : IpAddr := .v4 0
  let y : IpAddr := .v4 1
  have hxy : x ≠ y := by decide
  have hpick : ∀ k m, (((x :: List.replicate k y).map ChainEntry.Ip).reverse[m]?).bind
      ChainEntry.ip = if m < k then some y else if m = k then some x else none := by
    intro k m
    rw [List.map_cons, List.map_replicate, List.reverse_cons, List.reverse_replicate,
      List.getElem?_append, List.length_replicate, List.getElem?_replicate]
    split_ifs with hlt heq
    · rfl
    · rw [heq, Nat.sub_self]
      rfl
    · rw [List.getElem?_eq_none (by simp; omega)]
      rfl
  have hcan : ∀ k, ∀ z ∈ x :: List.replicate k y, z.Canonical := by
    intro k z hz
    rcases List.mem_cons.mp hz with rfl | hz
    · trivial
    · rw [List.eq_of_mem_replicate hz]
      trivial
  cases hm : s'.skips with
  | none =>
    have h := hs _ (hcan (n + 1)) (List.cons_ne_nil _ _)
    rw [selectTrustAllChainIp_of_skips hn, hpick, if_pos n.lt_succ_self,
      eq_leftmost_of_skips hm] at h
    exact absurd (Option.some.inj h).symm hxy
  | some m =>
    have h := hs _ (hcan n) (List.cons_ne_nil _ _)
    rw [selectTrustAllChainIp_of_skips hn, selectTrustAllChainIp_of_skips hm, hpick, hpick,
      if_neg (lt_irrefl n), if_pos rfl] at h
    split_ifs at h with hlt heq
    · exact absurd (Option.some.inj h) hxy
    · rw [heq]

theorem finds_select (s : TrustAllChainIpSelection) (x : IpAddr) :
    Finds (selectTrustAllChainIp s) x where
  address := exists_select_replicate s x
  nothing := by
    intro k
    rw [selectTrustAllChainIp_eq]
    cases he : selectedEntry s (List.replicate k .Opaque) with
    | none => rfl
    | some e =>
      rw [List.eq_of_mem_replicate (mem_of_selectedEntry he)]
      rfl

theorem pick_eq_of_answer {ip ip' : Option IpAddr} {name : HeaderName}
    (ha : (ip.map fun ip => (⟨ip, .chainHeader name⟩ : ClientIp)).getD ⟨peer, .socket⟩ =
      (ip'.map fun ip => (⟨ip, .chainHeader name⟩ : ClientIp)).getD ⟨peer, .socket⟩) :
    ip = ip' := by
  cases ip with
  | none =>
    cases ip' with
    | none => rfl
    | some y => cases congrArg ClientIp.source ha
  | some x =>
    cases ip' with
    | none => cases congrArg ClientIp.source ha
    | some y => exact congrArg some (congrArg ClientIp.ip ha)

theorem effectiveOrder_eq_cons (ho : effectiveOrder (h :: order) = effectiveOrder order') :
    ∃ rest, order' = h :: rest := by
  cases order' with
  | nil => cases ho
  | cons h' rest => exact ⟨rest, by rw [(List.cons.inj ho).1]⟩

/--
Two trust-all configs answer every request alike exactly when they name the same client IP header,
the same chain headers count, in the same order, and, if there are any, they skip as many hops.
-/
theorem answers_determine_mode (mode mode' : TrustAllProxyMode) :
    (∀ headers peer, ClientIpConfig.resolveClientIp ⟨.trustAllProxies mode⟩ headers peer =
      ClientIpConfig.resolveClientIp ⟨.trustAllProxies mode'⟩ headers peer) ↔
    mode.clientIpHeader = mode'.clientIpHeader ∧
      effectiveOrder mode.chainHeaderOrder = effectiveOrder mode'.chainHeaderOrder ∧
      (mode.chainHeaderOrder = [] ∨
        mode.chainIpSelection.skips = mode'.chainIpSelection.skips) := by
  constructor
  · intro hs
    have ho : effectiveOrder mode.chainHeaderOrder = effectiveOrder mode'.chainHeaderOrder :=
      effectiveOrder_eq_of_same (x := .v4 0) (hs · (.v4 0)) trivial (finds_select _ _)
        (finds_select _ _)
    refine ⟨ClientIpConfig.clientIpHeaderFor_eq_of_same (hs · (.v4 0)), ho, ?_⟩
    cases hc : mode.chainHeaderOrder with
    | nil => exact Or.inl rfl
    | cons h order =>
      rw [hc] at ho
      obtain ⟨order', hc'⟩ := effectiveOrder_eq_cons ho
      have hpick : ∀ xs : List IpAddr, (∀ x ∈ xs, x.Canonical) → xs ≠ [] →
          selectTrustAllChainIp mode.chainIpSelection (xs.map .Ip) =
            selectTrustAllChainIp mode'.chainIpSelection (xs.map .Ip) := by
        intro xs hx hne
        obtain ⟨headers, hh⟩ := exists_chain h xs hx hne
        have ha := hs headers (.v4 0)
        rw [ClientIpConfig.resolveClientIp_trustAll, ClientIpConfig.resolveClientIp_trustAll, hc,
          hc', hh, hh] at ha
        exact pick_eq_of_answer ha
      right
      ext n
      constructor
      · exact skips_of_same hpick
      · exact skips_of_same fun xs hx hne => (hpick xs hx hne).symm
  · rintro ⟨hh, ho, hn⟩ headers peer
    rw [ClientIpConfig.resolveClientIp_trustAll, ClientIpConfig.resolveClientIp_trustAll, hh]
    apply resolveFrom_congr_chain
    intro _
    rw [← chainAnswer_effectiveOrder, ← chainAnswer_effectiveOrder _ mode'.chainHeaderOrder, ← ho]
    rcases hn with hn | hn
    · rw [hn]
      rfl
    · rw [selectTrustAllChainIp_congr hn]

theorem source_ne_of_no_chain (ho : mode.chainHeaderOrder = []) (name : HeaderName) :
    (ClientIpConfig.resolveClientIp ⟨.trustAllProxies mode⟩ headers peer).source ≠
      .chainHeader name := by
  rw [ClientIpConfig.resolveClientIp_trustAll, ho]
  intro hs
  rw [resolveFrom_of_unusable (configuredIp_of_chain_source hs)] at hs
  cases hs

theorem chainAnswer_scan_eq_none {config : ClientIpConfig} (hp : config.isTrustedProxy peer = true)
    (hd : order = [] ∨ ∀ peer x, config.isTrustedProxy peer = true →
      config.isTrustedProxy x = true) :
    chainAnswer headers order (firstNonTrustedFromRight config) = none := by
  rcases hd with rfl | hd
  · rfl
  · rw [Option.eq_none_iff_forall_ne_some]
    intro answer ha
    have hn := (chainAnswer_scan_eq_some ha).1
    rw [hd peer _ hp] at hn
    cases hn

/--
A config that trusts proxies by network answers every request like a trust-all config exactly when
every peer may set the trust-all config's client IP header, the trust-all config reads no chain
header, and the other one leaves no answer to its chain headers.
-/
theorem same_as_trust_all_iff (rules : List TrustedProxyRule) (order : List ChainHeader)
    (mode : TrustAllProxyMode) :
    (∀ headers peer, ClientIpConfig.resolveClientIp ⟨.trustedProxies rules order⟩ headers peer =
      ClientIpConfig.resolveClientIp ⟨.trustAllProxies mode⟩ headers peer) ↔
    (∀ peer, ClientIpConfig.clientIpHeaderFor ⟨.trustedProxies rules order⟩ peer =
      mode.clientIpHeader) ∧
      mode.chainHeaderOrder = [] ∧
      (order = [] ∨ ∀ peer x,
        ClientIpConfig.isTrustedProxy ⟨.trustedProxies rules order⟩ peer = true →
        ClientIpConfig.isTrustedProxy ⟨.trustedProxies rules order⟩ x = true) := by
  constructor
  · intro hs
    have hnil : mode.chainHeaderOrder = [] := by
      by_contra hne
      obtain ⟨h, rest, ho⟩ := List.exists_cons_of_ne_nil hne
      -- a hop that names a peer would be an answer for that peer, so the peer is and is no proxy
      obtain ⟨headers, ha⟩ := exists_select_answer (x := .v4 0) ho trivial (.v4 0)
      rw [← hs] at ha
      obtain ⟨hp, hn⟩ := ClientIpConfig.of_chain_source rfl (congrArg ClientIp.source ha)
      rw [ha, hp] at hn
      cases hn
    refine ⟨fun peer => ClientIpConfig.clientIpHeaderFor_eq_of_same (hs · peer), hnil, ?_⟩
    cases ho : order with
    | nil => exact Or.inl rfl
    | cons h rest =>
      subst ho
      refine Or.inr fun peer x hp => ?_
      by_contra hx
      rw [Bool.not_eq_true, ← ClientIpConfig.isTrustedProxy_canonicalIp] at hx
      obtain ⟨rule, hr⟩ := Option.isSome_iff_exists.mp hp
      obtain ⟨headers, ha⟩ := exists_scan_answer rfl hr (canonical_canonicalIp x) hx
      rw [hs] at ha
      exact source_ne_of_no_chain hnil _ (congrArg ClientIp.source ha)
  · rintro ⟨hh, hnil, hd⟩ headers peer
    rw [ClientIpConfig.resolveClientIp_trustAll, ← hh peer, hnil]
    cases hr : ClientIpConfig.ruleFor ⟨.trustedProxies rules order⟩ peer with
    | none =>
      rw [ClientIpConfig.resolveClientIp_of_not_covered rfl hr, ClientIpConfig.clientIpHeaderFor,
        hr]
      rfl
    | some rule =>
      have hp : ClientIpConfig.isTrustedProxy ⟨.trustedProxies rules order⟩ peer = true :=
        Option.isSome_iff_exists.mpr ⟨rule, hr⟩
      rw [ClientIpConfig.resolveClientIp_of_ruleFor rfl hr, ClientIpConfig.clientIpHeaderFor, hr]
      exact resolveFrom_congr_chain fun _ => chainAnswer_scan_eq_none hp hd

end ClientAddr
