import ClientAddr.Resolve.Scan

/-! # Positions in a chain

Counting from the right, a hop keeps its position whatever a client wrote in
front of it. A trust-all config that skips fewer hops than the proxies add
therefore gives an answer that the client has no part in.
-/

namespace ClientAddr

open Text

/-- How many hops a selection skips from the right. -/
def TrustAllChainIpSelection.skips : TrustAllChainIpSelection → Option ℕ
  | leftmost => none
  | rightmost => some 0
  | skipRightmostHops n => some n

def hopAnswer (peer : IpAddr) (header : HeaderName) (text : Text) : ClientIp :=
  match parseIpLike text with
  | some ip => ⟨canonicalIp ip, .chainHeader header⟩
  | none => ⟨canonicalIp peer, .socket⟩

variable {selection : TrustAllChainIpSelection} {n : ℕ} {entries : List ChainEntry}
  {mode : TrustAllProxyMode} {headers : HeaderMap} {peer : IpAddr} {h : ChainHeader}
  {lines : List Text} {hops : List AddedHop}

theorem selectTrustAllChainIp_of_skips (hs : selection.skips = some n) :
    selectTrustAllChainIp selection entries = entries.reverse[n]?.bind ChainEntry.ip := by
  cases selection with
  | leftmost => cases hs
  | rightmost =>
    obtain rfl := Option.some.inj hs
    rw [← selectTrustAllChainIp_skip]
    simp only [selectTrustAllChainIp, ← List.head?_reverse, List.head?_eq_getElem?]
  | skipRightmostHops m =>
    obtain rfl := Option.some.inj hs
    exact selectTrustAllChainIp_skip m entries

theorem resolve_trustAll_of_lines (hm : mode.clientIpHeader = none)
    (hs : mode.chainIpSelection.skips = some n)
    (hf : firstCarried headers mode.chainHeaderOrder = some h)
    (hl : readLines (headers.getAll h.asHeaderName) = some lines) :
    ClientIpConfig.resolveClientIp ⟨.trustAllProxies mode⟩ headers peer =
      (((lines.flatMap (hopsOf h.kind)).reverse[n]?.bind ChainEntry.ip).map fun ip =>
        (⟨ip, .chainHeader h.asHeaderName⟩ : ClientIp)).getD ⟨canonicalIp peer, .socket⟩ := by
  have hc : configuredIp headers mode.clientIpHeader = none := by rw [hm]; rfl
  rw [ClientIpConfig.resolveClientIp_trustAll, resolveFrom_of_unusable hc,
    chainAnswer_of_lines hf hl, selectTrustAllChainIp_of_skips hs]

theorem chainEntry_answer (peer : IpAddr) (header : HeaderName) (text : Text) :
    ((chainEntry text).ip.map fun ip => (⟨ip, .chainHeader header⟩ : ClientIp)).getD
      ⟨canonicalIp peer, .socket⟩ = hopAnswer peer header text := by
  unfold chainEntry hopAnswer
  cases parseIpLike text <;> rfl

theorem getElem?_reverse_appendHops (hh : ∀ hop ∈ hops, ¬ Blank hop.text ∧ ',' ∉ hop.text)
    (hn : n < hops.reverse.length) :
    ((appendHops lines hops).flatMap listHops).reverse[n]? =
      some (chainEntry hops.reverse[n].text) := by
  have hn' : n < (hops.map fun hop => chainEntry hop.text).reverse.length := by simpa using hn
  rw [flatMap_appendHops lines hh, List.reverse_append, List.getElem?_append_left hn',
    ← List.map_reverse, List.getElem?_map, List.getElem?_eq_getElem hn]
  rfl

/--
Positional selection over a list header: the answer is the added hop at that position and so the
same for both prefixes, and with too few hops it is the socket peer.
-/
theorem positional_selection_ignores_client (mode : TrustAllProxyMode) (n : ℕ) (peer : IpAddr)
    (h : ChainHeader) (hm : mode.clientIpHeader = none)
    (hs : mode.chainIpSelection.skips = some n) (hk : h.kind = .xForwardedFor) :
    (∀ (hops : List AddedHop) (hn : n < hops.reverse.length),
      (∀ hop ∈ hops, ¬ Blank hop.text ∧ ',' ∉ hop.text) →
      ∀ headers lines headers' lines',
        firstCarried headers mode.chainHeaderOrder = some h →
        firstCarried headers' mode.chainHeaderOrder = some h →
        readLines (headers.getAll h.asHeaderName) = some (appendHops lines hops) →
        readLines (headers'.getAll h.asHeaderName) = some (appendHops lines' hops) →
        ClientIpConfig.resolveClientIp ⟨.trustAllProxies mode⟩ headers peer =
          ClientIpConfig.resolveClientIp ⟨.trustAllProxies mode⟩ headers' peer ∧
        ClientIpConfig.resolveClientIp ⟨.trustAllProxies mode⟩ headers peer =
          hopAnswer peer h.asHeaderName hops.reverse[n].text) ∧
    ∀ headers lines, firstCarried headers mode.chainHeaderOrder = some h →
      readLines (headers.getAll h.asHeaderName) = some lines →
      (lines.flatMap listParts).length ≤ n →
      ClientIpConfig.resolveClientIp ⟨.trustAllProxies mode⟩ headers peer =
        ⟨canonicalIp peer, .socket⟩ := by
  have hop_answer : ∀ (hops : List AddedHop) (hn : n < hops.reverse.length) headers lines,
      (∀ hop ∈ hops, ¬ Blank hop.text ∧ ',' ∉ hop.text) →
      firstCarried headers mode.chainHeaderOrder = some h →
      readLines (headers.getAll h.asHeaderName) = some (appendHops lines hops) →
      ClientIpConfig.resolveClientIp ⟨.trustAllProxies mode⟩ headers peer =
        hopAnswer peer h.asHeaderName hops.reverse[n].text := by
    intro hops hn headers lines hh hf hl
    rw [resolve_trustAll_of_lines hm hs hf hl, hk, hopsOf, getElem?_reverse_appendHops hh hn]
    exact chainEntry_answer _ _ _
  constructor
  · intro hops hn hh headers lines headers' lines' hf hf' hl hl'
    rw [hop_answer hops hn headers lines hh hf hl, hop_answer hops hn headers' lines' hh hf' hl']
    exact ⟨rfl, rfl⟩
  · intro headers lines hf hl hle
    have hlen : (lines.flatMap listHops).reverse[n]? = none := by
      apply List.getElem?_eq_none
      rw [List.length_reverse]
      unfold listHops
      rw [← List.map_flatMap, List.length_map]
      exact hle
    rw [resolve_trustAll_of_lines hm hs hf hl, hk, hopsOf, hlen]
    rfl

/-- 203.0.113.10 behind the forged hop 6.6.6.6. -/
def forgedHeaders : HeaderMap :=
  .ofLine ChainHeader.xForwardedFor.name "6.6.6.6, 203.0.113.10".toList (by decide +kernel)

/-- 203.0.113.10 behind a hop without a name and a blank part. -/
def unnamedHeaders : HeaderMap :=
  .ofLine ChainHeader.xForwardedFor.name "unknown,, 203.0.113.10".toList (by decide +kernel)

theorem sample_position_ignores_client :
    ClientIpConfig.resolveClientIp ⟨.trustAllProxies {}⟩ forgedHeaders (.v4 0) =
      ⟨.v4 (Ipv4Addr.new 203 0 113 10), .chainHeader ChainHeader.xForwardedFor.name⟩ := by
  have h := (positional_selection_ignores_client {} 0 (.v4 0) .xForwardedFor rfl rfl rfl).1
    [⟨true, " 203.0.113.10".toList⟩] (by decide) (by decide) forgedHeaders ["6.6.6.6".toList]
    unnamedHeaders ["unknown,".toList] (by decide +kernel) (by decide +kernel) (by decide +kernel)
    (by decide +kernel)
  exact h.2.trans (by decide +kernel)

end ClientAddr
