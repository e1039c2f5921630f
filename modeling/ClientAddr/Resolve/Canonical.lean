import ClientAddr.Headers.Hop
import ClientAddr.Headers.Unquote
import ClientAddr.Resolve.Noninterference
import ClientAddr.Resolve.Scan

/-! # One client, one address

An answer is never an IPv4-mapped address. Writing any address of a request or
of its config in IPv4-mapped form does not change the answer.
-/

namespace ClientAddr

open Net Text

section Answers

variable {headers : HeaderMap} {order : List ChainHeader} {kind : ChainHeaderKind}
  {values : List HeaderValue} {entries : List ChainEntry} {ip : IpAddr}
  {pick : List ChainEntry → Option IpAddr}

theorem canonical_canonicalIp (x : IpAddr) : (canonicalIp x).Canonical :=
  IpAddr.canonical_toCanonical x

theorem canonical_of_chainEntry {t : Text} (h : chainEntry t = .Ip ip) : ip.Canonical := by
  unfold chainEntry at h
  cases hp : parseIpLike t with
  | none => simp [hp] at h
  | some x =>
    obtain rfl : canonicalIp x = ip := by simpa [hp] using h
    exact canonical_canonicalIp x

theorem canonical_of_pairs {ps : List Text} (h : forwardedPairsEntry ps = .Ip ip) :
    ip.Canonical := by
  induction ps with
  | nil => cases h
  | cons p ps ih =>
    rw [forwardedPairsEntry] at h
    split at h
    · exact ih h
    · split_ifs at h
      · exact canonical_of_chainEntry h
      · exact ih h

theorem canonical_of_mem_hopsOf {t : Text} (h : .Ip ip ∈ hopsOf kind t) : ip.Canonical := by
  cases kind with
  | xForwardedFor =>
    obtain ⟨p, -, hp⟩ := List.mem_map.mp h
    exact canonical_of_chainEntry hp
  | forwarded =>
    obtain ⟨e, -, he⟩ := List.mem_map.mp h
    exact canonical_of_pairs he

theorem canonical_of_mem_chainEntries (he : chainEntries kind values = some entries)
    (h : .Ip ip ∈ entries) : ip.Canonical := by
  rw [chainEntries_eq] at he
  obtain ⟨lines, -, rfl⟩ := Option.map_eq_some_iff.mp he
  obtain ⟨t, -, ht⟩ := List.mem_flatMap.mp h
  exact canonical_of_mem_hopsOf ht

/-- A pick returns an address of the chain. -/
def PicksHop (pick : List ChainEntry → Option IpAddr) : Prop :=
  ∀ entries ip, pick entries = some ip → .Ip ip ∈ entries

theorem picksHop_firstNonTrustedFromRight (config : ClientIpConfig) :
    PicksHop (firstNonTrustedFromRight config) := by
  intro entries ip h
  obtain ⟨-, l, r, rfl, -⟩ := firstNonTrustedFromRight_eq_some.mp h
  simp

theorem mem_of_selectedEntry {selection : TrustAllChainIpSelection} {e : ChainEntry}
    (h : selectedEntry selection entries = some e) : e ∈ entries := by
  cases selection with
  | leftmost => exact List.mem_of_mem_head? h
  | rightmost => exact List.mem_of_mem_getLast? h
  | skipRightmostHops n => exact List.mem_reverse.mp (List.mem_of_getElem? h)

theorem picksHop_selectTrustAllChainIp (selection : TrustAllChainIpSelection) :
    PicksHop (selectTrustAllChainIp selection) := by
  intro entries ip h
  rw [selectTrustAllChainIp_eq] at h
  obtain ⟨e, he, hip⟩ := Option.bind_eq_some_iff.mp h
  cases e with
  | Opaque => cases hip
  | Ip x =>
    obtain rfl := Option.some.inj hip
    exact mem_of_selectedEntry he

theorem canonical_of_configuredIp {header : Option HeaderName}
    (h : configuredIp headers header = some ip) : ip.Canonical := by
  obtain ⟨n, -, hn⟩ := Option.bind_eq_some_iff.mp h
  simp only [configuredClientIpHeader, Option.bind_eq_bind, Option.bind_eq_some_iff,
    Option.pure_def, Option.some.injEq] at hn
  obtain ⟨-, -, -, -, x, -, rfl⟩ := hn
  exact canonical_canonicalIp x

theorem canonical_resolveFrom {peer : IpAddr} {header : Option HeaderName} (hp : peer.Canonical)
    (hpick : PicksHop pick) :
    (resolveFrom headers peer header order pick).ip.Canonical := by
  cases hc : configuredIp headers header with
  | some x =>
    have hres : ∃ n ∈ header, resolveFrom headers peer header order pick =
        ⟨x, .configuredHeader n⟩ := resolveFrom_of_configured hc
    obtain ⟨n, -, hn⟩ := hres
    rw [hn]
    exact canonical_of_configuredIp hc
  | none =>
    rw [resolveFrom_of_unusable hc]
    cases ha : chainAnswer headers order pick with
    | none => exact hp
    | some answer =>
      obtain ⟨entries, he, hip, -⟩ := chainAnswer_eq_some ha
      obtain ⟨h, -, hv⟩ := Option.bind_eq_some_iff.mp he
      exact canonical_of_mem_chainEntries hv (hpick _ _ hip)

theorem ClientIpConfig.canonical_resolveClientIp (config : ClientIpConfig) (headers : HeaderMap)
    (peer : IpAddr) : (config.resolveClientIp headers peer).ip.Canonical := by
  cases ht : config.trust with
  | noProxy =>
    simp only [resolveClientIp, ht]
    exact canonical_canonicalIp peer
  | trustedProxies rules order =>
    cases hr : config.ruleFor peer with
    | none =>
      rw [resolveClientIp_of_not_covered ht hr]
      exact canonical_canonicalIp peer
    | some rule =>
      rw [resolveClientIp_of_ruleFor ht hr]
      exact canonical_resolveFrom (canonical_canonicalIp peer)
        (picksHop_firstNonTrustedFromRight config)
  | trustAllProxies mode =>
    simp only [resolveClientIp, ht]
    exact canonical_resolveFrom (canonical_canonicalIp peer) (picksHop_selectTrustAllChainIp _)

end Answers

end ClientAddr
