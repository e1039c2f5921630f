import ClientAddr.Headers.Hop
import ClientAddr.Resolve.Scan

/-! # A request on its way through trusted proxies

A client sends any lines it likes, and every trusted proxy appends the address
it received the request from. However long the way is, the client's own address
is the first hop from the right that is not a trusted proxy.
-/

namespace ClientAddr

open Text

variable {config : ClientIpConfig} {client p peer x : IpAddr} {own lines : List Text}
  {hop : AddedHop}

/-- The hop names the address, in any form that a hop may have. -/
def AddedHop.Names (hop : AddedHop) (x : IpAddr) : Prop := HopText (trim hop.text) x

/--
The lines of a chain header that a client with the given address and lines of its own sent, and the
trusted proxy that passes the request on.
-/
inductive Relayed (config : ClientIpConfig) (client : IpAddr) (own : List Text) :
    List Text → IpAddr → Prop
  | first {p : IpAddr} {hop : AddedHop} : config.isTrustedProxy p = true → hop.Names client →
    Relayed config client own (appendHop own hop) p
  | next {lines : List Text} {p q : IpAddr} {hop : AddedHop} :
    Relayed config client own lines p → config.isTrustedProxy q = true → hop.Names p →
    Relayed config client own (appendHop lines hop) q

theorem AddedHop.names_iff : hop.Names x ↔ parseIpLike hop.text = some x :=
  parseIpLike_iff_hopText.symm

theorem AddedHop.Names.chainEntry_eq (h : hop.Names x) :
    chainEntry hop.text = .Ip (canonicalIp x) := by
  unfold chainEntry
  rw [AddedHop.names_iff.mp h]

theorem AddedHop.Names.is_hop (h : hop.Names x) : ¬ Blank hop.text ∧ ',' ∉ hop.text := by
  constructor
  · intro hb
    have h' : HopText (trim hop.text) x := h
    rw [trim_of_blank hb] at h'
    obtain ⟨c, r, hc, -⟩ := h'.exists_cons
    cases hc
  · intro hc
    exact HopText.comma_not_mem h (mem_trim hc (by decide))

theorem listHops_names (h : hop.Names x) : listHops hop.text = [.Ip (canonicalIp x)] := by
  rw [listHops_hop h.is_hop.2 h.is_hop.1, h.chainEntry_eq]

/-- Behind the client's hop stand only trusted proxies, and one of them passes the request on. -/
theorem Relayed.invariant (h : Relayed config client own lines p) :
    config.isTrustedProxy p = true ∧
      ∃ l r, lines.flatMap listHops = l ++ .Ip (canonicalIp client) :: r ∧
        ∀ e ∈ r, trustedHop config e = true := by
  induction h with
  | first hp hn =>
    refine ⟨hp, own.flatMap listHops, [], ?_, by simp⟩
    rw [flatMap_appendHop, listHops_names hn]
  | @next lines p q hop _ hq hn ih =>
    obtain ⟨hp, l, r, hl, hr⟩ := ih
    refine ⟨hq, l, r ++ [.Ip (canonicalIp p)], ?_, ?_⟩
    · rw [flatMap_appendHop, listHops_names hn, hl]
      simp
    · intro e he
      rcases List.mem_append.mp he with he | he
      · exact hr e he
      · obtain rfl := List.mem_singleton.mp he
        rw [trustedHop, ClientIpConfig.isTrustedProxy_canonicalIp, hp]

theorem Relayed.scan_eq (h : Relayed config client own lines p)
    (hx : config.isTrustedProxy client = false) :
    firstNonTrustedFromRight config (lines.flatMap listHops) = some (canonicalIp client) := by
  obtain ⟨-, l, r, hl, hr⟩ := h.invariant
  rw [firstNonTrustedFromRight_eq_some, ClientIpConfig.isTrustedProxy_canonicalIp]
  exact ⟨hx, l, r, hl, hr⟩

/--
The client of a request that trusted proxies passed on is found, whatever lines it sent, provided
no client IP header that the peer's rule names is present.
-/
theorem ClientIpConfig.relayed_request_resolves_to_client (rules : List TrustedProxyRule)
    (order : List ChainHeader) (client peer : IpAddr) (own lines : List Text)
    (headers : HeaderMap) (h : ChainHeader)
    (hx : isTrustedProxy ⟨.trustedProxies rules order⟩ client = false)
    (hp : Relayed ⟨.trustedProxies rules order⟩ client own lines peer)
    (hf : firstCarried headers order = some h) (hk : h.kind = .xForwardedFor)
    (hl : readLines (headers.getAll h.asHeaderName) = some lines)
    (hc : ∀ n ∈ clientIpHeaderFor ⟨.trustedProxies rules order⟩ peer, headers.getAll n = []) :
    resolveClientIp ⟨.trustedProxies rules order⟩ headers peer =
      ⟨canonicalIp client, .chainHeader h.asHeaderName⟩ := by
  rw [resolveClientIp_of_lines rfl hp.invariant.1 (configuredIp_of_absent hc) hf hl, hk, hopsOf,
    hp.scan_eq hx]
  rfl

/-- 203.0.113.7 forges the hop 6.6.6.6, and passes 10.0.0.9 and 10.0.0.7. -/
theorem ClientIpConfig.sample_relayed_request :
    TrustedProxiesBuilder.sampleConfig.resolveClientIp
      [(ChainHeader.xForwardedFor.name, .ofReadable "6.6.6.6, 203.0.113.7:80".toList (by decide)),
        (ChainHeader.xForwardedFor.name, .ofReadable "10.0.0.9".toList (by decide))]
      TrustedProxiesBuilder.sampleProxy =
    ⟨TrustedProxiesBuilder.sampleClient, .chainHeader ChainHeader.xForwardedFor.name⟩ := by
  have hfirst : Relayed TrustedProxiesBuilder.sampleConfig TrustedProxiesBuilder.sampleClient
      ["6.6.6.6".toList] (appendHop ["6.6.6.6".toList] ⟨true, " 203.0.113.7:80".toList⟩)
      (.v4 (Ipv4Addr.new 10 0 0 9)) :=
    .first (by decide +kernel) (AddedHop.names_iff.mpr (by decide +kernel))
  have hnext : Relayed TrustedProxiesBuilder.sampleConfig TrustedProxiesBuilder.sampleClient
      ["6.6.6.6".toList]
      (appendHop (appendHop ["6.6.6.6".toList] ⟨true, " 203.0.113.7:80".toList⟩)
        ⟨false, "10.0.0.9".toList⟩)
      TrustedProxiesBuilder.sampleProxy :=
    .next hfirst (by decide +kernel) (AddedHop.names_iff.mpr (by decide +kernel))
  exact relayed_request_resolves_to_client _ _ _ _ _ _ _ .xForwardedFor (by decide +kernel) hnext
    (by decide +kernel) rfl (by decide +kernel) (by decide +kernel)

end ClientAddr
