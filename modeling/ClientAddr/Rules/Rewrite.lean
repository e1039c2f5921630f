import ClientAddr.Model.Canonical

/-! # The network rewrite

A rewritten network is either an IPv4 network or an IPv6 network that is not
inside the IPv4-mapped block. In both cases it contains an address that a socket
peer can really have after its own rewrite.
-/

namespace ClientAddr

variable {c : Cidr 128} {d : Cidr 32}

theorem checkedSub_eq_some {n m k : ℕ} : checkedSub n m = some k ↔ n = k + m := by
  unfold checkedSub
  split_ifs with h
  · rw [Option.some.injEq]
    omega
  · rw [iff_false_left (by simp)]
    omega

/-- `d` is the IPv4 form of the IPv4-mapped network `c`. -/
def MappedCidr (c : Cidr 128) (d : Cidr 32) : Prop :=
  c.address = Ipv4Addr.toIpv6Mapped d.address ∧ c.networkLength = d.networkLength + 96

theorem MappedCidr.host_zero {a : Ipv4Addr} {n : ℕ} (h : c.address = Ipv4Addr.toIpv6Mapped a)
    (hn : c.networkLength = n + 96) : 2 ^ (32 - n) ∣ a.val := by
  have hd := c.host_zero
  rw [h, hn, show 128 - (n + 96) = 32 - n by omega] at hd
  have hb : 2 ^ (32 - n) ∣ mappedBase := by
    unfold mappedBase
    exact Dvd.dvd.mul_left (Nat.pow_dvd_pow 2 (by omega)) _
  exact (Nat.dvd_add_right hb).mp hd

/-- A network of mapped addresses has no host bit set, so its IPv4 form exists. -/
theorem exists_mapped {n : ℕ} {a : Ipv4Addr} (hn : checkedSub c.networkLength 96 = some n)
    (ha : Ipv6Addr.toIpv4Mapped c.firstAddress = some a) :
    ∃ d, Cidr.new a n = some d ∧ MappedCidr c d := by
  have hlen := checkedSub_eq_some.mp hn
  have hca := Ipv6Addr.toIpv4Mapped_eq_some.mp ha
  have hn32 : n ≤ 32 := by
    have := c.length_le
    omega
  have hz := MappedCidr.host_zero hca hlen
  exact ⟨⟨a, n, hn32, hz⟩, dif_pos ⟨hn32, hz⟩, hca, hlen⟩

/-- The rewrite goes through for every network inside the mapped block, and for no other. -/
theorem canonicalCidr_v6 (c : Cidr 128) :
    (∃ d, canonicalCidr (.v6 c) = .v4 d ∧ MappedCidr c d) ∨
      canonicalCidr (.v6 c) = .v6 c ∧
        (c.networkLength < 96 ∨ Ipv6Addr.toIpv4Mapped c.address = none) := by
  cases hn : checkedSub c.networkLength 96 with
  | none =>
    have hlt : c.networkLength < 96 := by
      by_contra hge
      have := checkedSub_eq_some (n := c.networkLength) (m := 96) (k := c.networkLength - 96)
      simp [hn] at this
      omega
    exact Or.inr ⟨by simp only [canonicalCidr, hn], Or.inl hlt⟩
  | some n =>
    cases ha : Ipv6Addr.toIpv4Mapped c.firstAddress with
    | none => exact Or.inr ⟨by simp only [canonicalCidr, hn, ha], Or.inr ha⟩
    | some a =>
      obtain ⟨d, hd, hm⟩ := exists_mapped hn ha
      exact Or.inl ⟨d, by simp only [canonicalCidr, hn, ha, hd], hm⟩

theorem canonicalCidr_of_mapped (h : MappedCidr c d) : canonicalCidr (.v6 c) = .v4 d := by
  rcases canonicalCidr_v6 c with ⟨d', hd', h'⟩ | ⟨-, hlt | hm⟩
  · rw [hd']
    have ha : d'.address = d.address := by
      have := h'.1.symm.trans h.1
      have hv := Fin.val_eq_of_eq this
      simp only [Ipv4Addr.toIpv6Mapped] at hv
      exact Fin.ext (by omega)
    have hn : d'.networkLength = d.networkLength := by
      have := h.2
      have := h'.2
      omega
    exact congrArg _ (Cidr.ext ha hn)
  · have := h.2
    omega
  · rw [h.1] at hm
    simp at hm

theorem exists_canonical_mem (c : IpCidr) :
    ∃ x ∈ (canonicalCidr c).span, IpAddr.Canonical x := by
  cases c with
  | v4 c => exact ⟨.v4 c.address, IpCidr.v4_mem_span.mpr (Cidr.address_mem c), trivial⟩
  | v6 c =>
    rcases canonicalCidr_v6 c with ⟨d, hd, -⟩ | ⟨hc, h⟩
    · rw [hd]
      exact ⟨.v4 d.address, IpCidr.v4_mem_span.mpr (Cidr.address_mem d), trivial⟩
    · rw [hc]
      by_cases hm : Ipv6Addr.toIpv4Mapped c.address = none
      · exact ⟨.v6 c.address, IpCidr.v6_mem_span.mpr (Cidr.address_mem c), hm⟩
      · -- a network wider than the mapped block reaches past its end
        have hlt : c.networkLength < 96 := h.resolve_right hm
        have hlast : Ipv6Addr.toIpv4Mapped c.lastAddress = none := by
          rw [Ipv6Addr.toIpv4Mapped_eq_none] at hm ⊢
          have hsize : 2 ^ 33 ≤ c.size := Nat.pow_le_pow_right (by omega) (by omega)
          simp only [Cidr.lastAddress]
          omega
        exact ⟨.v6 c.lastAddress,
          IpCidr.v6_mem_span.mpr (Cidr.mem_def.mpr ⟨c.span.fst_le_snd, le_rfl⟩), hlast⟩

theorem div_eq_of_mem {x : Ipv6Addr} (h : 96 ≤ c.networkLength) (hx : x ∈ c) :
    x.val / 2 ^ 32 = c.address.val / 2 ^ 32 := by
  have hs : c.size * 2 ^ (32 - (128 - c.networkLength)) = 2 ^ 32 := by
    rw [Cidr.size, ← pow_add]
    congr 1
    omega
  rw [← hs, ← Nat.div_div_eq_div_mul, ← Nat.div_div_eq_div_mul, Cidr.mem_iff_div.mp hx]

theorem length_lt_of_canonicalCidr {k : IpCidr} {x : Ipv6Addr} (h : canonicalCidr k = .v6 c)
    (hx : x ∈ c) (hm : Ipv6Addr.toIpv4Mapped x ≠ none) : c.networkLength < 96 := by
  cases k with
  | v4 d => simp [canonicalCidr] at h
  | v6 d =>
    rcases canonicalCidr_v6 d with ⟨e, he, -⟩ | ⟨hd, hl⟩
    · simp [he] at h
    · obtain rfl := IpCidr.v6.inj (hd.symm.trans h)
      rcases hl with hl | hl
      · exact hl
      · by_contra hge
        have hdiv := div_eq_of_mem (not_lt.mp hge) hx
        simp only [Ipv6Addr.toIpv4Mapped, hdiv] at hm hl
        exact hm (by simpa using hl)

section OneFamily

/-- The network is the IPv4-mapped form of an IPv4 network, or has no IPv4-mapped address. -/
def OneFamily : IpCidr → Prop
  | .v4 _ => True
  | .v6 c => (∃ d, MappedCidr c d) ∨ ∀ x ∈ c, Ipv6Addr.toIpv4Mapped x = none

theorem MappedCidr.mem_iff {b : Ipv4Addr} (h : MappedCidr c d) : b.toIpv6Mapped ∈ c ↔ b ∈ d := by
  obtain ⟨ha, hn⟩ := h
  have hs : c.size = d.size := by
    rw [Cidr.size, Cidr.size, hn]
    congr 1
    omega
  rw [Cidr.mem_iff, Cidr.mem_iff, ha, hs]
  simp only [Ipv4Addr.toIpv6Mapped]
  omega

theorem MappedCidr.lower (h : MappedCidr c d) (hc : c.networkLength < 128)
    (hd : d.networkLength < 32) : MappedCidr (c.lower hc) (d.lower hd) := by
  obtain ⟨ha, hn⟩ := h
  refine ⟨ha, ?_⟩
  simp only [Cidr.lower]
  omega

theorem MappedCidr.upper (h : MappedCidr c d) (hc : c.networkLength < 128)
    (hd : d.networkLength < 32) : MappedCidr (c.upper hc) (d.upper hd) := by
  obtain ⟨ha, hn⟩ := h
  have he : 128 - (c.networkLength + 1) = 32 - (d.networkLength + 1) := by omega
  refine ⟨Fin.ext ?_, ?_⟩
  · simp only [Cidr.upper, Ipv4Addr.toIpv6Mapped, ha, he]
    omega
  · simp only [Cidr.upper]
    omega

theorem MappedCidr.of_le {b : Cidr 128} (h : MappedCidr c d) (hle : b ≤ c) :
    ∃ e, MappedCidr b e ∧ e ≤ d := by
  have hlen := Cidr.length_le_of_le hle
  have h96 : 96 ≤ c.networkLength := by
    have := h.2
    omega
  have hb : Ipv6Addr.toIpv4Mapped b.address ≠ none := by
    have hdiv := div_eq_of_mem h96 (Cidr.le_iff.mp hle _ (Cidr.address_mem b))
    have hca : Ipv6Addr.toIpv4Mapped c.address = some d.address := by
      rw [h.1, Ipv6Addr.toIpv4Mapped_toIpv6Mapped]
    simp only [Ipv6Addr.toIpv4Mapped, ← hdiv] at hca ⊢
    split_ifs at hca ⊢
    simp
  rcases canonicalCidr_v6 b with ⟨e, -, he⟩ | ⟨-, hl | hn⟩
  · refine ⟨e, he, Cidr.le_iff.mpr fun x hx => ?_⟩
    exact h.mem_iff.mp (Cidr.le_iff.mp hle _ (he.mem_iff.mpr hx))
  · omega
  · exact absurd hn hb

theorem canonicalCidr_of_not_mapped (h : ∀ x ∈ c, Ipv6Addr.toIpv4Mapped x = none) :
    canonicalCidr (.v6 c) = .v6 c := by
  rcases canonicalCidr_v6 c with ⟨d, -, hca, -⟩ | ⟨hc, -⟩
  · have := h _ (Cidr.address_mem c)
    rw [hca] at this
    simp at this
  · exact hc

theorem OneFamily.of_le {k k' : IpCidr} (h : OneFamily k) (hle : k'.span ≤ k.span) :
    OneFamily k' ∧ (canonicalCidr k').span ≤ (canonicalCidr k).span := by
  cases k with
  | v4 c =>
    cases k' with
    | v4 b => exact ⟨trivial, hle⟩
    | v6 b => exact absurd hle.2 IpAddr.not_v6_le_v4
  | v6 c =>
    cases k' with
    | v4 b => exact absurd hle.1 IpAddr.not_v6_le_v4
    | v6 b =>
      have hbc := IpCidr.span_v6_le.mp hle
      rcases h with ⟨d, hd⟩ | hn
      · obtain ⟨e, he, hed⟩ := hd.of_le hbc
        refine ⟨Or.inl ⟨e, he⟩, ?_⟩
        rw [canonicalCidr_of_mapped hd, canonicalCidr_of_mapped he]
        exact IpCidr.span_v4_le.mpr hed
      · have hn' : ∀ x ∈ b, Ipv6Addr.toIpv4Mapped x = none := fun x hx =>
          hn x (Cidr.le_iff.mp hbc x hx)
        refine ⟨Or.inr hn', ?_⟩
        rwa [canonicalCidr_of_not_mapped hn, canonicalCidr_of_not_mapped hn']

end OneFamily

@[simp] theorem canonicalIp_canonicalIp (x : IpAddr) :
    canonicalIp (canonicalIp x) = canonicalIp x :=
  IpAddr.toCanonical_toCanonical x

end ClientAddr
