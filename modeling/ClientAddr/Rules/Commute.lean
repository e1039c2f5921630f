import ClientAddr.Rules.Rewrite

/-! # The two rewrites together

A rewritten network contains a rewritten address exactly when the network itself
contains some spelling of that address. An IPv6 network that is wider than the
mapped block stands apart, since it keeps its form and its IPv4 addresses do not.
-/

namespace ClientAddr

open Ipv4Addr (toIpv6Mapped)
open Ipv6Addr (toIpv4Mapped)

variable {c : Cidr 128} {d : Cidr 32} {k : IpCidr} {a : Ipv4Addr} {b : Ipv6Addr} {x y : IpAddr}

def mappedBlock : Cidr 128 where
  address := ⟨mappedBase, by decide⟩
  networkLength := 96
  length_le := by decide
  host_zero := by decide

def IsIpv4 (x : IpAddr) : Prop := ∃ a : Ipv4Addr, x = .v4 a ∨ x = .v6 a.toIpv6Mapped

/-- An IPv6 network with a prefix too short for an IPv4 form. -/
def ShortIpv6 (k : IpCidr) : Prop := ∃ c, k = .v6 c ∧ c.networkLength < 96

theorem canonicalIp_eq_v4 : canonicalIp y = .v4 a ↔ y = .v4 a ∨ y = .v6 a.toIpv6Mapped := by
  cases y with
  | v4 b => simp [canonicalIp]
  | v6 b =>
    simp only [reduceCtorEq, false_or, IpAddr.v6.injEq, ← Ipv6Addr.toIpv4Mapped_eq_some]
    cases h : toIpv4Mapped b <;> simp [canonicalIp, IpAddr.toCanonical, h]

theorem canonicalIp_eq_v6 : canonicalIp y = .v6 b ↔ y = .v6 b ∧ toIpv4Mapped b = none := by
  constructor
  · intro h
    cases y with
    | v4 a => simp [canonicalIp] at h
    | v6 b' =>
      cases hb : toIpv4Mapped b' with
      | none =>
        simp only [canonicalIp, IpAddr.toCanonical, hb] at h
        exact ⟨h, IpAddr.v6.inj h ▸ hb⟩
      | some a => simp [canonicalIp, IpAddr.toCanonical, hb] at h
  · rintro ⟨rfl, hb⟩
    exact IpAddr.Canonical.toCanonical hb

theorem isIpv4_iff : IsIpv4 x ↔ ∃ a, canonicalIp x = .v4 a :=
  exists_congr fun _ => canonicalIp_eq_v4.symm

theorem mem_mappedBlock : b ∈ mappedBlock ↔ toIpv4Mapped b ≠ none := by
  have hs : mappedBlock.size = 2 ^ 32 := rfl
  have ha : mappedBlock.address.val = mappedBase := rfl
  rw [Cidr.mem_iff, ne_eq, Ipv6Addr.toIpv4Mapped_eq_none, hs, ha]
  omega

theorem toIpv4Mapped_eq_none_iff_of_mem (hl : 96 ≤ c.networkLength) (hb : b ∈ c) :
    toIpv4Mapped b = none ↔ toIpv4Mapped c.address = none := by
  simp only [toIpv4Mapped, div_eq_of_mem hl hb, ite_eq_right_iff, reduceCtorEq]

theorem exists_spelling_v4 :
    (∃ y, (IpCidr.v4 d).contains y = true ∧ canonicalIp y = x) ↔ ∃ a ∈ d, x = .v4 a := by
  constructor
  · rintro ⟨y, hy, rfl⟩
    cases y with
    | v4 a => exact ⟨a, Cidr.contains_iff.mp hy, rfl⟩
    | v6 b => simp [IpCidr.contains] at hy
  · rintro ⟨a, ha, rfl⟩
    exact ⟨.v4 a, Cidr.contains_iff.mpr ha, rfl⟩

theorem contains_v4 : (IpCidr.v4 d).contains x = true ↔ ∃ a ∈ d, x = .v4 a := by
  cases x with
  | v4 a => simp [IpCidr.contains, Cidr.contains_iff]
  | v6 b => simp [IpCidr.contains]

theorem exists_spelling_of_mapped (h : MappedCidr c d) :
    (∃ y, (IpCidr.v6 c).contains y = true ∧ canonicalIp y = x) ↔ ∃ a ∈ d, x = .v4 a := by
  constructor
  · rintro ⟨y, hy, rfl⟩
    cases y with
    | v4 a => simp [IpCidr.contains] at hy
    | v6 b =>
      have hb : b ∈ c := Cidr.contains_iff.mp hy
      have hl : 96 ≤ c.networkLength := by
        have := h.2
        omega
      cases ha : toIpv4Mapped b with
      | none =>
        have hc := (toIpv4Mapped_eq_none_iff_of_mem hl hb).mp ha
        simp [h.1] at hc
      | some a =>
        obtain rfl := Ipv6Addr.toIpv4Mapped_eq_some.mp ha
        exact ⟨a, h.mem_iff.mp hb, canonicalIp_eq_v4.mpr (Or.inr rfl)⟩
  · rintro ⟨a, ha, rfl⟩
    exact ⟨.v6 (toIpv6Mapped a), Cidr.contains_iff.mpr (h.mem_iff.mpr ha),
      canonicalIp_eq_v4.mpr (Or.inr rfl)⟩

theorem exists_spelling_of_unchanged (h : c.networkLength < 96 ∨ toIpv4Mapped c.address = none)
    (hx : ¬ (c.networkLength < 96 ∧ IsIpv4 x)) :
    (∃ y, (IpCidr.v6 c).contains y = true ∧ canonicalIp y = canonicalIp x) ↔
      (IpCidr.v6 c).contains (canonicalIp x) = true := by
  constructor
  · rintro ⟨y, hy, hyx⟩
    cases y with
    | v4 a => simp [IpCidr.contains] at hy
    | v6 b =>
      have hb : toIpv4Mapped b = none := by
        by_cases hl : c.networkLength < 96
        · rw [Option.eq_none_iff_forall_ne_some]
          intro a ha
          obtain rfl := Ipv6Addr.toIpv4Mapped_eq_some.mp ha
          rw [canonicalIp_eq_v4.mpr (Or.inr rfl)] at hyx
          exact hx ⟨hl, isIpv4_iff.mpr ⟨a, hyx.symm⟩⟩
        · have hbc := Cidr.contains_iff.mp hy
          exact (toIpv4Mapped_eq_none_iff_of_mem (not_lt.mp hl) hbc).mpr (h.resolve_left hl)
      rw [canonicalIp_eq_v6.mpr ⟨rfl, hb⟩] at hyx
      rwa [← hyx]
  · exact fun hc => ⟨canonicalIp x, hc, canonicalIp_canonicalIp x⟩

/-- A rewritten network contains what the network contains in any spelling. -/
theorem contains_canonical_iff (h : ¬ (ShortIpv6 k ∧ IsIpv4 x)) :
    (canonicalCidr k).contains (canonicalIp x) = true ↔
      ∃ y, k.contains y = true ∧ canonicalIp y = canonicalIp x := by
  cases k with
  | v4 d => rw [exists_spelling_v4, canonicalCidr, contains_v4]
  | v6 c =>
    rcases canonicalCidr_v6 c with ⟨d, hd, hm⟩ | ⟨hc, hl⟩
    · rw [exists_spelling_of_mapped hm, hd, contains_v4]
    · rw [hc, exists_spelling_of_unchanged hl]
      exact fun hx => h ⟨⟨c, rfl, hx.1⟩, hx.2⟩

theorem not_contains_of_short (hk : ShortIpv6 k) (hx : IsIpv4 x) :
    (canonicalCidr k).contains (canonicalIp x) = false := by
  obtain ⟨c, rfl, hl⟩ := hk
  obtain ⟨a, ha⟩ := isIpv4_iff.mp hx
  rcases canonicalCidr_v6 c with ⟨d, -, -, hn⟩ | ⟨hc, -⟩
  · omega
  · simp only [hc, ha, IpCidr.contains]

theorem canonicalCidr_canonicalCidr (k : IpCidr) :
    canonicalCidr (canonicalCidr k) = canonicalCidr k := by
  cases k with
  | v4 d => rfl
  | v6 c =>
    rcases canonicalCidr_v6 c with ⟨d, hd, -⟩ | ⟨hc, -⟩
    · rw [hd, canonicalCidr]
    · simp only [hc]

theorem not_le_mappedBlock (h : canonicalCidr k = .v6 c) : ¬ c ≤ mappedBlock := by
  intro hle
  have hm := mem_mappedBlock.mp (Cidr.le_iff.mp hle _ (Cidr.address_mem c))
  have hl := length_lt_of_canonicalCidr h (Cidr.address_mem c) hm
  have hb : mappedBlock.networkLength ≤ c.networkLength := Cidr.length_le_of_le hle
  exact absurd hl (not_lt.mpr hb)

/--
Rewriting the network and rewriting the address agree, save for wide IPv6 networks and IPv4
addresses. The rewrite of a network cannot fail, is done after one step, and leaves no IPv6 network
inside the mapped block.
-/
theorem rewrites_commute (k : IpCidr) :
    (∀ x, ¬ (ShortIpv6 k ∧ IsIpv4 x) → ((canonicalCidr k).contains (canonicalIp x) = true ↔
      ∃ y, k.contains y = true ∧ canonicalIp y = canonicalIp x)) ∧
    (∀ x, ShortIpv6 k → IsIpv4 x → (canonicalCidr k).contains (canonicalIp x) = false) ∧
    (∀ c n a, k = .v6 c → checkedSub c.networkLength 96 = some n →
      toIpv4Mapped c.firstAddress = some a → (Cidr.new a n).isSome = true) ∧
    canonicalCidr (canonicalCidr k) = canonicalCidr k ∧
    ∀ c, canonicalCidr k = .v6 c → ¬ c ≤ mappedBlock := by
  refine ⟨fun x h => contains_canonical_iff h, fun x hk hx => not_contains_of_short hk hx, ?_,
    canonicalCidr_canonicalCidr k, fun c h => not_le_mappedBlock h⟩
  rintro c n a rfl hn ha
  obtain ⟨d, hd, -⟩ := exists_mapped hn ha
  simp [hd]

end ClientAddr
