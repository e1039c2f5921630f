import ClientAddr.Cidr.Normal
import ClientAddr.Net.Address

/-! # One family at a time

What holds of the networks of one address family is stated once, for a family that
is given by its embedding into the addresses and networks of both families.
-/

namespace ClientAddr

open Laminar

/-- An address family, as a part of the addresses and networks of both families. -/
structure Family (w : ℕ) where
  addr : Fin (2 ^ w) → IpAddr
  cidr : Cidr w → IpCidr
  select : IpCidr → Option (Cidr w)
  select_eq_some : ∀ {c p}, select c = some p ↔ c = cidr p
  exists_addr : ∀ {x p}, x ∈ (cidr p).span → ∃ a, x = addr a
  addr_mem_span : ∀ {a c}, addr a ∈ c.span ↔ ∃ p, c = cidr p ∧ a ∈ p
  span_le : ∀ {p q}, (cidr p).span ≤ (cidr q).span ↔ p ≤ q

namespace Family

def ipv4 : Family 32 where
  addr := .v4
  cidr := .v4
  select
    | .v4 p => some p
    | .v6 _ => none
  select_eq_some {c p} := by cases c <;> simp
  exists_addr {x p} h := by
    cases x with
    | v4 a => exact ⟨a, rfl⟩
    | v6 a => exact absurd h IpCidr.v6_not_mem_span
  addr_mem_span {a c} := by cases c <;> simp
  span_le := IpCidr.span_v4_le

def ipv6 : Family 128 where
  addr := .v6
  cidr := .v6
  select
    | .v6 p => some p
    | .v4 _ => none
  select_eq_some {c p} := by cases c <;> simp
  exists_addr {x p} h := by
    cases x with
    | v4 a => exact absurd h IpCidr.v4_not_mem_span
    | v6 a => exact ⟨a, rfl⟩
  addr_mem_span {a c} := by cases c <;> simp
  span_le := IpCidr.span_v6_le

variable {w : ℕ} (F : Family w) {cs : List IpCidr} {ps : List (Cidr w)} {p q : Cidr w}
  {a : Fin (2 ^ w)}

theorem cidr_injective : Function.Injective F.cidr := by
  intro p q h
  have hp := F.select_eq_some.mpr (rfl : F.cidr p = F.cidr p)
  rw [F.select_eq_some.mpr h] at hp
  exact (Option.some.inj hp).symm

theorem addr_mem_span_cidr : F.addr a ∈ (F.cidr p).span ↔ a ∈ p := by
  simp only [F.addr_mem_span, F.cidr_injective.eq_iff, exists_eq_left']

def pushed (cs : List IpCidr) : List (Cidr w) := cs.filterMap F.select

theorem mem_pushed : p ∈ F.pushed cs ↔ F.cidr p ∈ cs := by
  simp only [pushed, List.mem_filterMap, F.select_eq_some, exists_eq_right]

theorem disjoint_pushed (h : cs.Pairwise fun c d => ¬ Meets c.span d.span) :
    Cidr.Disjoint (F.pushed cs) := by
  refine List.pairwise_filterMap.mpr (h.imp ?_)
  rintro c d hn p hp q hq ⟨a, hap, haq⟩
  obtain rfl := F.select_eq_some.mp hp
  obtain rfl := F.select_eq_some.mp hq
  exact hn ⟨F.addr a, F.addr_mem_span_cidr.mpr hap, F.addr_mem_span_cidr.mpr haq⟩

theorem pairwise_map_cidr (h : Cidr.Disjoint ps) :
    (ps.map F.cidr).Pairwise fun c d => ¬ Meets c.span d.span := by
  refine List.pairwise_map.mpr (h.imp ?_)
  rintro p q hn ⟨x, hp, hq⟩
  obtain ⟨a, rfl⟩ := F.exists_addr hp
  exact hn ⟨a, F.addr_mem_span_cidr.mp hp, F.addr_mem_span_cidr.mp hq⟩

end Family

end ClientAddr
