import Mathlib.Data.Sum.Order
import ClientAddr.Cidr.Block

/-! # Addresses and networks of both families

Every IPv4 address sorts before every IPv6 address. The IPv4-mapped block
`::ffff:0:0/96` holds a copy of each IPv4 address, and the canonical form of an
address undoes that copy.
-/

namespace ClientAddr

open Laminar

abbrev Ipv4Addr := Fin (2 ^ 32)

abbrev Ipv6Addr := Fin (2 ^ 128)

def Ipv4Addr.new (a b c d : Fin 256) : Ipv4Addr :=
  ⟨((a.val * 256 + b.val) * 256 + c.val) * 256 + d.val, by omega⟩

inductive IpAddr | v4 (a : Ipv4Addr) | v6 (a : Ipv6Addr)
  deriving DecidableEq, Repr

namespace IpAddr

def toSum : IpAddr → Ipv4Addr ⊕ₗ Ipv6Addr
  | v4 a => toLex (Sum.inl a)
  | v6 a => toLex (Sum.inr a)

theorem toSum_injective : Function.Injective toSum := by
  intro x y h
  cases x <;> cases y <;> simp_all [toSum]

instance : LinearOrder IpAddr := LinearOrder.lift' toSum toSum_injective

variable {a b : Ipv4Addr} {a' b' : Ipv6Addr} {x : IpAddr}

@[simp] theorem v4_le_v4 : v4 a ≤ v4 b ↔ a ≤ b := Sum.Lex.inl_le_inl_iff

@[simp] theorem v6_le_v6 : v6 a' ≤ v6 b' ↔ a' ≤ b' := Sum.Lex.inr_le_inr_iff

@[simp] theorem v4_le_v6 : v4 a ≤ v6 b' := Sum.Lex.inl_le_inr a b'

@[simp] theorem not_v6_le_v4 : ¬ v6 a' ≤ v4 b := Sum.Lex.not_inr_le_inl

end IpAddr

/-- The first value of the block that holds the copies of the IPv4 addresses. -/
def mappedBase : ℕ := 0xffff * 2 ^ 32

def Ipv4Addr.toIpv6Mapped (a : Ipv4Addr) : Ipv6Addr :=
  ⟨mappedBase + a.val, by have := a.isLt; unfold mappedBase; omega⟩

def Ipv6Addr.toIpv4Mapped (a : Ipv6Addr) : Option Ipv4Addr :=
  if a.val / 2 ^ 32 = 0xffff then some ⟨a.val % 2 ^ 32, Nat.mod_lt _ (Nat.two_pow_pos 32)⟩
  else none

theorem Ipv6Addr.toIpv4Mapped_eq_some {a : Ipv6Addr} {b : Ipv4Addr} :
    a.toIpv4Mapped = some b ↔ a = b.toIpv6Mapped := by
  have := b.isLt
  simp only [toIpv4Mapped, Ipv4Addr.toIpv6Mapped, mappedBase, Option.ite_none_right_eq_some,
    Option.some.injEq, Fin.ext_iff]
  omega

@[simp] theorem Ipv6Addr.toIpv4Mapped_toIpv6Mapped (b : Ipv4Addr) :
    Ipv6Addr.toIpv4Mapped b.toIpv6Mapped = some b := toIpv4Mapped_eq_some.mpr rfl

theorem Ipv6Addr.toIpv4Mapped_eq_none {a : Ipv6Addr} :
    a.toIpv4Mapped = none ↔ a.val < mappedBase ∨ mappedBase + 2 ^ 32 ≤ a.val := by
  simp only [toIpv4Mapped, mappedBase, ite_eq_right_iff, reduceCtorEq, imp_false]
  omega

namespace IpAddr

/-- The IPv4 form of an IPv4-mapped address, and any other address as it is. -/
def toCanonical : IpAddr → IpAddr
  | v4 a => v4 a
  | v6 a => match a.toIpv4Mapped with
    | some b => v4 b
    | none => v6 a

/-- An address that is not the copy of an IPv4 address. -/
def Canonical : IpAddr → Prop
  | v4 _ => True
  | v6 a => a.toIpv4Mapped = none

@[simp] theorem toCanonical_v4 (a : Ipv4Addr) : toCanonical (v4 a) = v4 a := rfl

@[simp] theorem toCanonical_mapped (a : Ipv4Addr) : toCanonical (v6 a.toIpv6Mapped) = v4 a := by
  simp [toCanonical]

theorem canonical_toCanonical (x : IpAddr) : x.toCanonical.Canonical := by
  cases x with
  | v4 a => trivial
  | v6 a =>
    rw [toCanonical]
    cases h : a.toIpv4Mapped with
    | none => exact h
    | some b => trivial

theorem Canonical.toCanonical {x : IpAddr} (h : x.Canonical) : x.toCanonical = x := by
  cases x with
  | v4 a => rfl
  | v6 a =>
    have ha : a.toIpv4Mapped = none := h
    simp [IpAddr.toCanonical, ha]

@[simp] theorem toCanonical_toCanonical (x : IpAddr) : x.toCanonical.toCanonical = x.toCanonical :=
  (canonical_toCanonical x).toCanonical

end IpAddr

inductive IpCidr | v4 (c : Cidr 32) | v6 (c : Cidr 128)
  deriving DecidableEq, Repr

namespace IpCidr

def networkLength : IpCidr → ℕ
  | v4 c => c.networkLength
  | v6 c => c.networkLength

def firstAddress : IpCidr → IpAddr
  | v4 c => .v4 c.firstAddress
  | v6 c => .v6 c.firstAddress

def lastAddress : IpCidr → IpAddr
  | v4 c => .v4 c.lastAddress
  | v6 c => .v6 c.lastAddress

/-- An address of the other family is never contained. -/
def contains : IpCidr → IpAddr → Bool
  | v4 c, .v4 a => c.contains a
  | v6 c, .v6 a => c.contains a
  | v4 _, .v6 _ | v6 _, .v4 _ => false

def span (c : IpCidr) : NonemptyInterval IpAddr :=
  ⟨(c.firstAddress, c.lastAddress), by
    cases c with
    | v4 c => exact IpAddr.v4_le_v4.mpr c.span.fst_le_snd
    | v6 c => exact IpAddr.v6_le_v6.mpr c.span.fst_le_snd⟩

variable {c d : IpCidr} {x : IpAddr} {p q : Cidr 32} {p' q' : Cidr 128}

theorem contains_iff : c.contains x = true ↔ x ∈ c.span := by
  cases c with
  | v4 c =>
    cases x with
    | v4 a => simp only [contains, Cidr.contains_iff, NonemptyInterval.mem_def, span, firstAddress,
        lastAddress, IpAddr.v4_le_v4, Cidr.mem_def]
    | v6 a => simp [contains, NonemptyInterval.mem_def, span, lastAddress]
  | v6 c =>
    cases x with
    | v4 a => simp [contains, NonemptyInterval.mem_def, span, firstAddress]
    | v6 a => simp only [contains, Cidr.contains_iff, NonemptyInterval.mem_def, span, firstAddress,
        lastAddress, IpAddr.v6_le_v6, Cidr.mem_def]

@[simp] theorem v4_mem_span {a : Ipv4Addr} : .v4 a ∈ (v4 p).span ↔ a ∈ p := by
  rw [← contains_iff, contains, Cidr.contains_iff]

@[simp] theorem v6_mem_span {a : Ipv6Addr} : .v6 a ∈ (v6 p').span ↔ a ∈ p' := by
  rw [← contains_iff, contains, Cidr.contains_iff]

@[simp] theorem v4_not_mem_span {a : Ipv4Addr} : ¬ .v4 a ∈ (v6 p').span := by
  simp [← contains_iff, contains]

@[simp] theorem v6_not_mem_span {a : Ipv6Addr} : ¬ .v6 a ∈ (v4 p).span := by
  simp [← contains_iff, contains]

@[simp] theorem span_v4_le : (v4 p).span ≤ (v4 q).span ↔ p ≤ q := by
  simp only [NonemptyInterval.le_def, span, firstAddress, lastAddress, IpAddr.v4_le_v4]
  rfl

@[simp] theorem span_v6_le : (v6 p').span ≤ (v6 q').span ↔ p' ≤ q' := by
  simp only [NonemptyInterval.le_def, span, firstAddress, lastAddress, IpAddr.v6_le_v6]
  rfl

theorem nested (c d : IpCidr) : Nested c.span d.span := by
  rintro ⟨x, hc, hd⟩
  cases x with
  | v4 a =>
    cases c with
    | v6 c => exact absurd hc v4_not_mem_span
    | v4 c =>
      cases d with
      | v6 d => exact absurd hd v4_not_mem_span
      | v4 d =>
        rw [span_v4_le, span_v4_le]
        exact Cidr.nested c d ⟨a, v4_mem_span.mp hc, v4_mem_span.mp hd⟩
  | v6 a =>
    cases c with
    | v4 c => exact absurd hc v6_not_mem_span
    | v6 c =>
      cases d with
      | v4 d => exact absurd hd v6_not_mem_span
      | v6 d =>
        rw [span_v6_le, span_v6_le]
        exact Cidr.nested c d ⟨a, v6_mem_span.mp hc, v6_mem_span.mp hd⟩

end IpCidr

end ClientAddr
