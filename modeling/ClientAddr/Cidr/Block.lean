import Mathlib.Data.Fin.Basic
import Mathlib.Order.Fin.Basic
import Mathlib.Order.Interval.Basic
import Mathlib.Algebra.Order.Ring.Nat
import Mathlib.Tactic.Ring
import ClientAddr.Order.Laminar

/-! # Networks of fixed-width addresses

A network is a prefix length together with its first address, whose host bits
are zero. Networks are ordered by containment and form a laminar family. A
network that is wider than one address splits into a lower and an upper half.
-/

namespace ClientAddr

open Laminar

/-- A network of `w`-bit addresses, with no host bit set in its first address. -/
@[ext] structure Cidr (w : ℕ) where
  address : Fin (2 ^ w)
  networkLength : ℕ
  length_le : networkLength ≤ w
  host_zero : 2 ^ (w - networkLength) ∣ address.val
  deriving DecidableEq, Repr

namespace Cidr

variable {w : ℕ} (c d : Cidr w)

def size : ℕ := 2 ^ (w - c.networkLength)

theorem size_pos : 0 < c.size := Nat.two_pow_pos _

theorem size_dvd : c.size ∣ c.address.val := c.host_zero

theorem size_mul_pow : c.size * 2 ^ c.networkLength = 2 ^ w := by
  rw [size, ← pow_add, Nat.sub_add_cancel c.length_le]

theorem address_add_size_le : c.address.val + c.size ≤ 2 ^ w := by
  obtain ⟨k, hk⟩ := c.size_dvd
  have hlt : c.size * k < c.size * 2 ^ c.networkLength := by
    rw [← hk, c.size_mul_pow]
    exact c.address.isLt
  have hk' : k + 1 ≤ 2 ^ c.networkLength := Nat.lt_of_mul_lt_mul_left hlt
  calc c.address.val + c.size = c.size * (k + 1) := by rw [hk]; ring
    _ ≤ c.size * 2 ^ c.networkLength := Nat.mul_le_mul_left _ hk'
    _ = 2 ^ w := c.size_mul_pow

/-- The network with the given first address, unless that address has host bits. -/
def new (address : Fin (2 ^ w)) (networkLength : ℕ) : Option (Cidr w) :=
  if h : networkLength ≤ w ∧ 2 ^ (w - networkLength) ∣ address.val then
    some ⟨address, networkLength, h.1, h.2⟩
  else none

def firstAddress : Fin (2 ^ w) := c.address

def lastAddress : Fin (2 ^ w) :=
  ⟨c.address.val + (c.size - 1), by have := c.address_add_size_le; have := c.size_pos; omega⟩

/-- Compare the network part of an address with that of the network. -/
def contains (x : Fin (2 ^ w)) : Bool := decide (x.val / c.size = c.address.val / c.size)

def span : NonemptyInterval (Fin (2 ^ w)) :=
  ⟨(c.firstAddress, c.lastAddress), Fin.le_def.mpr (Nat.le_add_right _ _)⟩

instance : Membership (Fin (2 ^ w)) (Cidr w) := ⟨fun c x => x ∈ c.span⟩

variable {c d} {x y : Fin (2 ^ w)}

theorem mem_def : x ∈ c ↔ c.firstAddress ≤ x ∧ x ≤ c.lastAddress := Iff.rfl

theorem mem_iff : x ∈ c ↔ c.address.val ≤ x.val ∧ x.val < c.address.val + c.size := by
  have := c.size_pos
  simp only [mem_def, firstAddress, lastAddress, Fin.le_def]
  omega

theorem mem_iff_div : x ∈ c ↔ x.val / c.size = c.address.val / c.size := by
  obtain ⟨k, hk⟩ := c.size_dvd
  rw [mem_iff, hk, Nat.mul_div_cancel_left _ c.size_pos, Nat.div_eq_iff c.size_pos, mul_comm k]
  have := c.size_pos
  omega

theorem contains_iff : c.contains x = true ↔ x ∈ c := by
  rw [contains, decide_eq_true_eq, mem_iff_div]

theorem address_mem (c : Cidr w) : c.address ∈ c := mem_iff_div.mpr rfl

theorem size_dvd_size (h : c.networkLength ≤ d.networkLength) : d.size ∣ c.size :=
  Nat.pow_dvd_pow _ (by omega)

theorem mem_of_length_le (h : c.networkLength ≤ d.networkLength) (hc : x ∈ c) (hd : x ∈ d)
    (hy : y ∈ d) : y ∈ c := by
  obtain ⟨k, hk⟩ := size_dvd_size h
  rw [mem_iff_div] at *
  rw [hk, ← Nat.div_div_eq_div_mul, ← Nat.div_div_eq_div_mul] at hc ⊢
  rw [hy, ← hd, hc]

theorem span_injective : Function.Injective (span : Cidr w → _) := by
  intro c d h
  have ha : c.address = d.address := congrArg (fun s => s.fst) h
  have hl : c.lastAddress = d.lastAddress := congrArg (fun s => s.snd) h
  have hs : c.size = d.size := by
    have := Fin.val_eq_of_eq hl
    have := c.size_pos
    have := d.size_pos
    simp only [lastAddress, ha] at *
    omega
  have hp : w - c.networkLength = w - d.networkLength := Nat.pow_right_injective le_rfl hs
  have := c.length_le
  have := d.length_le
  exact Cidr.ext ha (by omega)

/-- Networks are ordered by containment. -/
instance : PartialOrder (Cidr w) := PartialOrder.lift span span_injective

theorem le_iff : c ≤ d ↔ ∀ x ∈ c, x ∈ d := by
  constructor
  · exact fun h x hx => ⟨h.1.trans hx.1, hx.2.trans h.2⟩
  · exact fun h => ⟨(h _ ⟨le_rfl, c.span.fst_le_snd⟩).1, (h _ ⟨c.span.fst_le_snd, le_rfl⟩).2⟩

theorem le_of_length_le (h : c.networkLength ≤ d.networkLength) (hc : x ∈ c) (hd : x ∈ d) :
    d ≤ c := le_iff.mpr fun _ hy => mem_of_length_le h hc hd hy

theorem nested (c d : Cidr w) : Nested c.span d.span := by
  rintro ⟨x, hc, hd⟩
  rcases le_total c.networkLength d.networkLength with h | h
  · exact Or.inr (le_of_length_le h hc hd)
  · exact Or.inl (le_of_length_le h hd hc)

theorem eq_of_length_eq (h : c.networkLength = d.networkLength) (hc : x ∈ c) (hd : x ∈ d) :
    c = d :=
  le_antisymm (le_of_length_le h.ge hd hc) (le_of_length_le h.le hc hd)

theorem length_le_of_le (h : c ≤ d) : d.networkLength ≤ c.networkLength := by
  rcases le_total d.networkLength c.networkLength with hl | hl
  · exact hl
  · have := le_of_length_le hl (address_mem c) (le_iff.mp h _ (address_mem c))
    exact (le_antisymm h this ▸ le_rfl)

section Halves

variable (c) (h : c.networkLength < w)

include h in
theorem size_eq_two_mul : c.size = 2 * 2 ^ (w - (c.networkLength + 1)) := by
  rw [size, ← pow_succ']
  congr 1
  omega

def lower : Cidr w where
  address := c.address
  networkLength := c.networkLength + 1
  length_le := h
  host_zero := by
    have := c.size_dvd
    rw [size_eq_two_mul c h] at this
    exact dvd_of_mul_left_dvd this

def upper : Cidr w where
  address := ⟨c.address.val + 2 ^ (w - (c.networkLength + 1)), by
    have := c.address_add_size_le
    have := size_eq_two_mul c h
    have := Nat.two_pow_pos (w - (c.networkLength + 1))
    omega⟩
  networkLength := c.networkLength + 1
  length_le := h
  host_zero := by
    have := c.size_dvd
    rw [size_eq_two_mul c h] at this
    exact Nat.dvd_add (dvd_of_mul_left_dvd this) dvd_rfl

variable {c}

theorem mem_halves_iff : x ∈ c ↔ x ∈ c.lower h ∨ x ∈ c.upper h := by
  have := size_eq_two_mul c h
  simp only [mem_iff, size, lower, upper] at *
  omega

theorem lower_le : c.lower h ≤ c := le_iff.mpr fun _ hx => (mem_halves_iff h).mpr (Or.inl hx)

theorem upper_le : c.upper h ≤ c := le_iff.mpr fun _ hx => (mem_halves_iff h).mpr (Or.inr hx)

theorem not_mem_lower_of_mem_upper (hx : x ∈ c.upper h) : x ∉ c.lower h := by
  simp only [mem_iff, size, lower, upper] at *
  omega

theorem le_of_half_le {b : Cidr w} (hb : b.networkLength = c.networkLength + 1) (hbc : b ≤ c)
    (hbd : b ≤ d) (hne : b ≠ d) : c ≤ d := by
  have hl := length_le_of_le hbd
  have hb' := address_mem b
  rcases lt_or_eq_of_le hl with hl | hl
  · exact le_of_length_le (by omega) (le_iff.mp hbd _ hb') (le_iff.mp hbc _ hb')
  · exact absurd (eq_of_length_eq hl.symm hb' (le_iff.mp hbd _ hb')) hne

end Halves

end Cidr

end ClientAddr
