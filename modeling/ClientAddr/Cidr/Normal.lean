import Mathlib.Data.List.Basic
import ClientAddr.Cidr.Block

/-! # Normal forms of network lists

A list of disjoint networks without two halves of one network consists of the
maximal networks inside the addresses it covers. It is therefore determined by
those addresses, and no list with the same coverage is shorter.
-/

namespace ClientAddr

open Laminar

namespace Cidr

variable {w : ℕ}

/-- The addresses covered by a list of networks. -/
def cover (l : List (Cidr w)) : Set (Fin (2 ^ w)) := {x | ∃ c ∈ l, x ∈ c}

def Disjoint (l : List (Cidr w)) : Prop := l.Pairwise fun c d => ¬ Meets c.span d.span

/-- No network has both its halves in the list. -/
def SiblingFree (l : List (Cidr w)) : Prop :=
  ∀ c : Cidr w, ∀ h : c.networkLength < w, c.lower h ∈ l → c.upper h ∉ l

/-- Disjoint networks that cannot be joined any further. -/
structure Normal (l : List (Cidr w)) : Prop where
  disjoint : Disjoint l
  siblingFree : SiblingFree l

variable {l l' : List (Cidr w)} {b c d : Cidr w} {x : Fin (2 ^ w)}

@[simp] theorem mem_cover : x ∈ cover l ↔ ∃ c ∈ l, x ∈ c := Iff.rfl

theorem Disjoint.eq_of_mem (hl : Disjoint l) (hc : c ∈ l) (hd : d ∈ l) (hxc : x ∈ c)
    (hxd : x ∈ d) : c = d := by
  by_contra hne
  have : Std.Symm fun c d : Cidr w => ¬ Meets c.span d.span := ⟨fun _ _ h hm => h hm.symm⟩
  exact hl.forall hc hd hne ⟨x, hxc, hxd⟩

theorem Disjoint.nodup (hl : Disjoint l) : l.Nodup := by
  apply hl.imp
  rintro c d hn rfl
  exact hn ⟨c.address, address_mem c, address_mem c⟩

theorem Normal.exists_le (hl : Normal l) (b : Cidr w) (hb : ∀ x ∈ b, x ∈ cover l) :
    ∃ c ∈ l, b ≤ c := by
  induction hn : w - b.networkLength generalizing b with
  | zero =>
    obtain ⟨c, hc, hx⟩ := hb _ (address_mem b)
    have := b.length_le
    have := c.length_le
    exact ⟨c, hc, le_of_length_le (by omega) hx (address_mem b)⟩
  | succ n ih =>
    have h : b.networkLength < w := by omega
    have hlo := lower_le h
    have hup := upper_le h
    obtain ⟨c, hc, hle⟩ := ih (b.lower h) (fun x hx => hb x (le_iff.mp hlo x hx))
      (by simp only [lower]; omega)
    obtain ⟨d, hd, hle'⟩ := ih (b.upper h) (fun x hx => hb x (le_iff.mp hup x hx))
      (by simp only [upper]; omega)
    by_cases hcb : b.lower h = c
    · by_cases hdb : b.upper h = d
      · exact absurd (hdb ▸ hd) (hl.siblingFree b h (hcb ▸ hc))
      · exact ⟨d, hd, le_of_half_le rfl hup hle' hdb⟩
    · exact ⟨c, hc, le_of_half_le rfl hlo hle hcb⟩

theorem Normal.mem_iff_maximal (hl : Normal l) :
    c ∈ l ↔ (∀ x ∈ c, x ∈ cover l) ∧ ∀ b, (∀ x ∈ b, x ∈ cover l) → c ≤ b → b ≤ c := by
  constructor
  · refine fun hc => ⟨fun x hx => ⟨c, hc, hx⟩, fun b hb hcb => ?_⟩
    obtain ⟨d, hd, hbd⟩ := hl.exists_le b hb
    have hx := le_iff.mp (hcb.trans hbd) _ (address_mem c)
    rwa [hl.disjoint.eq_of_mem hc hd (address_mem c) hx]
  · rintro ⟨hc, hm⟩
    obtain ⟨d, hd, hcd⟩ := hl.exists_le c hc
    have hdc := hm d (fun x hx => ⟨d, hd, hx⟩) hcd
    rwa [le_antisymm hcd hdc]

/-- Normal lists with one coverage have the same networks. -/
theorem Normal.mem_iff_of_cover_eq (hl : Normal l) (hl' : Normal l') (h : cover l = cover l') :
    c ∈ l ↔ c ∈ l' := by
  rw [hl.mem_iff_maximal, hl'.mem_iff_maximal, h]

theorem Normal.exists_mem_le (hl : Normal l) (h : cover l = cover l') (hc : c ∈ l) :
    ∃ b ∈ l', b ≤ c := by
  have hx : c.address ∈ cover l' := h ▸ ⟨c, hc, address_mem c⟩
  obtain ⟨b, hb, hxb⟩ := hx
  obtain ⟨d, hd, hbd⟩ := hl.exists_le b fun x hx => h ▸ ⟨b, hb, hx⟩
  obtain rfl := hl.disjoint.eq_of_mem hc hd (address_mem c) (le_iff.mp hbd _ hxb)
  exact ⟨b, hb, hbd⟩

end Cidr

/-- Lists are compared in length through a relation that separates the first one. -/
theorem length_le_of_separating {α β : Type*} {R : α → β → Prop} {l : List α} {l' : List β}
    (he : ∀ a ∈ l, ∃ b ∈ l', R a b) (hs : l.Pairwise fun a a' => ∀ b, R a b → ¬ R a' b) :
    l.length ≤ l'.length := by
  induction l generalizing l' with
  | nil => simp
  | cons a l ih =>
    obtain ⟨b, hb, hab⟩ := he a List.mem_cons_self
    obtain ⟨u, v, rfl⟩ := List.append_of_mem hb
    obtain ⟨ha, hs⟩ := List.pairwise_cons.mp hs
    have hle : l.length ≤ (u ++ v).length := by
      refine ih (fun a' ha' => ?_) hs
      obtain ⟨b', hb', hr⟩ := he a' (List.mem_cons_of_mem _ ha')
      have hne : b' ≠ b := by
        rintro rfl
        exact ha a' ha' _ hab hr
      refine ⟨b', ?_, hr⟩
      simp only [List.mem_append, List.mem_cons] at hb' ⊢
      tauto
    simp only [List.length_append, List.length_cons] at hle ⊢
    omega

end ClientAddr
