import ClientAddr.Cidr.Normal

/-! # Computing normal forms

`normalize` walks down the halves of a network and joins two full halves on the
way back. From the widest network it computes the normal form of a list.
-/

namespace ClientAddr

open Laminar

namespace Cidr

variable {w : ℕ}

instance : DecidableLE (Cidr w) := fun c d =>
  decidable_of_iff (d.networkLength ≤ c.networkLength ∧ d.contains c.address = true) (by
    rw [contains_iff]
    constructor
    · exact fun ⟨hl, hx⟩ => le_of_length_le hl hx (address_mem c)
    · exact fun h => ⟨length_le_of_le h, le_iff.mp h _ (address_mem c)⟩)

def within (b : Cidr w) (l : List (Cidr w)) : List (Cidr w) :=
  l.filter fun c => decide (c ≤ b) || decide (b ≤ c)

/-- The normal form of the part of `l` inside a network with `n` host bits. -/
def normalize : ℕ → Cidr w → List (Cidr w) → List (Cidr w)
  | _, _, [] => []
  | n, b, c :: l =>
    if (c :: l).any fun d => decide (b ≤ d) then [b]
    else match n with
      | 0 => []
      | n + 1 =>
        if h : b.networkLength < w then
          let lo := normalize n (b.lower h) (within (b.lower h) (c :: l))
          let hi := normalize n (b.upper h) (within (b.upper h) (c :: l))
          if b.lower h ∈ lo ∧ b.upper h ∈ hi then [b] else lo ++ hi
        else []

def all (w : ℕ) : Cidr w where
  address := ⟨0, Nat.two_pow_pos w⟩
  networkLength := 0
  length_le := Nat.zero_le w
  host_zero := dvd_zero _

def combine (l : List (Cidr w)) : List (Cidr w) := normalize w (all w) l

variable {b c : Cidr w} {l : List (Cidr w)} {x : Fin (2 ^ w)}

theorem mem_all (x : Fin (2 ^ w)) : x ∈ all w := by
  have := x.isLt
  simp only [mem_iff, all, size, Nat.sub_zero]
  omega

theorem mem_cover_within (hx : x ∈ b) : x ∈ cover (within b l) ↔ x ∈ cover l := by
  simp only [mem_cover, within, List.mem_filter, Bool.or_eq_true, decide_eq_true_eq]
  constructor
  · rintro ⟨c, ⟨hc, _⟩, hxc⟩
    exact ⟨c, hc, hxc⟩
  · rintro ⟨c, hc, hxc⟩
    exact ⟨c, ⟨hc, nested c b ⟨x, hxc, hx⟩⟩, hxc⟩

theorem normal_nil : Normal ([] : List (Cidr w)) :=
  ⟨List.Pairwise.nil, fun _ _ h => absurd h List.not_mem_nil⟩

theorem normal_singleton (b : Cidr w) : Normal [b] := by
  refine ⟨List.pairwise_singleton _ b, fun c h hlo hup => ?_⟩
  rw [List.mem_singleton] at hlo hup
  subst hup
  have hx := address_mem (c.upper h)
  apply not_mem_lower_of_mem_upper h hx
  rwa [hlo]

theorem eq_of_halves_le (h : b.networkLength < w)
    {p q : Cidr w} (hp : p ≤ c) (hq : q ≤ c) (hpl : p.networkLength = c.networkLength + 1)
    (hpb : p ≤ b.lower h) (hqb : q ≤ b.upper h) : c = b := by
  have hlen : b.networkLength ≤ c.networkLength := by
    have := length_le_of_le hpb
    simp only [lower] at this
    omega
  have hx := address_mem p
  have hxb := le_iff.mp hpb _ hx
  by_cases hlt : b.networkLength < c.networkLength
  · have hcb : c ≤ b.lower h := le_of_length_le hlt hxb (le_iff.mp hp _ hx)
    have hy := address_mem q
    exact absurd (le_iff.mp (hq.trans hcb) _ hy)
      (not_mem_lower_of_mem_upper h (le_iff.mp hqb _ hy))
  · exact eq_of_length_eq (by omega) (le_iff.mp hp _ hx) (le_iff.mp (lower_le h) _ hxb)

/-- Normal forms of both halves make a normal form, unless both halves are full. -/
theorem normal_append (h : b.networkLength < w) {lo hi : List (Cidr w)} (hlo : Normal lo)
    (hhi : Normal hi) (hlob : ∀ c ∈ lo, c ≤ b.lower h) (hhib : ∀ c ∈ hi, c ≤ b.upper h)
    (hne : ¬ (b.lower h ∈ lo ∧ b.upper h ∈ hi)) : Normal (lo ++ hi) := by
  refine ⟨List.pairwise_append.mpr ⟨hlo.disjoint, hhi.disjoint, ?_⟩, fun c hc hl hu => ?_⟩
  · rintro c hc d hd ⟨x, hxc, hxd⟩
    exact not_mem_lower_of_mem_upper h (le_iff.mp (hhib d hd) x hxd) (le_iff.mp (hlob c hc) x hxc)
  · rcases List.mem_append.mp hl with hl | hl <;> rcases List.mem_append.mp hu with hu | hu
    · exact hlo.siblingFree c hc hl hu
    · obtain rfl := eq_of_halves_le h (lower_le hc) (upper_le hc) rfl (hlob _ hl) (hhib _ hu)
      exact hne ⟨hl, hu⟩
    · obtain rfl := eq_of_halves_le h (upper_le hc) (lower_le hc) rfl (hlob _ hu) (hhib _ hl)
      have hx := address_mem (c.upper h)
      exact not_mem_lower_of_mem_upper h hx (le_iff.mp (hlob _ hu) _ hx)
    · exact hhi.siblingFree c hc hl hu

/-- What the normal form inside `b` consists of. -/
structure NormalIn (b : Cidr w) (l r : List (Cidr w)) : Prop where
  normal : Normal r
  le : ∀ c ∈ r, c ≤ b
  cover : ∀ x ∈ b, x ∈ cover r ↔ x ∈ Cidr.cover l

theorem normalIn_singleton (h : ∃ c ∈ l, b ≤ c) : NormalIn b l [b] := by
  obtain ⟨c, hc, hbc⟩ := h
  refine ⟨normal_singleton b, by simp, fun x hx => ?_⟩
  exact iff_of_true ⟨b, by simp, hx⟩ ⟨c, hc, le_iff.mp hbc x hx⟩

theorem normalIn_join (h : b.networkLength < w) {lo hi : List (Cidr w)}
    (hlo : NormalIn (b.lower h) (within (b.lower h) l) lo)
    (hhi : NormalIn (b.upper h) (within (b.upper h) l) hi) :
    NormalIn b l (if b.lower h ∈ lo ∧ b.upper h ∈ hi then [b] else lo ++ hi) := by
  have hcl : ∀ x ∈ b.lower h, x ∈ cover lo ↔ x ∈ cover l := fun x hx =>
    (hlo.cover x hx).trans (mem_cover_within hx)
  have hcu : ∀ x ∈ b.upper h, x ∈ cover hi ↔ x ∈ cover l := fun x hx =>
    (hhi.cover x hx).trans (mem_cover_within hx)
  split_ifs with hf
  · refine ⟨normal_singleton b, by simp, fun x hx => iff_of_true ⟨b, by simp, hx⟩ ?_⟩
    rcases (mem_halves_iff h).mp hx with hx | hx
    · exact (hcl x hx).mp ⟨_, hf.1, hx⟩
    · exact (hcu x hx).mp ⟨_, hf.2, hx⟩
  · refine ⟨normal_append h hlo.normal hhi.normal hlo.le hhi.le hf, fun c hc => ?_, fun x hx => ?_⟩
    · rcases List.mem_append.mp hc with hc | hc
      · exact (hlo.le c hc).trans (lower_le h)
      · exact (hhi.le c hc).trans (upper_le h)
    · have happ : x ∈ cover (lo ++ hi) ↔ x ∈ cover lo ∨ x ∈ cover hi := by
        simp only [mem_cover, List.mem_append, or_and_right, exists_or]
      rw [happ]
      rcases (mem_halves_iff h).mp hx with hx | hx
      · rw [hcl x hx, or_iff_left_iff_imp]
        rintro ⟨c, hc, hxc⟩
        exact absurd hx (not_mem_lower_of_mem_upper h (le_iff.mp (hhi.le c hc) x hxc))
      · rw [hcu x hx, or_iff_right_iff_imp]
        rintro ⟨c, hc, hxc⟩
        exact absurd (le_iff.mp (hlo.le c hc) x hxc) (not_mem_lower_of_mem_upper h hx)

theorem normalize_spec (n : ℕ) (b : Cidr w) (l : List (Cidr w)) (hn : w - b.networkLength = n) :
    NormalIn b l (normalize n b l) := by
  induction n generalizing b l with
  | zero =>
    cases l with
    | nil => exact ⟨normal_nil, by simp [normalize], by simp [normalize]⟩
    | cons c l =>
      rw [normalize]
      split_ifs with ha
      · exact normalIn_singleton (by simpa using ha)
      · refine ⟨normal_nil, by simp, fun x hx => iff_of_false (by simp) ?_⟩
        rintro ⟨d, hd, hxd⟩
        have hlen : d.networkLength ≤ b.networkLength := by
          have := d.length_le
          omega
        exact ha (List.any_eq_true.mpr ⟨d, hd, by simpa using le_of_length_le hlen hxd hx⟩)
  | succ n ih =>
    cases l with
    | nil => exact ⟨normal_nil, by simp [normalize], by simp [normalize]⟩
    | cons c l =>
      have h : b.networkLength < w := by omega
      rw [normalize]
      split_ifs with ha
      · exact normalIn_singleton (by simpa using ha)
      · exact normalIn_join h (ih (b.lower h) _ (by simp only [lower]; omega))
          (ih (b.upper h) _ (by simp only [upper]; omega))

theorem combine_normal (l : List (Cidr w)) : Normal (combine l) :=
  (normalize_spec w (all w) l (Nat.sub_zero w)).normal

theorem cover_combine (l : List (Cidr w)) : cover (combine l) = cover l :=
  Set.ext fun x => (normalize_spec w (all w) l (Nat.sub_zero w)).cover x (mem_all x)

end Cidr

end ClientAddr
