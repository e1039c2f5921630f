import Mathlib.Data.List.Sort
import ClientAddr.Order.Laminar

/-! # Sorting by key and searching a partitioned list

`partitionPoint` halves a window of the list until one element is left. Over a
list of disjoint intervals in increasing order, the last one that starts at or
before a point is the only one that can contain it.
-/

namespace ClientAddr

variable {α β κ : Type*}

section Sorting

variable [LinearOrder κ] (key : β → κ)

def sortByKey (l : List β) : List β := l.insertionSort fun a b => key a ≤ key b

theorem perm_sortByKey (l : List β) : (sortByKey key l).Perm l := List.perm_insertionSort _ l

@[simp] theorem mem_sortByKey {l : List β} {b : β} : b ∈ sortByKey key l ↔ b ∈ l :=
  (perm_sortByKey key l).mem_iff

theorem pairwise_sortByKey (l : List β) :
    (sortByKey key l).Pairwise fun a b => key a ≤ key b := by
  have : Std.Total fun a b : β => key a ≤ key b := ⟨fun a b => le_total (key a) (key b)⟩
  have : IsTrans β fun a b => key a ≤ key b := ⟨fun _ _ _ => le_trans⟩
  exact List.pairwise_insertionSort _ l

end Sorting

section Search

variable (p : β → Bool)

/-- Halve the window of `size` elements at `base` until one element is left. -/
def narrow (l : List β) : ℕ → ℕ → ℕ → ℕ
  | 0, base, _ => base
  | fuel + 1, base, size =>
    if 1 < size then
      let half := size / 2
      let mid := base + half
      narrow l fuel (if (l[mid]?).any p then mid else base) (size - half)
    else base

/-- The index of the first element that fails `p`, in a list that satisfies `p` up to it. -/
def partitionPoint (l : List β) : ℕ :=
  if l.length = 0 then 0
  else
    let base := narrow p l l.length 0 l.length
    if (l[base]?).any p then base + 1 else base

variable {p} {l₁ l₂ : List β}

theorem any_getElem?_iff (h₁ : ∀ b ∈ l₁, p b = true) (h₂ : ∀ b ∈ l₂, p b = false) (i : ℕ) :
    ((l₁ ++ l₂)[i]?).any p = true ↔ i < l₁.length := by
  rcases lt_or_ge i l₁.length with hi | hi
  · simp [List.getElem?_append_left hi, hi, h₁]
  · rw [List.getElem?_append_right hi]
    cases hg : l₂[i - l₁.length]? with
    | none => simp [hi]
    | some b => simp [h₂ b (List.mem_of_getElem? hg), hi]

/-- The window keeps the partition point, and shrinks to one element. -/
theorem narrow_spec (h₁ : ∀ b ∈ l₁, p b = true) (h₂ : ∀ b ∈ l₂, p b = false)
    (fuel base size : ℕ) (hf : size ≤ fuel + 1) (hs : 0 < size)
    (hb : base < l₁.length ∨ base = 0) (hk : l₁.length ≤ base + size) :
    (narrow p (l₁ ++ l₂) fuel base size < l₁.length ∨ narrow p (l₁ ++ l₂) fuel base size = 0) ∧
      l₁.length ≤ narrow p (l₁ ++ l₂) fuel base size + 1 := by
  induction fuel generalizing base size with
  | zero =>
    simp only [narrow]
    omega
  | succ fuel ih =>
    simp only [narrow]
    split_ifs with h1 hm
    · rw [any_getElem?_iff h₁ h₂] at hm
      exact ih _ _ (by omega) (by omega) (Or.inl hm) (by omega)
    · rw [any_getElem?_iff h₁ h₂] at hm
      exact ih _ _ (by omega) (by omega) hb (by omega)
    · exact ⟨hb, by omega⟩

theorem partitionPoint_append (h₁ : ∀ b ∈ l₁, p b = true) (h₂ : ∀ b ∈ l₂, p b = false) :
    partitionPoint p (l₁ ++ l₂) = l₁.length := by
  simp only [partitionPoint]
  split_ifs with h0 hp
  · rw [List.length_append] at h0
    omega
  all_goals
    rw [any_getElem?_iff h₁ h₂] at hp
    obtain ⟨hi, hk⟩ := narrow_spec h₁ h₂ (l₁ ++ l₂).length 0 (l₁ ++ l₂).length
      (by omega) (by omega) (Or.inr rfl) (by simp)
    omega

theorem narrow_lt (l : List β) (fuel base size : ℕ) (hs : 0 < size)
    (hl : base + size ≤ l.length) : narrow p l fuel base size < l.length := by
  induction fuel generalizing base size with
  | zero =>
    simp only [narrow]
    omega
  | succ fuel ih =>
    simp only [narrow]
    split_ifs
    · exact ih _ _ (by omega) (by omega)
    · exact ih _ _ (by omega) (by omega)
    · omega

theorem partitionPoint_le (l : List β) : partitionPoint p l ≤ l.length := by
  simp only [partitionPoint]
  split_ifs with h0
  · omega
  all_goals
    have := narrow_lt (p := p) l l.length 0 l.length (by omega) (by omega)
    omega

end Search

section Separated

open Laminar

variable [LinearOrder α] {span : β → NonemptyInterval α} {l : List β} {x : α}

/-- Every interval of the list ends before the next one starts. -/
def Separated (span : β → NonemptyInterval α) (l : List β) : Prop :=
  l.Pairwise fun a b => (span a).snd < (span b).fst

/-- The index that follows the last interval starting at or before `x`. -/
abbrev floorIndex (span : β → NonemptyInterval α) (x : α) (l : List β) : ℕ :=
  partitionPoint (fun b => decide ((span b).fst ≤ x)) l

theorem separated_of_sorted (hs : l.Pairwise fun a b => (span a).fst ≤ (span b).fst)
    (hd : l.Pairwise fun a b => ¬ Meets (span a) (span b)) : Separated span l := by
  apply (hs.and hd).imp
  rintro a b ⟨hle, hn⟩
  exact not_le.mp fun hr => hn (meets_of_fst_le hle hr)

theorem Separated.fst_lt (hs : Separated span l) :
    l.Pairwise fun a b => (span a).fst < (span b).fst :=
  hs.imp fun h => lt_of_le_of_lt (span _).fst_le_snd h

theorem Separated.floorIndex_append {l₁ l₂ : List β} {r : β}
    (hs : Separated span (l₁ ++ r :: l₂)) (hx : x ∈ span r) :
    floorIndex span x (l₁ ++ r :: l₂) = l₁.length + 1 := by
  have hs' : Separated span ((l₁ ++ [r]) ++ l₂) := by simpa using hs
  have hp := List.pairwise_append.mp hs'
  have h₁ : ∀ b ∈ l₁ ++ [r], decide ((span b).fst ≤ x) = true := by
    intro b hb
    rw [decide_eq_true_eq]
    rcases List.mem_append.mp hb with hb | hb
    · have hlt := (List.pairwise_append.mp hs.fst_lt).2.2 b hb r List.mem_cons_self
      exact hlt.le.trans hx.1
    · obtain rfl := List.mem_singleton.mp hb
      exact hx.1
  have h₂ : ∀ b ∈ l₂, decide ((span b).fst ≤ x) = false := by
    intro b hb
    rw [decide_eq_false_iff_not, not_le]
    exact lt_of_le_of_lt hx.2 (hp.2.2 r (by simp) b hb)
  have := partitionPoint_append h₁ h₂
  simpa [floorIndex] using this

theorem Separated.getElem?_floorIndex_pred (hs : Separated span l) {r : β} (hr : r ∈ l)
    (hx : x ∈ span r) : 0 < floorIndex span x l ∧ l[floorIndex span x l - 1]? = some r := by
  obtain ⟨l₁, l₂, rfl⟩ := List.append_of_mem hr
  rw [hs.floorIndex_append hx]
  exact ⟨Nat.succ_pos _, by simp⟩

theorem exists_cut (hs : l.Pairwise fun a b => (span a).fst < (span b).fst) (x : α) :
    ∃ below above, l = below ++ above ∧ (∀ b ∈ below, (span b).fst ≤ x) ∧
      ∀ b ∈ above, ¬ (span b).fst ≤ x := by
  induction l with
  | nil => exact ⟨[], [], rfl, by simp, by simp⟩
  | cons a l ih =>
    obtain ⟨ha, hl⟩ := List.pairwise_cons.mp hs
    by_cases hx : (span a).fst ≤ x
    · obtain ⟨below, above, rfl, hb, hb'⟩ := ih hl
      exact ⟨a :: below, above, rfl, List.forall_mem_cons.mpr ⟨hx, hb⟩, hb'⟩
    · refine ⟨[], a :: l, rfl, by simp, List.forall_mem_cons.mpr ⟨hx, fun b hb hle => ?_⟩⟩
      exact hx ((ha b hb).le.trans hle)

/-- The start test holds up to the partition point and fails from there on. -/
theorem Separated.exists_floorIndex (hs : Separated span l) (x : α) :
    ∃ below above, l = below ++ above ∧ (∀ b ∈ below, (span b).fst ≤ x) ∧
      (∀ b ∈ above, ¬ (span b).fst ≤ x) ∧ floorIndex span x l = below.length := by
  obtain ⟨below, above, rfl, hb, ha⟩ := exists_cut hs.fst_lt x
  refine ⟨below, above, rfl, hb, ha, partitionPoint_append (fun b h => ?_) fun b h => ?_⟩
  · exact decide_eq_true (hb b h)
  · exact decide_eq_false (ha b h)

end Separated

end ClientAddr
