import Mathlib.Data.List.Find

/-! # First entries

The first entry of each key, in the order of the list. A search by key finds nothing
else in the list, and such searches determine these entries and their order.
-/

namespace ClientAddr

variable {α κ : Type} [DecidableEq κ] {key : α → κ} {l l' : List α}

/-- The entries whose key no entry in front of them has. -/
def firsts (key : α → κ) : List α → List α
  | [] => []
  | a :: l => a :: (firsts key l).filter fun b => key b ≠ key a

theorem find?_firsts (p : κ → Bool) (l : List α) :
    (firsts key l).find? (fun a => p (key a)) = l.find? fun a => p (key a) := by
  induction l with
  | nil => rfl
  | cons a l ih =>
    rw [firsts, List.find?_cons, List.find?_cons]
    cases ha : p (key a) with
    | true => rfl
    | false =>
      -- the entries that are left out have a key that is not searched for
      have hp : (fun b => decide (decide (key b ≠ key a) = true ∧ p (key b) = true)) =
          fun b => p (key b) := by
        funext b
        by_cases hb : key b = key a
        · simp [hb, ha]
        · simp [hb]
      simp only [List.find?_filter, hp, ih]

theorem pairwise_firsts (key : α → κ) (l : List α) :
    (firsts key l).Pairwise fun a b => key b ≠ key a := by
  induction l with
  | nil => exact .nil
  | cons a l ih =>
    refine List.pairwise_cons.mpr ⟨fun b hb => ?_, ih.filter _⟩
    simpa using (List.mem_filter.mp hb).2

theorem find?_of_pairwise_cons {a : α} (h : (a :: l).Pairwise fun a b => key b ≠ key a)
    (keys : List κ) :
    (a :: l).find? (fun b => decide (key b ∈ keys.filter (· ≠ key a))) =
      l.find? fun b => decide (key b ∈ keys) := by
  rw [List.find?_cons_of_neg (by simp)]
  apply List.find?_congr
  intro b hb
  simp [(List.pairwise_cons.mp h).1 b hb]

theorem eq_of_find?_eq (hl : l.Pairwise fun a b => key b ≠ key a)
    (hl' : l'.Pairwise fun a b => key b ≠ key a)
    (h : ∀ keys : List κ, l.find? (fun a => decide (key a ∈ keys)) =
      l'.find? fun a => decide (key a ∈ keys)) : l = l' := by
  induction l generalizing l' with
  | nil =>
    cases l' with
    | nil => rfl
    | cons a l' =>
      have ha := h [key a]
      simp at ha
  | cons a l ih =>
    cases l' with
    | nil =>
      have ha := h [key a]
      simp at ha
    | cons a' l' =>
      have ha := h [key a, key a']
      obtain rfl : a = a' := by simpa using ha
      refine congrArg _ (ih hl.of_cons hl'.of_cons fun keys => ?_)
      rw [← find?_of_pairwise_cons hl, ← find?_of_pairwise_cons hl', h]

/-- Lists in which every search by key finds the same have the same first entries. -/
theorem firsts_eq_of_find?_eq (h : ∀ keys : List κ, l.find? (fun a => decide (key a ∈ keys)) =
    l'.find? fun a => decide (key a ∈ keys)) : firsts key l = firsts key l' := by
  apply eq_of_find?_eq (pairwise_firsts key l) (pairwise_firsts key l')
  intro keys
  rw [find?_firsts (fun k => decide (k ∈ keys)), find?_firsts (fun k => decide (k ∈ keys)), h]

end ClientAddr
