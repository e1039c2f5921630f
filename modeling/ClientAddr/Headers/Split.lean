import ClientAddr.Model.Headers
import ClientAddr.Text.Cuts

/-! # The quote-aware splitter

Every call of `next` starts its own scan at the place where the last call
stopped. The items are the trimmed pieces that one scan of the whole text cuts.
-/

namespace ClientAddr

open QuoteState Text

namespace QuoteState

def inQuotes : QuoteState → Bool
  | outside => false
  | inside | escaped => true

def isEscaped : QuoteState → Bool
  | outside | inside => false
  | escaped => true

end QuoteState

namespace SplitQuoted

variable {d : Char}

theorem find_cons (s : QuoteState) (n : ℕ) {c : Char} (hc : ¬ (s = .outside ∧ c = d)) (t : Text) :
    find d n s.inQuotes s.isEscaped (c :: t) =
      find d (n + 1) (s.step c).inQuotes (s.step c).isEscaped t := by
  cases s with
  | outside =>
    have hcd : c ≠ d := fun h => hc ⟨rfl, h⟩
    by_cases hq : c = '"' <;> simp [find, inQuotes, isEscaped, step, hq, hcd]
  | inside =>
    by_cases hb : c = '\\'
    · simp [find, inQuotes, isEscaped, step, hb]
    · by_cases hq : c = '"' <;> simp [find, inQuotes, isEscaped, step, hb, hq]
  | escaped => simp [find, inQuotes, isEscaped, step]

/-- The loop stops at the first delimiter that the scan meets outside quoted strings. -/
theorem find_spec (hd : d ≠ '"') (s : QuoteState) (n : ℕ) (t : Text) :
    (find d n s.inQuotes s.isEscaped t = none ∧ splitOutside d s t = [t]) ∨
      ∃ p r, t = p ++ d :: r ∧ find d n s.inQuotes s.isEscaped t = some (n + p.length) ∧
        splitOutside d s t = p :: splitOutside d .outside r := by
  induction t generalizing s n with
  | nil => exact Or.inl ⟨rfl, rfl⟩
  | cons c t ih =>
    by_cases hc : s = .outside ∧ c = d
    · obtain ⟨rfl, rfl⟩ := hc
      refine Or.inr ⟨[], t, rfl, ?_, ?_⟩
      · simp [find, inQuotes, isEscaped, hd]
      · rw [splitOutside, if_pos ⟨rfl, rfl⟩]
    · rw [find_cons s n hc, splitOutside, if_neg hc]
      rcases ih (s.step c) (n + 1) with ⟨hn, hs⟩ | ⟨p, r, rfl, hn, hs⟩
      · exact Or.inl ⟨hn, by rw [hs]; rfl⟩
      · refine Or.inr ⟨c :: p, r, rfl, ?_, by rw [hs]; rfl⟩
        rw [hn, List.length_cons, Nat.add_assoc, Nat.add_comm 1]

theorem run_eq (hd : d ≠ '"') (input : Text) (fuel k : ℕ) :
    run fuel ⟨input, d, some k⟩ =
      ((splitOutside d .outside (input.drop k)).take fuel).map trim := by
  induction fuel generalizing k with
  | zero => rfl
  | succ fuel ih =>
    rcases find_spec hd .outside 0 (input.drop k) with ⟨hn, hs⟩ | ⟨p, r, hp, hn, hs⟩
    · have hnext : next ⟨input, d, some k⟩ = some (trim (input.drop k), ⟨input, d, none⟩) := by
        simp only [next]
        rw [show find d 0 false false (input.drop k) = none from hn]
      rw [run, hnext, hs]
      cases fuel <;> rfl
    · have hr : input.drop (k + p.length + 1) = r := by
        rw [add_assoc, ← List.drop_drop, hp, List.drop_append]
        simp
      have hnext : next ⟨input, d, some k⟩ =
          some (trim p, ⟨input, d, some (k + p.length + 1)⟩) := by
        simp only [next]
        rw [show find d 0 false false (input.drop k) = some (0 + p.length) from hn]
        simp [hp]
      rw [run, hnext, hs, List.take_succ_cons, List.map_cons, ← hr, ← ih]

/-- The iterator gives these items, one at each call, and ends after the last one. -/
def Yields (s : SplitQuoted) (items : List Text) : Prop := ∀ fuel, run fuel s = items.take fuel

theorem yields_new (hd : d ≠ '"') (input : Text) :
    (new input d).Yields ((splitOutside d .outside input).map trim) := by
  intro fuel
  simp [new, run_eq hd]

theorem Yields.items_eq {s : SplitQuoted} {items : List Text} (h : s.Yields items)
    (hl : items.length ≤ s.input.length + 1) : s.items = items := by
  rw [SplitQuoted.items, h, List.take_of_length_le hl]

/-- The items are the trimmed pieces between the delimiters outside quoted strings. -/
theorem items_new (hd : d ≠ '"') (input : Text) :
    (new input d).items = (splitOutside d .outside input).map trim := by
  apply (yields_new hd input).items_eq
  simpa [new] using length_splitOutside_le hd .outside input

theorem items_new_trim (hd : d ≠ '"') (hw : isWhitespace d = false) (t : Text) :
    (new (trim t) d).items = (splitOutside d .outside t).map trim := by
  rw [items_new hd, map_trim_splitOutside_trim hd hw]

/--
The iterator cuts a text at the delimiters that one scan of the whole text meets outside quoted
strings, and an element that is split again is cut where that scan would cut it.
-/
theorem split_follows_one_scan (t : Text) (d : Char) (hd : d ≠ '"') :
    (new t d).Yields ((pieces d .outside t).map fun p => trim (slice t p)) ∧
    (pieces d .outside t).length = (cuts d .outside t).length + 1 ∧
    [d].intercalate ((pieces d .outside t).map (slice t)) = t ∧
    ∀ p ∈ pieces d .outside t, ∀ element, element = trim (slice t p) →
      ∃ o, p.1 ≤ o ∧ o + element.length ≤ p.2 ∧ slice t (o, o + element.length) = element ∧
        ∀ e, e ≠ '"' →
          (new element e).Yields ((pieces e .outside element).map fun q => trim (slice element q)) ∧
          ∀ i, i ∈ cuts e .outside element ↔ i < element.length ∧ o + i ∈ cuts e .outside t := by
  have hy : ∀ u e, e ≠ '"' →
      (new u e).Yields ((pieces e .outside u).map fun q => trim (slice u q)) := by
    intro u e he
    have h := yields_new he u
    rwa [splitOutside_eq_map_slice he, List.map_map] at h
  refine ⟨hy t d hd, length_pieces _ _ _, ?_, ?_⟩
  · rw [← splitOutside_eq_map_slice hd, intercalate_splitOutside]
  · rintro p hp element rfl
    obtain ⟨o, ho, hl, hslice, hcut⟩ := exists_place_trim_slice hd hp
    refine ⟨o, ho, hl, hslice, fun e he => ⟨hy _ e he, fun i => ?_⟩⟩
    simpa only [mem_cuts] using hcut e i

theorem split_sample_follows_one_scan :
    run 3 (new "for=\"a;b\" ; by=c".toList ';') = ["for=\"a;b\"".toList, "by=c".toList] :=
  ((split_follows_one_scan _ ';' (by decide)).1 3).trans (by decide +kernel)

end SplitQuoted

end ClientAddr
