import ClientAddr.Text.Quote

/-! # Where the delimiters are

The places of the delimiters that one scan of a whole text meets outside quoted
strings. The pieces of `splitOutside` lie between them, and a part of the text that
starts outside quoted strings has them at the same places as the whole.
-/

namespace ClientAddr

namespace Text

open QuoteState

/-- A delimiter that the scan meets outside quoted strings stands at this place. -/
def CutAt (d : Char) (s : QuoteState) (t : Text) (i : ℕ) : Prop :=
  t[i]? = some d ∧ s.scan (t.take i) = .outside

instance (d : Char) (s : QuoteState) (t : Text) : DecidablePred (CutAt d s t) := fun _ =>
  inferInstanceAs (Decidable (_ ∧ _))

def cuts (d : Char) (s : QuoteState) (t : Text) : List ℕ :=
  (List.range t.length).filter (CutAt d s t)

/-- The stretches between the given places, of a text of length `n` from the place `a` on. -/
def stretches : ℕ → List ℕ → ℕ → List (ℕ × ℕ)
  | a, [], n => [(a, n)]
  | a, i :: is, n => (a, i) :: stretches (i + 1) is n

def slice (t : Text) (p : ℕ × ℕ) : Text := (t.take p.2).drop p.1

def pieces (d : Char) (s : QuoteState) (t : Text) : List (ℕ × ℕ) :=
  stretches 0 (cuts d s t) t.length

variable {d c : Char} {s : QuoteState} {t u v : Text} {i j a n : ℕ} {is : List ℕ} {p : ℕ × ℕ}

section Cuts

theorem CutAt.lt (h : CutAt d s t i) : i < t.length := (List.getElem?_eq_some_iff.mp h.1).1

theorem mem_cuts : i ∈ cuts d s t ↔ CutAt d s t i := by
  simp only [cuts, List.mem_filter, List.mem_range, decide_eq_true_eq, and_iff_right_iff_imp]
  exact CutAt.lt

theorem cutAt_zero : CutAt d s (c :: t) 0 ↔ s = .outside ∧ c = d := by
  simp [CutAt, and_comm]

theorem cutAt_succ : CutAt d s (c :: t) (i + 1) ↔ CutAt d (s.step c) t i := by
  simp [CutAt]

theorem cuts_cons (d : Char) (s : QuoteState) (c : Char) (t : Text) :
    cuts d s (c :: t) =
      (if s = .outside ∧ c = d then [0] else []) ++ (cuts d (s.step c) t).map (· + 1) := by
  have hf : ((fun i => decide (CutAt d s (c :: t) i)) ∘ Nat.succ) =
      fun i => decide (CutAt d (s.step c) t i) :=
    funext fun i => decide_eq_decide.mpr cutAt_succ
  have htail : (List.map Nat.succ (List.range t.length)).filter
      (fun i => decide (CutAt d s (c :: t) i)) = (cuts d (s.step c) t).map (· + 1) := by
    simp only [List.filter_map, hf]
    rfl
  simp only [cuts, List.length_cons, List.range_succ_eq_map, List.filter_cons, decide_eq_true_eq,
    cutAt_zero]
  rw [htail]
  split_ifs <;> rfl

theorem pairwise_cuts (d : Char) (s : QuoteState) (t : Text) :
    (cuts d s t).Pairwise (· < ·) := List.pairwise_lt_range.filter _

theorem cutAt_append (hi : i < u.length) :
    CutAt d s (t ++ (u ++ v)) (t.length + i) ↔ CutAt d (s.scan t) u i := by
  have hget : (t ++ (u ++ v))[t.length + i]? = u[i]? := by
    rw [List.getElem?_append_right (by omega), Nat.add_sub_cancel_left,
      List.getElem?_append_left hi]
  have htake : (t ++ (u ++ v)).take (t.length + i) = t ++ u.take i := by
    rw [List.take_length_add_append, List.take_append_of_le_length hi.le]
  simp only [CutAt, hget, htake, scan_append]

end Cuts

section Stretches

theorem length_stretches : (stretches a is n).length = is.length + 1 := by
  induction is generalizing a with
  | nil => rfl
  | cons i is ih => simp [stretches, ih]

theorem stretches_map_succ :
    stretches (a + 1) (is.map (· + 1)) (n + 1) =
      (stretches a is n).map fun p => (p.1 + 1, p.2 + 1) := by
  induction is generalizing a with
  | nil => rfl
  | cons i is ih => simp [stretches, ih]

theorem mem_stretches (hs : is.Pairwise (· < ·)) (hi : ∀ i ∈ is, a ≤ i ∧ i < n) (ha : a ≤ n)
    (hp : p ∈ stretches a is n) :
    (p.1 = a ∨ ∃ i ∈ is, p.1 = i + 1) ∧ p.1 ≤ p.2 ∧ p.2 ≤ n := by
  induction is generalizing a with
  | nil =>
    obtain rfl := List.mem_singleton.mp hp
    exact ⟨Or.inl rfl, ha, le_rfl⟩
  | cons i is ih =>
    obtain ⟨hlt, hs'⟩ := List.pairwise_cons.mp hs
    obtain ⟨hai, hin⟩ := hi i List.mem_cons_self
    rcases List.mem_cons.mp hp with rfl | hp
    · exact ⟨Or.inl rfl, hai, hin.le⟩
    · have hi' : ∀ j ∈ is, i + 1 ≤ j ∧ j < n := fun j hj =>
        ⟨hlt j hj, (hi j (List.mem_cons_of_mem _ hj)).2⟩
      obtain ⟨h | ⟨j, hj, h⟩, hle⟩ := ih hs' hi' hin hp
      · exact ⟨Or.inr ⟨i, List.mem_cons_self, h⟩, hle⟩
      · exact ⟨Or.inr ⟨j, List.mem_cons_of_mem _ hj, h⟩, hle⟩

theorem slice_succ (c : Char) (t : Text) (p : ℕ × ℕ) :
    slice (c :: t) (p.1 + 1, p.2 + 1) = slice t p := rfl

theorem map_slice_stretches_succ (c : Char) (t : Text) :
    (stretches (a + 1) (is.map (· + 1)) (n + 1)).map (slice (c :: t)) =
      (stretches a is n).map (slice t) := by
  rw [stretches_map_succ, List.map_map]
  exact List.map_congr_left fun p _ => slice_succ c t p

/-- The pieces that the scan cuts are the parts between the delimiters. -/
theorem splitOutside_eq_map_slice (hd : d ≠ '"') (s : QuoteState) (t : Text) :
    splitOutside d s t = (pieces d s t).map (slice t) := by
  induction t generalizing s with
  | nil => rfl
  | cons c t ih =>
    simp only [splitOutside, pieces, cuts_cons, List.length_cons, ih]
    split_ifs with h
    · have hs : s.step c = .outside := by simp [h.1, h.2, step, hd]
      simp only [List.singleton_append, stretches, List.map_cons, map_slice_stretches_succ, hs]
      rfl
    · rw [List.nil_append]
      cases cuts d (s.step c) t with
      | nil => rfl
      | cons i is =>
        simp only [List.map_cons, stretches, map_slice_stretches_succ]
        rfl

theorem length_pieces (d : Char) (s : QuoteState) (t : Text) :
    (pieces d s t).length = (cuts d s t).length + 1 := length_stretches

theorem length_splitOutside_le (hd : d ≠ '"') (s : QuoteState) (t : Text) :
    (splitOutside d s t).length ≤ t.length + 1 := by
  have hc : (cuts d s t).length ≤ (List.range t.length).length := List.length_filter_le _ _
  simp only [splitOutside_eq_map_slice hd, List.length_map, length_pieces]
  simpa using hc

theorem mem_pieces (hd : d ≠ '"') (hp : p ∈ pieces d .outside t) :
    outside.scan (t.take p.1) = .outside ∧ p.1 ≤ p.2 ∧ p.2 ≤ t.length := by
  have hi : ∀ i ∈ cuts d .outside t, 0 ≤ i ∧ i < t.length := fun i hi =>
    ⟨Nat.zero_le i, (mem_cuts.mp hi).lt⟩
  obtain ⟨h | ⟨i, hi, h⟩, hle⟩ := mem_stretches (pairwise_cuts _ _ _) hi (Nat.zero_le _) hp
  · exact ⟨by rw [h]; rfl, hle⟩
  · obtain ⟨hget, hscan⟩ := mem_cuts.mp hi
    refine ⟨?_, hle⟩
    rw [h, List.take_add_one, hget, scan_append, hscan]
    simp [step, hd]

theorem take_append_slice_append (hp : p.1 ≤ p.2) (t : Text) :
    t = t.take p.1 ++ (slice t p ++ t.drop p.2) := by
  have htake : (t.take p.2).take p.1 = t.take p.1 := by
    simp [List.take_take, hp]
  conv_lhs => rw [← List.take_append_drop p.2 t, ← List.take_append_drop p.1 (t.take p.2), htake]
  rw [List.append_assoc]
  rfl

end Stretches

/-- The delimiters of a trimmed piece are those of the whole text at the places it comes from. -/
theorem exists_place_trim_slice (hd : d ≠ '"') (hp : p ∈ pieces d .outside t) :
    ∃ o, p.1 ≤ o ∧ o + (trim (slice t p)).length ≤ p.2 ∧
      slice t (o, o + (trim (slice t p)).length) = trim (slice t p) ∧
      ∀ e i, CutAt e .outside (trim (slice t p)) i ↔
        i < (trim (slice t p)).length ∧ CutAt e .outside t (o + i) := by
  obtain ⟨hscan, hle, hlen⟩ := mem_pieces hd hp
  obtain ⟨l, r, hl, hr, ht⟩ := trim_decomp (slice t p)
  have hcut := take_append_slice_append hle t
  generalize trim (slice t p) = x at *
  have hfront : outside.scan (t.take p.1 ++ l) = .outside := by
    rw [scan_append, hscan, scan_outside (quote_not_mem_of_blank hl)]
  have hwhole : t = (t.take p.1 ++ l) ++ (x ++ (r ++ t.drop p.2)) := by
    conv_lhs => rw [hcut, ht]
    simp only [List.append_assoc]
  have hfrontlen : (t.take p.1 ++ l).length = p.1 + l.length := by
    simp [hle.trans hlen]
  have hslice : (slice t p).length = p.2 - p.1 := by
    simp [slice, hlen]
  simp only [ht, List.length_append] at hslice
  refine ⟨p.1 + l.length, by omega, by omega, ?_, fun e i => ?_⟩
  · rw [slice, hwhole, ← hfrontlen, List.take_length_add_append, List.drop_left,
      List.take_left]
  · constructor
    · intro h
      refine ⟨h.lt, ?_⟩
      rw [hwhole, ← hfrontlen, cutAt_append h.lt, hfront]
      exact h
    · rintro ⟨hi, h⟩
      rwa [hwhole, ← hfrontlen, cutAt_append hi, hfront] at h

end Text

end ClientAddr
