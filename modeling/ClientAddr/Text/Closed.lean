import ClientAddr.Text.Quote

/-! # Where a quoted string is closed

A text that opens with a quote is one quoted string when the scan comes back outside
with its last character and not before. These texts are exactly the quoted ones. A
string that is never closed keeps the scan inside for good, also behind a last quote
that is escaped.
-/

namespace ClientAddr

namespace Text

open QuoteState

/-- The scan does not come back outside, wherever it is stopped. -/
def StaysOpen (s : QuoteState) (t : Text) : Prop := ∀ p, p <+: t → s.scan p ≠ .outside

/-- The quoted string that the text opens with is closed by the last character. -/
structure OneQuoted (t : Text) : Prop where
  opens : t.head? = some '"'
  closes : outside.scan t = .outside
  first : ∀ p, p <+: t → p ≠ [] → p ≠ t → outside.scan p ≠ .outside

/-- The quoted string that the text opens with is not closed. -/
structure NeverClosed (t : Text) : Prop where
  opens : t.head? = some '"'
  stays : ∀ p, p <+: t → p ≠ [] → outside.scan p ≠ .outside

variable {s : QuoteState} {t b : Text} {c : Char}

theorem staysOpen_nil : StaysOpen s [] ↔ s ≠ .outside := by
  simp [StaysOpen]

theorem staysOpen_cons : StaysOpen s (c :: t) ↔ s ≠ .outside ∧ StaysOpen (s.step c) t := by
  constructor
  · intro h
    refine ⟨h [] List.nil_prefix, fun p hp => ?_⟩
    exact h (c :: p) (List.cons_prefix_cons.mpr ⟨rfl, hp⟩)
  · rintro ⟨hs, h⟩ p hp
    rcases List.prefix_cons_iff.mp hp with rfl | ⟨q, rfl, hq⟩
    · exact hs
    · exact h q hq

theorem staysOpen_concat :
    StaysOpen s (t ++ [c]) ↔ StaysOpen s t ∧ s.scan (t ++ [c]) ≠ .outside := by
  simp only [StaysOpen, List.prefix_concat_iff, forall_eq_or_imp]
  exact and_comm

theorem StaysOpen.start (h : StaysOpen s t) : s ≠ .outside := h [] List.nil_prefix

theorem StaysOpen.scan (h : StaysOpen s t) : s.scan t ≠ .outside := h t List.prefix_rfl

theorem staysOpen_of_not_mem (hs : s ≠ .outside) (hq : '"' ∉ t) : StaysOpen s t := fun _ hp =>
  (uncut_of_open '"' hs fun hm => hq (hp.subset hm)).2

theorem staysOpen_quoteBody (flags : List Bool) (t : Text) :
    StaysOpen .inside (quoteBody flags t) := by
  induction t generalizing flags with
  | nil => exact staysOpen_nil.mpr (by decide)
  | cons c t ih =>
    rw [quoteBody]
    split_ifs with h
    · simp [staysOpen_cons, step, ih]
    · rw [not_or, not_or] at h
      simp [staysOpen_cons, step, h.2.1, h.2.2, ih]

theorem exists_quoteBody (b : Text) :
    (StaysOpen .inside b → inside.scan b = .inside → ∃ flags t, b = quoteBody flags t) ∧
      (StaysOpen .escaped b → escaped.scan b = .inside →
        ∃ flags t, '\\' :: b = quoteBody flags t) := by
  induction b with
  | nil => exact ⟨fun _ _ => ⟨[], [], rfl⟩, fun _ h => by cases h⟩
  | cons c b ih =>
    constructor
    · intro ho hs
      have hb := (staysOpen_cons.mp ho).2
      rw [scan_cons] at hs
      by_cases he : c = '\\'
      · subst he
        exact ih.2 hb hs
      · by_cases hq : c = '"'
        · subst hq
          exact absurd rfl hb.start
        · have hstep : inside.step c = .inside := by simp [step, he, hq]
          rw [hstep] at hb hs
          obtain ⟨flags, t, rfl⟩ := ih.1 hb hs
          exact ⟨false :: flags, c :: t, by simp [quoteBody, he, hq]⟩
    · intro ho hs
      obtain ⟨flags, t, rfl⟩ := ih.1 (staysOpen_cons.mp ho).2 hs
      exact ⟨true :: flags, c :: t, by simp [quoteBody]⟩

theorem step_eq_outside (hs : s ≠ .outside) (h : s.step c = .outside) : s = .inside ∧ c = '"' := by
  cases s with
  | outside => exact absurd rfl hs
  | inside =>
    rw [step] at h
    split_ifs at h with _ hq
    exact ⟨rfl, hq⟩
  | escaped => cases h

theorem OneQuoted.exists_body (h : OneQuoted t) :
    ∃ b, t = '"' :: (b ++ ['"']) ∧ StaysOpen .inside b ∧ inside.scan b = .inside := by
  obtain ⟨r, rfl⟩ := List.head?_eq_some_iff.mp h.opens
  cases r using List.reverseRecOn with
  | nil => cases h.closes
  | append_singleton b c =>
    have hopen : StaysOpen .inside b := by
      intro p hp
      refine h.first ('"' :: p) ?_ (by simp) fun he => ?_
      · exact List.cons_prefix_cons.mpr ⟨rfl, hp.trans (List.prefix_append b [c])⟩
      · have hlen := hp.length_le
        simp only [(List.cons.inj he).2, List.length_append, List.length_singleton] at hlen
        omega
    have hlast : (inside.scan b).step c = .outside := by
      simpa [step] using h.closes
    obtain ⟨hb, rfl⟩ := step_eq_outside hopen.scan hlast
    exact ⟨b, rfl, hopen, hb⟩

theorem oneQuoted_of_body (ho : StaysOpen .inside b) (hs : inside.scan b = .inside) :
    OneQuoted ('"' :: (b ++ ['"'])) := by
  refine ⟨rfl, by simp [step, hs], fun p hp hne hnt => ?_⟩
  rcases List.prefix_cons_iff.mp hp with rfl | ⟨q, rfl, hq⟩
  · exact absurd rfl hne
  · rcases List.prefix_concat_iff.mp hq with rfl | hq
    · exact absurd rfl hnt
    · exact ho q hq

/-- One quoted string is a quoted text, with any of its characters escaped. -/
theorem oneQuoted_iff : OneQuoted t ↔ ∃ flags u, t = quote flags u := by
  constructor
  · intro h
    obtain ⟨b, rfl, ho, hs⟩ := h.exists_body
    obtain ⟨flags, u, rfl⟩ := (exists_quoteBody b).1 ho hs
    exact ⟨flags, u, rfl⟩
  · rintro ⟨flags, u, rfl⟩
    exact oneQuoted_of_body (staysOpen_quoteBody flags u) (scan_quoteBody flags u)

theorem neverClosed_cons : NeverClosed ('"' :: t) ↔ StaysOpen .inside t := by
  constructor
  · exact fun h p hp => h.stays ('"' :: p) (List.cons_prefix_cons.mpr ⟨rfl, hp⟩) (by simp)
  · refine fun h => ⟨rfl, fun p hp hne => ?_⟩
    rcases List.prefix_cons_iff.mp hp with rfl | ⟨q, rfl, hq⟩
    · exact absurd rfl hne
    · exact h q hq

theorem neverClosed_of_escaped (ho : StaysOpen .inside b) (hs : inside.scan b = .escaped) :
    NeverClosed ('"' :: (b ++ ['"'])) := by
  rw [neverClosed_cons, staysOpen_concat, scan_append, hs]
  exact ⟨ho, by decide⟩

end Text

end ClientAddr
