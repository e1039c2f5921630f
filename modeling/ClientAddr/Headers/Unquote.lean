import ClientAddr.Headers.Lines

/-! # Values of a parameter

A token is its own value, and a quoted string is undone by dropping its quotes
and its escapes.
-/

namespace ClientAddr

open QuoteState Text

variable {t : Text} {c : Char}

def isTokenChar (c : Char) : Bool := c.isAlphanum || "!#$%&'*+-.^_`|~".toList.contains c

def IsToken (t : Text) : Prop := t ≠ [] ∧ t.all isTokenChar = true

instance (t : Text) : Decidable (IsToken t) := inferInstanceAs (Decidable (_ ∧ _))

theorem IsToken.not_mem (h : IsToken t) (hc : isTokenChar c = false) : c ∉ t := by
  intro hm
  rw [List.all_eq_true.mp h.2 c hm] at hc
  cases hc

theorem toNat_of_isTokenChar (h : isTokenChar c = true) : 33 ≤ c.toNat ∧ c.toNat ≤ 126 := by
  rcases Bool.or_eq_true_iff.mp h with h | h
  · exact toNat_of_isAlphanum h
  · have hall : "!#$%&'*+-.^_`|~".toList.all (fun d => 33 ≤ d.toNat ∧ d.toNat ≤ 126) = true := by
      decide
    exact of_decide_eq_true (List.all_eq_true.mp hall c (List.contains_iff_mem.mp h))

theorem IsToken.isWhitespace (h : IsToken t) : ∀ c ∈ t, isWhitespace c = false := fun c hc =>
  isWhitespace_of_printable (toNat_of_isTokenChar (List.all_eq_true.mp h.2 c hc))

section Unescape

theorem unescape_plain (o : Text) (h : '\\' ∉ t) :
    t.foldl unescapeStep (o, false) = (o ++ t, false) := by
  induction t generalizing o with
  | nil => simp
  | cons c t ih =>
    rw [List.mem_cons, not_or] at h
    rw [List.foldl_cons, unescapeStep, if_neg (Ne.symm h.1), ih _ h.2]
    simp

theorem unescape_quoteBody (o : Text) (flags : List Bool) (t : Text) :
    (quoteBody flags t).foldl unescapeStep (o, false) = (o ++ t, false) := by
  induction t generalizing o flags with
  | nil => simp [quoteBody]
  | cons c t ih =>
    rw [quoteBody]
    split_ifs with h
    · rw [List.foldl_cons, List.foldl_cons, unescapeStep, if_pos rfl, unescapeStep, ih]
      simp
    · rw [not_or, not_or] at h
      rw [List.foldl_cons, unescapeStep, if_neg h.2.2, ih]
      simp

theorem trimmed_between (b : Text) : Trimmed ('"' :: (b ++ ['"'])) := by
  constructor
  · intro c hc
    obtain rfl : '"' = c := by simpa using hc
    decide
  · intro c hc
    obtain rfl : '"' = c := by
      rw [← List.cons_append, List.getLast?_append] at hc
      simpa using hc
    decide

theorem trimmed_quote (flags : List Bool) (t : Text) : Trimmed (quote flags t) :=
  trimmed_between (quoteBody flags t)

theorem unquote_between (b : Text) :
    unquoteHttpQuotedString ('"' :: (b ++ ['"'])) = (b.foldl unescapeStep ([], false)).1 := by
  have hq : ¬ (('"' :: (b ++ ['"'])).length < 2 ∨ ('"' :: (b ++ ['"'])).head? ≠ some '"' ∨
      ('"' :: (b ++ ['"'])).getLast? ≠ some '"') := by
    rw [← List.cons_append, List.getLast?_append]
    simp
  have hin : ('"' :: (b ++ ['"'])).tail.dropLast = b := by
    rw [List.tail_cons, List.dropLast_concat]
  simp only [unquoteHttpQuotedString, (trimmed_between b).trim]
  rw [if_neg hq, hin]
  split_ifs with hb
  · rfl
  · rw [unescape_plain [] hb, List.nil_append]

theorem unquote_quote (flags : List Bool) (t : Text) :
    unquoteHttpQuotedString (quote flags t) = t := by
  rw [quote, unquote_between, unescape_quoteBody, List.nil_append]

theorem length_unescape_le (e : Bool) (o t : Text) :
    (t.foldl unescapeStep (o, e)).1.length ≤ o.length + t.length := by
  induction t generalizing o e with
  | nil => simp
  | cons c t ih =>
    have hstep : (unescapeStep (o, e) c).1.length ≤ o.length + 1 := by
      cases e with
      | true => simp [unescapeStep]
      | false => by_cases hc : c = '\\' <;> simp [unescapeStep, hc]
    have hrest := ih (unescapeStep (o, e) c).2 (unescapeStep (o, e) c).1
    rw [List.foldl_cons, List.length_cons]
    exact hrest.trans (by omega)

/-- A trimmed value is returned as it is unless its first and last characters are two quotes. -/
theorem unquote_eq_self_iff (ht : Trimmed t) :
    unquoteHttpQuotedString t = t ↔ ∀ b, t ≠ '"' :: (b ++ ['"']) := by
  constructor
  · rintro h b rfl
    rw [unquote_between] at h
    have hlen := length_unescape_le false [] b
    rw [h] at hlen
    simp only [List.length_cons, List.length_append, List.length_nil] at hlen
    omega
  · intro h
    simp only [unquoteHttpQuotedString, ht.trim]
    rw [if_pos]
    by_contra hn
    simp only [not_or, not_not, not_lt] at hn
    obtain ⟨hlen, hhead, hlast⟩ := hn
    obtain ⟨r, rfl⟩ := List.head?_eq_some_iff.mp hhead
    cases r using List.reverseRecOn with
    | nil => simp at hlen
    | append_singleton b c =>
      rw [← List.cons_append, List.getLast?_concat] at hlast
      exact h b (by rw [Option.some.inj hlast])

theorem unquote_bare (h : '"' ∉ t) : unquoteHttpQuotedString t = trim t := by
  have hh : (trim t).head? ≠ some '"' := fun hh =>
    h (mem_of_mem_trim (List.mem_of_mem_head? hh))
  simp only [unquoteHttpQuotedString]
  rw [if_pos (Or.inr (Or.inl hh))]

theorem mem_unescape {b : Bool} {o : Text} (h : c ∈ o ∨ c ∈ t) (hc : c ≠ '\\') :
    c ∈ (t.foldl unescapeStep (o, b)).1 := by
  induction t generalizing o b with
  | nil => simpa using h
  | cons d t ih =>
    rw [List.foldl_cons]
    have hstep : c ∈ (unescapeStep (o, b) d).1 ∨ c ∈ t := by
      cases b with
      | true =>
        simp only [unescapeStep, List.mem_append, List.mem_singleton]
        simp only [List.mem_cons] at h
        tauto
      | false =>
        by_cases hd : d = '\\'
        · subst hd
          simp only [unescapeStep, if_true]
          simp only [List.mem_cons, hc, false_or] at h
          exact h
        · simp only [unescapeStep, if_neg hd, List.mem_append, List.mem_singleton]
          simp only [List.mem_cons] at h
          tauto
    exact ih hstep

theorem mem_tail_dropLast (h : c ∈ t) (hh : t.head? ≠ some c) (hl : t.getLast? ≠ some c) :
    c ∈ t.tail.dropLast := by
  cases t with
  | nil => cases h
  | cons d t =>
    have ht : c ∈ t := (List.mem_cons.mp h).resolve_left fun hd => hh (by rw [hd]; rfl)
    have hne : t ≠ [] := List.ne_nil_of_mem ht
    rw [List.getLast?_cons, List.getLast?_eq_getLast_of_ne_nil hne, Option.getD_some, ne_eq,
      Option.some.injEq] at hl
    rw [← List.dropLast_append_getLast hne, List.mem_append, List.mem_singleton] at ht
    exact ht.resolve_right (Ne.symm hl)

theorem mem_unquote (h : c ∈ t) (hw : Text.isWhitespace c = false) (hq : c ≠ '"') (hb : c ≠ '\\') :
    c ∈ unquoteHttpQuotedString t := by
  have ht : c ∈ trim t := mem_trim h hw
  simp only [unquoteHttpQuotedString]
  split_ifs with hn hin
  · exact ht
  all_goals
    simp only [not_or, not_not] at hn
    have hinner : c ∈ (trim t).tail.dropLast := by
      apply mem_tail_dropLast ht
      · rw [hn.2.1, ne_eq, Option.some.injEq]
        exact Ne.symm hq
      · rw [hn.2.2, ne_eq, Option.some.injEq]
        exact Ne.symm hq
  · exact mem_unescape (Or.inr hinner) hb
  · exact hinner

end Unescape

end ClientAddr
