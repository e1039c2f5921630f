import Mathlib.Data.List.DropRight
import Mathlib.Data.List.TakeWhile

/-! # Text

A text is a list of characters. The functions below are the string functions of
the standard library that the header readers use: trimming Unicode white space,
splitting at the first or last occurrence of a character, and comparing without
regard to ASCII case.
-/

namespace ClientAddr

abbrev Text := List Char

namespace Text

/-- The Unicode `White_Space` property. -/
def isWhitespace (c : Char) : Bool :=
  let n := c.toNat
  (9 ≤ n && n ≤ 13) || n == 0x20 || n == 0x85 || n == 0xa0 || n == 0x1680 ||
    (0x2000 ≤ n && n ≤ 0x200a) || n == 0x2028 || n == 0x2029 || n == 0x202f || n == 0x205f ||
    n == 0x3000

def trim (t : Text) : Text := (t.dropWhile isWhitespace).rdropWhile isWhitespace

def splitOnce (d : Char) (t : Text) : Option (Text × Text) :=
  match t.dropWhile (· != d) with
  | [] => none
  | _ :: r => some (t.takeWhile (· != d), r)

def rsplitOnce (d : Char) (t : Text) : Option (Text × Text) :=
  (splitOnce d t.reverse).map fun (r, l) => (l.reverse, r.reverse)

/-- Equality up to the case of ASCII letters. -/
def eqIgnoreAsciiCase (s t : Text) : Bool := s.map Char.toLower == t.map Char.toLower

def Blank (t : Text) : Prop := ∀ c ∈ t, isWhitespace c = true

instance (t : Text) : Decidable (Blank t) := List.decidableBAll _ t

structure Trimmed (t : Text) : Prop where
  head : ∀ c ∈ t.head?, isWhitespace c = false
  last : ∀ c ∈ t.getLast?, isWhitespace c = false

variable {s t u : Text} {c d : Char}

theorem Blank.not_mem (h : Blank t) (hc : isWhitespace c = false) : c ∉ t := fun hm =>
  Bool.eq_false_iff.mp hc (h c hm)

theorem dropWhile_of_blank (hs : Blank s) (t : Text) :
    (s ++ t).dropWhile isWhitespace = t.dropWhile isWhitespace := by
  rw [List.dropWhile_append, List.dropWhile_eq_nil_iff.mpr hs]
  rfl

theorem rdropWhile_of_blank (hs : Blank s) (t : Text) :
    (t ++ s).rdropWhile isWhitespace = t.rdropWhile isWhitespace := by
  unfold List.rdropWhile
  have hr : Blank s.reverse := fun c hc => hs c (List.mem_reverse.mp hc)
  rw [List.reverse_append, dropWhile_of_blank hr]

theorem trim_append_left (hs : Blank s) (t : Text) : trim (s ++ t) = trim t := by
  unfold trim
  rw [dropWhile_of_blank hs]

theorem trim_of_blank (hs : Blank s) : trim s = [] := by
  unfold trim
  rw [List.dropWhile_eq_nil_iff.mpr hs]
  rfl

theorem trim_append_right (hs : Blank s) (t : Text) : trim (t ++ s) = trim t := by
  unfold trim
  rw [List.dropWhile_append]
  cases hd : t.dropWhile isWhitespace with
  | nil => simp [List.dropWhile_eq_nil_iff.mpr hs]
  | cons c r => simpa using rdropWhile_of_blank hs (c :: r)

theorem trimmed_of_not_white (h : ∀ c ∈ t, isWhitespace c = false) : Trimmed t :=
  ⟨fun c hc => h c (List.mem_of_mem_head? hc), fun c hc => h c (List.mem_of_mem_getLast? hc)⟩

theorem Trimmed.trim (ht : Trimmed t) : trim t = t := by
  unfold Text.trim
  have hd : t.dropWhile isWhitespace = t := by
    cases t with
    | nil => rfl
    | cons c r => simp [ht.head c rfl]
  rw [hd, List.rdropWhile_eq_self_iff]
  intro hne
  simp [ht.last _ (List.getLast?_eq_getLast_of_ne_nil hne)]

theorem Trimmed.trim_around (ht : Trimmed t) (hs : Blank s) (hu : Blank u) :
    Text.trim (s ++ t ++ u) = t := by
  rw [trim_append_right hu, trim_append_left hs, ht.trim]

theorem dropWhile_decomp (t : Text) : ∃ s, Blank s ∧ t = s ++ t.dropWhile isWhitespace :=
  ⟨t.takeWhile isWhitespace, fun _ hc => List.mem_takeWhile_imp hc,
    (List.takeWhile_append_dropWhile).symm⟩

theorem rdropWhile_decomp (t : Text) : ∃ s, Blank s ∧ t = t.rdropWhile isWhitespace ++ s :=
  ⟨t.rtakeWhile isWhitespace, fun _ hc => List.mem_rtakeWhile_imp hc,
    (List.rdropWhile_append_rtakeWhile).symm⟩

theorem trim_decomp (t : Text) : ∃ s u, Blank s ∧ Blank u ∧ t = s ++ trim t ++ u := by
  obtain ⟨s, hs, h⟩ := dropWhile_decomp t
  obtain ⟨u, hu, h'⟩ := rdropWhile_decomp (t.dropWhile isWhitespace)
  refine ⟨s, u, hs, hu, ?_⟩
  rw [List.append_assoc]
  unfold trim
  rw [← h', ← h]

theorem mem_of_mem_trim (h : c ∈ trim t) : c ∈ t := by
  obtain ⟨s, u, -, -, ht⟩ := trim_decomp t
  rw [ht]
  simp [h]

theorem mem_trim (h : c ∈ t) (hc : isWhitespace c = false) : c ∈ trim t := by
  obtain ⟨s, u, hs, hu, ht⟩ := trim_decomp t
  rw [ht] at h
  simp only [List.mem_append] at h
  rcases h with (h | h) | h
  · exact absurd (hs c h) (by simp [hc])
  · exact h
  · exact absurd (hu c h) (by simp [hc])

theorem trim_eq_nil_iff : trim t = [] ↔ Blank t := by
  constructor
  · intro h c hc
    by_contra hw
    have := mem_trim hc (by simpa using hw)
    simp [h] at this
  · exact trim_of_blank

theorem trimmed_trim (t : Text) : Trimmed (trim t) := by
  constructor
  · intro c hc
    have hp : trim t <+: t.dropWhile isWhitespace := List.rdropWhile_prefix _ _
    have hc' : c ∈ (t.dropWhile isWhitespace).head? := by
      obtain ⟨r, hr⟩ := hp
      rw [← hr]
      cases ht : trim t with
      | nil => simp [ht] at hc
      | cons a l => simpa [ht] using hc
    have := List.head?_dropWhile_not isWhitespace t
    rw [Option.mem_def.mp hc'] at this
    simpa using this
  · intro c hc
    have hne : trim t ≠ [] := by
      rintro h
      simp [h] at hc
    have := List.rdropWhile_last_not isWhitespace (t.dropWhile isWhitespace) hne
    rw [Option.mem_def, List.getLast?_eq_getLast_of_ne_nil hne, Option.some.injEq] at hc
    rw [← hc]
    simpa [trim] using this

theorem trim_trim (t : Text) : trim (trim t) = trim t := (trimmed_trim t).trim

theorem takeWhile_ne_append (h : d ∉ s) : (s ++ d :: t).takeWhile (· != d) = s := by
  induction s with
  | nil => simp
  | cons c s ih =>
    rw [List.mem_cons, not_or] at h
    simp [Ne.symm h.1, ih h.2]

theorem dropWhile_ne_append (h : d ∉ s) : (s ++ d :: t).dropWhile (· != d) = d :: t := by
  induction s with
  | nil => simp
  | cons c s ih =>
    rw [List.mem_cons, not_or] at h
    simp [Ne.symm h.1, ih h.2]

theorem splitOnce_append (h : d ∉ s) : splitOnce d (s ++ d :: t) = some (s, t) := by
  unfold splitOnce
  rw [dropWhile_ne_append h, takeWhile_ne_append h]

theorem splitOnce_eq_none (h : d ∉ t) : splitOnce d t = none := by
  unfold splitOnce
  have : t.dropWhile (· != d) = [] := by
    rw [List.dropWhile_eq_nil_iff]
    intro c hc
    simp only [bne_iff_ne]
    rintro rfl
    exact h hc
  rw [this]

theorem exists_of_mem (h : d ∈ t) : ∃ s u, d ∉ s ∧ t = s ++ d :: u := by
  induction t with
  | nil => simp at h
  | cons c t ih =>
    by_cases hc : c = d
    · exact ⟨[], t, by simp, by simp [hc]⟩
    · rcases List.mem_cons.mp h with rfl | h
      · exact absurd rfl hc
      · obtain ⟨s, u, hs, rfl⟩ := ih h
        exact ⟨c :: s, u, by simp [hs, Ne.symm hc], rfl⟩

theorem splitOnce_eq_some (h : splitOnce d t = some (s, u)) : d ∉ s ∧ t = s ++ d :: u := by
  by_cases hd : d ∈ t
  · obtain ⟨s', u', hs', rfl⟩ := exists_of_mem hd
    rw [splitOnce_append hs'] at h
    obtain ⟨rfl, rfl⟩ := Prod.mk.inj (Option.some.inj h)
    exact ⟨hs', rfl⟩
  · rw [splitOnce_eq_none hd] at h
    simp at h

theorem rsplitOnce_append (h : d ∉ t) : rsplitOnce d (s ++ d :: t) = some (s, t) := by
  unfold rsplitOnce
  have : (s ++ d :: t).reverse = t.reverse ++ d :: s.reverse := by simp
  rw [this, splitOnce_append (by simpa using h)]
  simp

theorem rsplitOnce_eq_some (h : rsplitOnce d t = some (s, u)) : d ∉ u ∧ t = s ++ d :: u := by
  unfold rsplitOnce at h
  obtain ⟨⟨r, l⟩, hs, he⟩ := Option.map_eq_some_iff.mp h
  obtain ⟨hd, ht⟩ := splitOnce_eq_some hs
  obtain ⟨rfl, rfl⟩ := Prod.mk.inj he
  exact ⟨by simpa using hd, by simpa using congrArg List.reverse ht⟩

theorem rsplitOnce_eq_none (h : d ∉ t) : rsplitOnce d t = none := by
  rw [rsplitOnce, splitOnce_eq_none (by simpa using h), Option.map_none]

theorem exists_last_of_mem (h : d ∈ t) : ∃ s u, d ∉ u ∧ t = s ++ d :: u := by
  obtain ⟨u, s, hu, ht⟩ := exists_of_mem (List.mem_reverse.mpr h)
  exact ⟨s.reverse, u.reverse, by simpa using hu, by simpa using congrArg List.reverse ht⟩

theorem isWhitespace_of_printable (h : 33 ≤ c.toNat ∧ c.toNat ≤ 126) : isWhitespace c = false := by
  simp only [isWhitespace, Bool.or_eq_false_iff, Bool.and_eq_false_iff, decide_eq_false_iff_not,
    beq_eq_false_iff_ne]
  omega

theorem toNat_of_isAlphanum (h : c.isAlphanum = true) : 33 ≤ c.toNat ∧ c.toNat ≤ 126 := by
  have range : ∀ a b : Char, 33 ≤ a.toNat → b.toNat ≤ 126 → a.val ≤ c.val ∧ c.val ≤ b.val →
      33 ≤ c.toNat ∧ c.toNat ≤ 126 := fun a b ha hb h => ⟨ha.trans h.1, hb.trans' h.2⟩
  have bounds : ∀ a b : Char, (decide (c.val ≥ a.val) && decide (c.val ≤ b.val)) = true →
      a.val ≤ c.val ∧ c.val ≤ b.val := by
    intro a b h
    rwa [Bool.and_eq_true, decide_eq_true_eq, decide_eq_true_eq] at h
  rcases Bool.or_eq_true_iff.mp h with h | h
  · rcases Bool.or_eq_true_iff.mp h with h | h
    · exact range 'A' 'Z' (by decide) (by decide) (of_decide_eq_true h)
    · exact range 'a' 'z' (by decide) (by decide) (bounds 'a' 'z' h)
  · exact range '0' '9' (by decide) (by decide) (bounds '0' '9' h)

theorem toNat_toLower (c : Char) :
    c.toLower.toNat = if 65 ≤ c.toNat ∧ c.toNat ≤ 90 then c.toNat + 32 else c.toNat := by
  unfold Char.toLower
  have hv : c.val.toNat = c.toNat := rfl
  by_cases h : 65 ≤ c.toNat ∧ c.toNat ≤ 90
  · have h' : c.val ≥ 'A'.val ∧ c.val ≤ 'Z'.val := by
      simp only [ge_iff_le, UInt32.le_iff_toNat_le, hv]
      exact h
    rw [dif_pos h', if_pos h]
    show (c.val + ('a'.val - 'A'.val)).toNat = _
    rw [UInt32.toNat_add, hv]
    have : ('a'.val - 'A'.val).toNat = 32 := by decide
    rw [this]
    omega
  · have h' : ¬ (c.val ≥ 'A'.val ∧ c.val ≤ 'Z'.val) := by
      simp only [ge_iff_le, UInt32.le_iff_toNat_le, hv]
      exact h
    rw [dif_neg h', if_neg h]

theorem eqIgnoreAsciiCase_iff : eqIgnoreAsciiCase s t = true ↔
    s.map Char.toLower = t.map Char.toLower := by
  simp [eqIgnoreAsciiCase]

end Text

end ClientAddr
