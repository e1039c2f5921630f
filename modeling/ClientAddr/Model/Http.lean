import ClientAddr.Text.Basic

/-! # Header maps

A header value is a list of bytes, and it is readable when all of them are
visible ASCII, spaces or tabs. A header map keeps the values of one name in the
order they arrived.
-/

namespace ClientAddr

/-- The characters of a header name, which is kept in lower case. -/
def isNameChar (c : Char) : Bool :=
  c.isLower || c.isDigit || "!#$%&'*+-.^_`|~".toList.contains c

structure HeaderName where
  asStr : Text
  valid : asStr ≠ [] ∧ asStr.all isNameChar = true
  deriving DecidableEq, Repr

/-- Control bytes other than the tab cannot stand in a header value. -/
def isValueByte (b : UInt8) : Bool := b == 9 || (32 ≤ b && b != 127)

def isVisibleAscii (b : UInt8) : Bool := b == 9 || (32 ≤ b && b < 127)

structure HeaderValue where
  bytes : List UInt8
  valid : bytes.all isValueByte = true
  deriving DecidableEq, Repr

/-- The value as text, if it is readable. -/
def HeaderValue.toStr (v : HeaderValue) : Option Text :=
  if v.bytes.all isVisibleAscii then some (v.bytes.map fun b => Char.ofNat b.toNat) else none

def isReadableChar (c : Char) : Bool := c.toNat == 9 || (32 ≤ c.toNat && c.toNat < 127)

theorem readable_of_printable {t : Text} (h : ∀ c ∈ t, 33 ≤ c.toNat ∧ c.toNat ≤ 126) :
    t.all isReadableChar = true := by
  rw [List.all_eq_true]
  intro c hc
  have := h c hc
  simp only [isReadableChar, Bool.or_eq_true, beq_iff_eq, Bool.and_eq_true, decide_eq_true_eq]
  omega

theorem toNat_ofNat_of_readable {c : Char} (h : isReadableChar c = true) :
    (UInt8.ofNat c.toNat).toNat = c.toNat := by
  simp only [isReadableChar, Bool.or_eq_true, beq_iff_eq, Bool.and_eq_true, decide_eq_true_eq] at h
  rw [UInt8.toNat_ofNat']
  omega

theorem isVisibleAscii_of_readable {c : Char} (h : isReadableChar c = true) :
    isVisibleAscii (UInt8.ofNat c.toNat) = true := by
  have hn := toNat_ofNat_of_readable h
  simp only [isReadableChar, isVisibleAscii, Bool.or_eq_true, beq_iff_eq, Bool.and_eq_true,
    decide_eq_true_eq, ← UInt8.toNat_inj, UInt8.le_iff_toNat_le, UInt8.lt_iff_toNat_lt] at *
  rw [hn]
  exact h

theorem isValueByte_of_visible {b : UInt8} (h : isVisibleAscii b = true) :
    isValueByte b = true := by
  simp only [isVisibleAscii, isValueByte, Bool.or_eq_true, beq_iff_eq, Bool.and_eq_true,
    decide_eq_true_eq, bne_iff_ne] at *
  refine h.imp_right fun ⟨hl, hu⟩ => ⟨hl, ?_⟩
  rintro rfl
  exact absurd hu (by decide)

theorem readable_intercalate {d : Char} {ls : List Text} (hd : isReadableChar d = true)
    (h : ∀ t ∈ ls, t.all isReadableChar = true) :
    ([d].intercalate ls).all isReadableChar = true := by
  induction ls with
  | nil => rfl
  | cons t ls ih =>
    have ht := h t List.mem_cons_self
    have hls := ih fun u hu => h u (List.mem_cons_of_mem _ hu)
    cases ls with
    | nil => simpa using ht
    | cons u ls => simpa [List.intercalate_cons_cons, hd, ht] using hls

theorem HeaderValue.readable_of_toStr {v : HeaderValue} {t : Text} (h : v.toStr = some t) :
    t.all isReadableChar = true := by
  unfold toStr at h
  split_ifs at h with hv
  obtain rfl := Option.some.inj h
  rw [List.all_map, List.all_eq_true]
  intro b hb
  have hb' := List.all_eq_true.mp hv b hb
  have hc : b.toNat.isValidChar := Or.inl (b.toNat_lt.trans (by decide))
  have hn : (Char.ofNat b.toNat).toNat = b.toNat := by
    rw [Char.ofNat, dif_pos hc]
    rfl
  simp only [isVisibleAscii, Bool.or_eq_true, beq_iff_eq, Bool.and_eq_true, decide_eq_true_eq,
    ← UInt8.toNat_inj, UInt8.le_iff_toNat_le, UInt8.lt_iff_toNat_lt] at hb'
  simp only [Function.comp, isReadableChar, hn, Bool.or_eq_true, beq_iff_eq, Bool.and_eq_true,
    decide_eq_true_eq]
  exact hb'

theorem HeaderValue.toStr_eq_none_iff {v : HeaderValue} :
    v.toStr = none ↔ ∃ b ∈ v.bytes, isVisibleAscii b = false := by
  unfold toStr
  split_ifs with hv
  · simpa using hv
  · simpa using hv

def HeaderValue.ofReadable (t : Text) (h : t.all isReadableChar = true) : HeaderValue where
  bytes := t.map fun c => UInt8.ofNat c.toNat
  valid := by
    rw [List.all_map, List.all_eq_true]
    intro c hc
    exact isValueByte_of_visible (isVisibleAscii_of_readable (List.all_eq_true.mp h c hc))

@[simp] theorem HeaderValue.toStr_ofReadable (t : Text) (h : t.all isReadableChar = true) :
    (ofReadable t h).toStr = some t := by
  have hv : (ofReadable t h).bytes.all isVisibleAscii = true := by
    rw [ofReadable, List.all_map, List.all_eq_true]
    exact fun c hc => isVisibleAscii_of_readable (List.all_eq_true.mp h c hc)
  rw [toStr, if_pos hv, ofReadable, List.map_map, Option.some.injEq]
  refine (List.map_congr_left fun c hc => ?_).trans (List.map_id _)
  rw [Function.comp, toNat_ofNat_of_readable (List.all_eq_true.mp h c hc), Char.ofNat_toNat, id]

abbrev HeaderMap := List (HeaderName × HeaderValue)

def HeaderMap.ofLine (name : HeaderName) (t : Text) (h : t.all isReadableChar = true) : HeaderMap :=
  [(name, .ofReadable t h)]

def HeaderMap.getAll (headers : HeaderMap) (name : HeaderName) : List HeaderValue :=
  headers.filterMap fun (n, v) => if n = name then some v else none

end ClientAddr
