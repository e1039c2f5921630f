import ClientAddr.Text.Basic

/-! # Byte offsets

A string is cut at byte offsets, and only at the boundary of a character. The
offsets of the boundaries are the lengths of the texts in front of them.
-/

namespace ClientAddr.Text

def byteLen : Text → ℕ
  | [] => 0
  | c :: t => c.utf8Size + byteLen t

/-- Cut a text at a byte offset, unless the offset lies inside a character or behind the end. -/
def splitAtByte : Text → ℕ → Option (Text × Text)
  | t, 0 => some ([], t)
  | [], _ + 1 => none
  | c :: t, n + 1 =>
    if c.utf8Size ≤ n + 1 then
      (splitAtByte t (n + 1 - c.utf8Size)).map fun (a, b) => (c :: a, b)
    else none

def byteSlice (t : Text) (start stop : ℕ) : Option Text :=
  if start ≤ stop then do
    let (_, rest) ← splitAtByte t start
    let (item, _) ← splitAtByte rest (stop - start)
    return item
  else none

/-- The characters of a text, each with the byte offset at which it starts. -/
def charIndices : ℕ → Text → List (ℕ × Char)
  | _, [] => []
  | offset, c :: t => (offset, c) :: charIndices (offset + c.utf8Size) t

variable {a b t u : Text} {c : Char} {n : ℕ}

@[simp] theorem byteLen_nil : byteLen [] = 0 := rfl

@[simp] theorem byteLen_cons : byteLen (c :: t) = c.utf8Size + byteLen t := rfl

@[simp] theorem byteLen_append : byteLen (a ++ b) = byteLen a + byteLen b := by
  induction a with
  | nil => simp
  | cons c a ih => rw [List.cons_append, byteLen_cons, byteLen_cons, ih, Nat.add_assoc]

theorem length_le_byteLen (t : Text) : t.length ≤ byteLen t := by
  induction t with
  | nil => rfl
  | cons c t ih =>
    have hc := c.utf8Size_pos
    simp only [List.length_cons, byteLen_cons]
    omega

@[simp] theorem splitAtByte_append (a b : Text) :
    splitAtByte (a ++ b) (byteLen a) = some (a, b) := by
  induction a with
  | nil => cases b <;> rfl
  | cons c a ih =>
    obtain ⟨k, hk⟩ := Nat.exists_eq_succ_of_ne_zero c.utf8Size_pos.ne'
    have hlen : byteLen (c :: a) = (k + byteLen a) + 1 := by
      rw [byteLen_cons, hk]
      omega
    have hrest : k + byteLen a + 1 - c.utf8Size = byteLen a := by omega
    rw [hlen, List.cons_append, splitAtByte, if_pos (by omega), hrest, ih]
    rfl

/-- A slice between two character boundaries is the text that stands between them. -/
@[simp] theorem byteSlice_append (a t b : Text) :
    byteSlice (a ++ t ++ b) (byteLen a) (byteLen a + byteLen t) = some t := by
  have hle : byteLen a ≤ byteLen a + byteLen t := Nat.le_add_right _ _
  rw [byteSlice, if_pos hle, List.append_assoc, splitAtByte_append, Nat.add_sub_cancel_left]
  simp

end ClientAddr.Text
