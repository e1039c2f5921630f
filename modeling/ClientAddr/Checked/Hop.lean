import ClientAddr.Checked.Split

/-! # One hop over bytes

Undoing quotes and reading a bracketed address slice at byte offsets as well. The
offsets stem from ASCII characters of the text, so the slices never fail and the
hop is the one that the readers over characters give.
-/

namespace ClientAddr.Checked

open Text

variable {d : Char} {t : Text}

/-- The byte offset of the first occurrence of a character. -/
def findChar (d : Char) (t : Text) : Option ℕ :=
  ((charIndices 0 t).find? fun (_, ch) => ch = d).map Prod.fst

def unquoteHttpQuotedString (input : Text) : Checked Text := do
  let input := trim input
  if byteLen input < 2 ∨ input.head? ≠ some '"' ∨ input.getLast? ≠ some '"' then return input
  let inner ← slice input 1 (byteLen input - 1)
  if '\\' ∉ inner then return inner
  return (inner.foldl unescapeStep ([], false)).1

def parseBracketed (rest : Text) : Checked (Option IpAddr) := do
  match findChar ']' rest with
  | none => return none
  | some closeBracket =>
    let ipPart ← sliceTo rest closeBracket
    let tail ← sliceFrom rest (closeBracket + 1)
    if tail = [] then return IpAddr.parse ipPart
    match tail with
    | ':' :: port => return if isValidNodePort port then IpAddr.parse ipPart else none
    | _ => return none

def parseIpLike (raw : Text) : Checked (Option IpAddr) := do
  let raw := trim raw
  if raw = [] ∨ eqIgnoreAsciiCase raw "unknown".toList ∨ raw.head? = some '_' then return none
  match IpAddr.parse raw with
  | some ip => return some ip
  | none =>
    match raw with
    | '[' :: rest => parseBracketed rest
    | _ => return parseHostPort raw

def chainEntry (raw : Text) : Checked ChainEntry := do
  match ← parseIpLike raw with
  | some ip => return .Ip (canonicalIp ip)
  | none => return .Opaque

theorem findChar_cases (d : Char) (t : Text) :
    (findChar d t = none ∧ splitOnce d t = none) ∨
      ∃ p r, t = p ++ d :: r ∧ findChar d t = some (byteLen p) ∧ splitOnce d t = some (p, r) := by
  have find : ∀ (t : Text) (o : ℕ), d ∉ t →
      (charIndices o t).find? (fun (_, ch) => ch = d) = none := by
    intro t o ht
    induction t generalizing o with
    | nil => rfl
    | cons c t ih =>
      rw [List.mem_cons, not_or] at ht
      simp [charIndices, Ne.symm ht.1, ih _ ht.2]
  by_cases ht : d ∈ t
  · obtain ⟨p, r, hp, rfl⟩ := exists_of_mem ht
    refine Or.inr ⟨p, r, rfl, ?_, splitOnce_append hp⟩
    have hf : ∀ o, (charIndices o (p ++ d :: r)).find? (fun (_, ch) => ch = d) =
        some (o + byteLen p, d) := by
      intro o
      clear ht
      induction p generalizing o with
      | nil => simp [charIndices]
      | cons c p ih =>
        rw [List.mem_cons, not_or] at hp
        simp [charIndices, Ne.symm hp.1, ih hp.2, add_assoc]
    rw [findChar, hf]
    simp
  · exact Or.inl ⟨by rw [findChar, find t 0 ht, Option.map_none], splitOnce_eq_none ht⟩

theorem slice_between (b : Text) :
    slice ('"' :: (b ++ ['"'])) 1 (byteLen ('"' :: (b ++ ['"'])) - 1) = .ok b := by
  have hq : ('"' : Char).utf8Size = 1 := by decide
  have hs := slice_append ['"'] b ['"']
  have hlen : byteLen ('"' :: (b ++ ['"'])) - 1 = 1 + byteLen b := by
    simp only [byteLen_cons, byteLen_append, byteLen_nil, hq]
    omega
  rw [hlen]
  simpa [hq] using hs

theorem quotes_cases (t : Text) :
    (∃ b, t = '"' :: (b ++ ['"'])) ∨ t = ['"'] ∨ t.head? ≠ some '"' ∨ t.getLast? ≠ some '"' := by
  by_cases hhead : t.head? = some '"'
  · obtain ⟨r, rfl⟩ := List.head?_eq_some_iff.mp hhead
    cases r using List.reverseRecOn with
    | nil => exact Or.inr (Or.inl rfl)
    | append_singleton b c =>
      by_cases hc : c = '"'
      · exact Or.inl ⟨b, by rw [hc]⟩
      · refine Or.inr (Or.inr (Or.inr ?_))
        rw [← List.cons_append, List.getLast?_concat]
        simpa using hc
  · exact Or.inr (Or.inr (Or.inl hhead))

theorem unquoteHttpQuotedString_eq (input : Text) :
    unquoteHttpQuotedString input = .ok (ClientAddr.unquoteHttpQuotedString input) := by
  simp only [unquoteHttpQuotedString, ClientAddr.unquoteHttpQuotedString]
  rcases quotes_cases (trim input) with ⟨b, hb⟩ | h
  · have hlast : ('"' :: (b ++ ['"'])).getLast? = some '"' := by
      rw [← List.cons_append, List.getLast?_concat]
    have htail : ('"' :: (b ++ ['"'])).tail.dropLast = b := by simp
    have hlen : 2 ≤ ('"' :: (b ++ ['"'])).length := by simp
    have hbytes := hlen.trans (length_le_byteLen _)
    rw [hb, slice_between, if_neg, if_neg, htail]
    · simp only [ok_bind]
      split_ifs <;> rfl
    · simp [hlast]
    · rintro (hlt | hq | hq)
      · omega
      · exact hq rfl
      · exact hq hlast
  · have hb : byteLen (trim input) < 2 ∨ (trim input).head? ≠ some '"' ∨
        (trim input).getLast? ≠ some '"' := by
      rcases h with h | h
      · rw [h]
        exact Or.inl (by decide)
      · exact Or.inr h
    have hc : (trim input).length < 2 ∨ (trim input).head? ≠ some '"' ∨
        (trim input).getLast? ≠ some '"' :=
      hb.imp_left fun hlt => (length_le_byteLen _).trans_lt hlt
    rw [if_pos hb, if_pos hc]
    rfl

theorem parseBracketed_eq (rest : Text) :
    parseBracketed rest = .ok (ClientAddr.parseBracketed rest) := by
  unfold parseBracketed ClientAddr.parseBracketed
  rcases findChar_cases ']' rest with ⟨hf, hs⟩ | ⟨p, r, rfl, hf, hs⟩
  · simp [hf, hs]
  · have hone : (']' : Char).utf8Size = 1 := by decide
    have htail : sliceFrom (p ++ ']' :: r) (byteLen p + 1) = .ok r := by
      have := sliceFrom_append (p ++ [']']) r
      simpa [hone] using this
    simp only [hf, hs, sliceTo_append, htail, ok_bind]
    cases r with
    | nil => rfl
    | cons c port =>
      by_cases hc : c = ':'
      · simp [hc]
      · simp [hc]

theorem parseIpLike_eq (raw : Text) : parseIpLike raw = .ok (ClientAddr.parseIpLike raw) := by
  simp only [parseIpLike, ClientAddr.parseIpLike]
  generalize trim raw = t
  split_ifs with hrej
  · rfl
  · cases IpAddr.parse t with
    | some ip => rfl
    | none =>
      cases t with
      | nil => rfl
      | cons c r =>
        by_cases hc : c = '['
        · simp [hc, parseBracketed_eq]
        · simp [hc]

/-- Reading a hop over bytes never fails, and gives the hop that is read over characters. -/
theorem chainEntry_eq (raw : Text) : chainEntry raw = .ok (ClientAddr.chainEntry raw) := by
  unfold chainEntry ClientAddr.chainEntry
  rw [parseIpLike_eq]
  cases ClientAddr.parseIpLike raw <;> rfl

end ClientAddr.Checked
