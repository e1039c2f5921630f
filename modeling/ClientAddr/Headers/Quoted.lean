import ClientAddr.Headers.Hop
import ClientAddr.Headers.Unquote
import ClientAddr.Text.Closed

/-! # The unquoter and the scan

The splitter follows the quotes of a value one by one, the unquoter looks at its two
ends. They agree on every value but those that open with a quote, are never closed,
and end in a quote all the same: that last quote is escaped, and the unquoter takes it
for the closing one.
-/

namespace ClientAddr

open QuoteState Text

variable {element t v : Text} {pairs : List Text} {ip : IpAddr}

def pairForValue (pair : Text) : Option Text :=
  match splitOnce '=' pair with
  | none => none
  | some (name, value) =>
    if eqIgnoreAsciiCase (trim name) "for".toList then some (trim value) else none

/-- The value of the first `for` parameter of an element. -/
def forValue (element : Text) : Option Text :=
  (SplitQuoted.new element ';').items.findSome? pairForValue

theorem forwardedPairsEntry_eq (pairs : List Text) :
    forwardedPairsEntry pairs = match pairs.findSome? pairForValue with
      | some v => chainEntry (unquoteHttpQuotedString v)
      | none => .Opaque := by
  induction pairs with
  | nil => rfl
  | cons pair pairs ih =>
    rw [forwardedPairsEntry, List.findSome?_cons, pairForValue, ih]
    cases splitOnce '=' pair with
    | none => rfl
    | some q =>
      simp only
      split_ifs <;> rfl

theorem forwardedElementEntry_of_forValue (h : forValue element = some v) :
    forwardedElementEntry element = chainEntry (unquoteHttpQuotedString v) := by
  unfold forValue at h
  simp only [forwardedElementEntry, forwardedPairsEntry_eq, h]

theorem exists_forValue (h : forwardedElementEntry element = .Ip ip) :
    ∃ v, forValue element = some v := by
  simp only [forwardedElementEntry, forwardedPairsEntry_eq] at h
  unfold forValue
  cases hf : (SplitQuoted.new element ';').items.findSome? pairForValue with
  | none => simp [hf] at h
  | some v => exact ⟨v, rfl⟩

theorem trimmed_forValue (h : forValue element = some v) : Trimmed v := by
  obtain ⟨pair, -, hp⟩ := List.exists_of_findSome?_eq_some h
  unfold pairForValue at hp
  split at hp
  · cases hp
  · split_ifs at hp
    exact Option.some.inj hp ▸ trimmed_trim _

theorem isSome_of_chainEntry (h : chainEntry t = .Ip ip) : (parseIpLike t).isSome = true := by
  unfold chainEntry at h
  cases hp : parseIpLike t with
  | none => simp [hp] at h
  | some x => rfl

theorem quote_not_mem_of_chainEntry (h : chainEntry t = .Ip ip) : '"' ∉ t := by
  intro hm
  simp [chainEntry_of_quote hm] at h

/-- The element is read as the scan says where its quoted strings end. -/
structure FollowsScan (element : Text) : Prop where
  accepted : ∀ ip, forwardedElementEntry element = .Ip ip → ∃ v, forValue element = some v ∧
    (('"' ∉ v ∧ (parseIpLike v).isSome = true) ∨
      (OneQuoted v ∧ ∃ flags t, v = quote flags t ∧ (parseIpLike t).isSome = true))
  neverClosed : ∀ v, forValue element = some v → NeverClosed v →
    unquoteHttpQuotedString v = v ∧ forwardedElementEntry element = .Opaque

/-- The value opens with a quote and is never closed, but its last character is a quote. -/
def EndsEscaped (v : Text) : Prop := NeverClosed v ∧ ∃ b, v = '"' :: (b ++ ['"'])

/-- An address comes out from between two quotes only if they are one quoted string. -/
theorem oneQuoted_of_chainEntry {b : Text} (hn : ¬ EndsEscaped ('"' :: (b ++ ['"'])))
    (h : chainEntry (unquoteHttpQuotedString ('"' :: (b ++ ['"']))) = .Ip ip) :
    OneQuoted ('"' :: (b ++ ['"'])) := by
  have hq := quote_not_mem_of_chainEntry h
  rw [unquote_between] at hq
  have hb : '"' ∉ b := fun hm => hq (mem_unescape (Or.inr hm) (by decide))
  have hopen : StaysOpen .inside b := staysOpen_of_not_mem (by decide) hb
  have hin := hopen.scan
  cases hs : inside.scan b with
  | outside => exact absurd hs hin
  | inside => exact oneQuoted_of_body hopen hs
  | escaped => exact absurd ⟨neverClosed_of_escaped hopen hs, b, rfl⟩ hn

theorem accepted_of_chainEntry (ht : Trimmed v) (hn : ¬ EndsEscaped v)
    (h : chainEntry (unquoteHttpQuotedString v) = .Ip ip) :
    ('"' ∉ v ∧ (parseIpLike v).isSome = true) ∨
      (OneQuoted v ∧ ∃ flags t, v = quote flags t ∧ (parseIpLike t).isSome = true) := by
  by_cases hb : ∃ b, v = '"' :: (b ++ ['"'])
  · obtain ⟨b, rfl⟩ := hb
    have hone := oneQuoted_of_chainEntry hn h
    obtain ⟨flags, t, hq⟩ := oneQuoted_iff.mp hone
    rw [hq, unquote_quote] at h
    exact Or.inr ⟨hone, flags, t, hq, isSome_of_chainEntry h⟩
  · rw [(unquote_eq_self_iff ht).mpr fun b hv => hb ⟨b, hv⟩] at h
    exact Or.inl ⟨quote_not_mem_of_chainEntry h, isSome_of_chainEntry h⟩

/--
The unquoter and the splitter agree on an element exactly when its `for` value does not end in an
escaped quote of a string that is never closed.
-/
theorem followsScan_iff (element : Text) :
    FollowsScan element ↔ ∀ v, forValue element = some v → ¬ EndsEscaped v := by
  constructor
  · rintro ⟨-, hc⟩ v hv ⟨hn, b, hb⟩
    exact (unquote_eq_self_iff (trimmed_forValue hv)).mp (hc v hv hn).1 b hb
  · intro h
    refine ⟨fun ip he => ?_, fun v hv hn => ?_⟩
    · obtain ⟨v, hv⟩ := exists_forValue he
      rw [forwardedElementEntry_of_forValue hv] at he
      exact ⟨v, hv, accepted_of_chainEntry (trimmed_forValue hv) (h v hv) he⟩
    · have hself : unquoteHttpQuotedString v = v :=
        (unquote_eq_self_iff (trimmed_forValue hv)).mpr fun b hb => h v hv ⟨hn, b, hb⟩
      have hquote : '"' ∈ v := List.mem_of_mem_head? hn.opens
      refine ⟨hself, ?_⟩
      rw [forwardedElementEntry_of_forValue hv, hself]
      exact chainEntry_of_quote hquote

/-- An element whose `for` value is never closed, but is read as an address. -/
def escapedElement : Text := "for=\"1.2.3.4\\\"".toList

theorem escapedElement_not_followsScan : ¬ FollowsScan escapedElement := by
  rintro ⟨ha, -⟩
  have hip : forwardedElementEntry escapedElement = .Ip (.v4 (.new 1 2 3 4)) := by decide +kernel
  have hfor : forValue escapedElement = some "\"1.2.3.4\\\"".toList := by decide +kernel
  obtain ⟨v, hv, h⟩ := ha _ hip
  obtain rfl := Option.some.inj (hfor.symm.trans hv)
  rcases h with ⟨hq, -⟩ | ⟨hone, -⟩
  · exact absurd hq (by decide +kernel)
  · exact absurd hone.closes (by decide +kernel)

end ClientAddr
