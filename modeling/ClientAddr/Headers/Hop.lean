import ClientAddr.Model.Headers
import ClientAddr.Net.Spelling

/-! # The grammar of a hop

A hop is an address text, a bracketed address text with or without a port, or an
IPv4 text with a port. The recognisers of `parseIpLike` accept exactly these.
-/

namespace ClientAddr

open Net Text

/-- The address that a hop text names. -/
inductive HopText : Text → IpAddr → Prop
  | plain {t x} : IpAddr.parse t = some x → HopText t x
  | bracketed {u x} : IpAddr.parse u = some x → HopText ('[' :: (u ++ [']'])) x
  | bracketedPort {u p x} : IpAddr.parse u = some x → isValidNodePort p = true →
    HopText ('[' :: (u ++ ']' :: ':' :: p)) x
  | hostPort {u p a} : IpAddr.parse u = some (.v4 a) → isValidNodePort p = true →
    HopText (u ++ ':' :: p) (.v4 a)

variable {s t u p r : Text} {x : IpAddr} {a : Ipv4Addr} {c : Char}

/-- A run of digits of any length, or an obfuscated name. -/
def NodePort (p : Text) : Prop :=
  (p ≠ [] ∧ ∀ c ∈ p, c.isDigit = true) ∨
    ∃ o, p = '_' :: o ∧ o ≠ [] ∧ ∀ c ∈ o, c.isAlphanum = true ∨ c = '.' ∨ c = '_' ∨ c = '-'

theorem isValidNodePort_of_digits (hne : p ≠ []) (h : ∀ c ∈ p, c.isDigit = true) :
    isValidNodePort p = true := by
  unfold isValidNodePort
  rw [if_neg hne, if_pos (List.all_eq_true.mpr h)]

theorem isValidNodePort_iff : isValidNodePort p = true ↔ NodePort p := by
  by_cases hne : p = []
  · simp [isValidNodePort, NodePort, hne]
  · by_cases hd : ∀ c ∈ p, c.isDigit = true
    · exact iff_of_true (isValidNodePort_of_digits hne hd) (Or.inl ⟨hne, hd⟩)
    · have hall : ¬ p.all Char.isDigit = true := fun h => hd (List.all_eq_true.mp h)
      unfold isValidNodePort NodePort
      rw [if_neg hne, if_neg hall, or_iff_right fun h => hd h.2]
      cases p with
      | nil => exact absurd rfl hne
      | cons c o =>
        by_cases hu : c = '_'
        · subst hu
          have hmark : ∀ c, c ∈ ".-_".toList ↔ c = '.' ∨ c = '_' ∨ c = '-' := by
            intro c
            have hlist : ".-_".toList = ['.', '-', '_'] := by decide
            rw [hlist, List.mem_cons, List.mem_cons, List.mem_singleton]
            tauto
          simp only [ne_eq, Bool.and_eq_true, decide_eq_true_eq, List.all_eq_true,
            Bool.or_eq_true, List.contains_iff_mem, List.cons.injEq, true_and, hmark,
            exists_eq_left']
        · simp [hu]

def PortChar (c : Char) : Prop := c.isAlphanum = true ∨ c = '.' ∨ c = '-' ∨ c = '_'

instance : DecidablePred PortChar := fun c =>
  inferInstanceAs (Decidable (c.isAlphanum = true ∨ c = '.' ∨ c = '-' ∨ c = '_'))

theorem portChar_of_isValidNodePort (h : isValidNodePort p = true) : ∀ c ∈ p, PortChar c := by
  intro c hc
  rcases isValidNodePort_iff.mp h with ⟨-, hd⟩ | ⟨o, rfl, -, ho⟩
  · exact Or.inl (by simp [Char.isAlphanum, hd c hc])
  · rcases List.mem_cons.mp hc with rfl | hc
    · exact Or.inr (Or.inr (Or.inr rfl))
    · exact (ho c hc).imp_right fun h => by tauto

theorem not_mem_of_parse (h : IpAddr.parse t = some x) (hc : ¬ AddrChar c) : c ∉ t :=
  fun hm => hc (IpAddr.addrChar_of_parse h c hm)

theorem ne_nil_of_parse (h : IpAddr.parse t = some x) : t ≠ [] := by
  rintro rfl
  rw [IpAddr.parse_nil] at h
  cases h

theorem HopText.exists_cons (h : HopText t x) : ∃ c r, t = c :: r ∧ (AddrChar c ∨ c = '[') := by
  have first : ∀ {u y}, IpAddr.parse u = some y → ∃ c r, u = c :: r ∧ AddrChar c := by
    intro u y hu
    obtain ⟨c, r, rfl⟩ := List.exists_cons_of_ne_nil (ne_nil_of_parse hu)
    exact ⟨c, r, rfl, IpAddr.addrChar_of_parse hu c List.mem_cons_self⟩
  cases h with
  | plain hp =>
    obtain ⟨c, r, rfl, hc⟩ := first hp
    exact ⟨c, r, rfl, Or.inl hc⟩
  | bracketed _ => exact ⟨_, _, rfl, Or.inr rfl⟩
  | bracketedPort _ _ => exact ⟨_, _, rfl, Or.inr rfl⟩
  | hostPort hp _ =>
    obtain ⟨c, r, rfl, hc⟩ := first hp
    exact ⟨c, _, rfl, Or.inl hc⟩

theorem HopText.ne_nil (h : HopText t x) : t ≠ [] := by
  obtain ⟨c, r, rfl, -⟩ := h.exists_cons
  exact List.cons_ne_nil c r

def HopChar (c : Char) : Prop := AddrChar c ∨ PortChar c ∨ c = '[' ∨ c = ']'

instance : DecidablePred HopChar := fun c =>
  inferInstanceAs (Decidable (AddrChar c ∨ PortChar c ∨ c = '[' ∨ c = ']'))

theorem HopText.hopChar (h : HopText t x) : ∀ c ∈ t, HopChar c := by
  have hu : ∀ {u y}, IpAddr.parse u = some y → ∀ c ∈ u, HopChar c := fun h c hc =>
    Or.inl (IpAddr.addrChar_of_parse h c hc)
  have hp : ∀ {p}, isValidNodePort p = true → ∀ c ∈ p, HopChar c := fun h c hc =>
    Or.inr (Or.inl (portChar_of_isValidNodePort h c hc))
  have mark : HopChar '[' ∧ HopChar ']' ∧ HopChar ':' := by decide
  cases h with
  | plain h => exact hu h
  | bracketed h =>
    simp only [List.forall_mem_cons, List.forall_mem_append, List.not_mem_nil, false_imp_iff,
      implies_true, and_true]
    exact ⟨mark.1, hu h, mark.2.1⟩
  | bracketedPort h h' =>
    simp only [List.forall_mem_cons, List.forall_mem_append]
    exact ⟨mark.1, hu h, mark.2.1, mark.2.2, hp h'⟩
  | hostPort h h' =>
    simp only [List.forall_mem_cons, List.forall_mem_append]
    exact ⟨hu h, mark.2.2, hp h'⟩

theorem HopText.not_mem (h : HopText t x) (hc : ¬ HopChar c) : c ∉ t := fun hm =>
  hc (h.hopChar c hm)

theorem HopText.quote_not_mem (h : HopText t x) : '"' ∉ t := h.not_mem (by decide)

theorem HopText.comma_not_mem (h : HopText t x) : ',' ∉ t := h.not_mem (by decide)

theorem toNat_of_hopChar (h : HopChar c) : 33 ≤ c.toNat ∧ c.toNat ≤ 126 := by
  rcases h with (h | rfl | rfl) | (h | rfl | rfl | rfl) | rfl | rfl
  · unfold isDigit toDigit at h
    rw [Option.isSome_filter] at h
    split_ifs at h <;> simp_all <;> omega
  all_goals first | exact toNat_of_isAlphanum h | decide

theorem HopText.trimmed (h : HopText t x) : Trimmed t := trimmed_of_not_white fun c hc =>
  isWhitespace_of_printable (toNat_of_hopChar (h.hopChar c hc))

/-- The early exit never rejects a hop text. -/
theorem HopText.not_rejected (h : HopText t x) :
    ¬ (t = [] ∨ eqIgnoreAsciiCase t "unknown".toList = true ∨ t.head? = some '_') := by
  obtain ⟨c, r, rfl, hc⟩ := h.exists_cons
  rintro (h | h | h)
  · cases h
  · have hl : c.toLower = 'u' := by
      have := eqIgnoreAsciiCase_iff.mp h
      simp only [String.toList, List.map_cons] at this
      exact (List.cons.inj this).1
    have hu : c = 'u' ∨ c = 'U' := by
      have hn := toNat_toLower c
      rw [hl] at hn
      have hn' : c.toNat = 117 ∨ c.toNat = 85 := by
        have h117 : 'u'.toNat = 117 := rfl
        split_ifs at hn <;> omega
      rcases hn' with hn' | hn'
      · exact Or.inl (by rw [← Char.ofNat_toNat c, hn'])
      · exact Or.inr (by rw [← Char.ofNat_toNat c, hn'])
    rcases hu with rfl | rfl <;> exact absurd hc (by decide)
  · obtain rfl : c = '_' := by simpa using h
    exact absurd hc (by decide)

theorem parseBracketed_append (h : IpAddr.parse u = some x) :
    parseBracketed (u ++ [']']) = some x := by
  have hb : ']' ∉ u := not_mem_of_parse h (by decide)
  simp only [parseBracketed, splitOnce_append hb, h, if_true]

theorem parseBracketed_append_port (h : IpAddr.parse u = some x) (hp : isValidNodePort p = true) :
    parseBracketed (u ++ ']' :: ':' :: p) = some x := by
  have hb : ']' ∉ u := not_mem_of_parse h (by decide)
  simp only [parseBracketed, splitOnce_append hb, h, hp, if_true, List.cons_ne_nil, if_false]

theorem parseBracketed_eq_some (h : parseBracketed r = some x) : HopText ('[' :: r) x := by
  unfold parseBracketed at h
  cases hs : splitOnce ']' r with
  | none => simp [hs] at h
  | some q =>
    obtain ⟨u, tail⟩ := q
    obtain ⟨-, rfl⟩ := splitOnce_eq_some hs
    simp only [hs] at h
    cases tail with
    | nil => exact .bracketed (by simpa using h)
    | cons c p =>
      by_cases hc : c = ':'
      · subst hc
        rw [if_neg (by simp)] at h
        simp only at h
        split_ifs at h with hp
        exact .bracketedPort h hp
      · simp [hc] at h

theorem parseHostPort_append (h : IpAddr.parse u = some (.v4 a)) (hp : isValidNodePort p = true) :
    parseHostPort (u ++ ':' :: p) = some (.v4 a) := by
  have ha := IpAddr.parse_eq_some_v4.mp h
  unfold parseHostPort
  cases hs : SocketAddr.parse (u ++ ':' :: p) with
  | some sa => simp only [SocketAddr.parse_colon ha hs]
  | none =>
    have hc : ':' ∉ p := fun hm => absurd (portChar_of_isValidNodePort hp _ hm) (by decide)
    have h4 : Ipv4Addr.parse u = some a := Ipv4Addr.parse_eq_some.mpr ha
    simp only [rsplitOnce_append hc, h4, Option.isSome_some, hp, Bool.and_self, if_true, h]

theorem parseHostPort_eq_some (hc : c ≠ '[') (h : parseHostPort (c :: r) = some x) :
    HopText (c :: r) x := by
  unfold parseHostPort at h
  cases hs : SocketAddr.parse (c :: r) with
  | some sa =>
    obtain ⟨u, p, a, ht, hu, hsa, hne, hd⟩ := SocketAddr.parse_eq_some hc hs
    simp only [hs, Option.some.injEq] at h
    rw [ht, ← h, hsa]
    exact .hostPort hu (isValidNodePort_of_digits hne hd)
  | none =>
    cases hr : rsplitOnce ':' (c :: r) with
    | none => simp [hs, hr] at h
    | some q =>
      obtain ⟨u, p⟩ := q
      obtain ⟨-, ht⟩ := rsplitOnce_eq_some hr
      simp only [hs, hr] at h
      split_ifs at h with hv
      rw [Bool.and_eq_true, Option.isSome_iff_exists] at hv
      obtain ⟨⟨a, ha⟩, hp⟩ := hv
      have hu : IpAddr.parse u = some (.v4 a) :=
        IpAddr.parse_eq_some_v4.mpr (Ipv4Addr.parse_eq_some.mp ha)
      rw [hu] at h
      obtain rfl := Option.some.inj h
      rw [ht]
      exact .hostPort hu hp

theorem parse_eq_none (hc : ¬ AddrChar c) : IpAddr.parse (c :: r) = none := by
  rw [Option.eq_none_iff_forall_ne_some]
  intro x hx
  exact hc (IpAddr.addrChar_of_parse hx c List.mem_cons_self)

theorem hopText_of_parseIpLike (h : parseIpLike s = some x) : HopText (trim s) x := by
  unfold parseIpLike at h
  generalize trim s = t at h
  simp only at h
  split_ifs at h with hrej
  cases hp : IpAddr.parse t with
  | some y =>
    rw [hp] at h
    obtain rfl := Option.some.inj h
    exact .plain hp
  | none =>
    cases t with
    | nil => simp at hrej
    | cons c r =>
      rw [hp] at h
      by_cases hc : c = '['
      · subst hc
        exact parseBracketed_eq_some h
      · apply parseHostPort_eq_some hc
        simpa [hc] using h

theorem HopText.parseIpLike_eq_of_trim (h : HopText (trim s) x) : parseIpLike s = some x := by
  unfold parseIpLike
  generalize trim s = t at h
  have hb : ¬ AddrChar '[' := by decide
  simp only
  rw [if_neg h.not_rejected]
  cases h with
  | plain hp => rw [hp]
  | bracketed hu =>
    rw [parse_eq_none hb]
    exact parseBracketed_append hu
  | bracketedPort hu hp =>
    rw [parse_eq_none hb]
    exact parseBracketed_append_port hu hp
  | @hostPort u p a hu hp =>
    obtain ⟨c, v, rfl⟩ := List.exists_cons_of_ne_nil (ne_nil_of_parse hu)
    have hc : c ≠ '[' := by
      rintro rfl
      exact hb (IpAddr.addrChar_of_parse hu _ List.mem_cons_self)
    rw [IpAddr.parse_colon (IpAddr.parse_eq_some_v4.mp hu), List.cons_append]
    split
    · next hp' => cases hp'
    · split
      · next hr => exact absurd (List.cons.inj hr).1 hc
      · exact parseHostPort_append hu hp

/-- The recognisers, tried one after the other, accept exactly the hop texts. -/
theorem parseIpLike_iff_hopText : parseIpLike s = some x ↔ HopText (trim s) x :=
  ⟨hopText_of_parseIpLike, HopText.parseIpLike_eq_of_trim⟩

theorem HopText.parseIpLike_eq (h : HopText t x) : parseIpLike t = some x :=
  HopText.parseIpLike_eq_of_trim (h.trimmed.trim.symm ▸ h)

theorem chainEntry_of_mem (hm : c ∈ t) (hc : ¬ HopChar c) (hw : isWhitespace c = false) :
    chainEntry t = .Opaque := by
  unfold chainEntry
  cases hp : parseIpLike t with
  | none => rfl
  | some x => exact absurd (mem_trim hm hw) ((parseIpLike_iff_hopText.mp hp).not_mem hc)

theorem chainEntry_of_quote (h : '"' ∈ t) : chainEntry t = .Opaque :=
  chainEntry_of_mem h (by decide) (by decide)

theorem chainEntry_of_comma (h : ',' ∈ t) : chainEntry t = .Opaque :=
  chainEntry_of_mem h (by decide) (by decide)

section Grammar

/-- The texts that name an address: plain, in brackets, or in front of a port. -/
def HopGrammar (t : Text) (x : IpAddr) : Prop :=
  IpAddr.parse t = some x ∨
    (∃ u, IpAddr.parse u = some x ∧ (t = '[' :: (u ++ [']']) ∨
      ∃ p, NodePort p ∧ t = '[' :: (u ++ ']' :: ':' :: p))) ∨
    ∃ u p a, Ipv4Addr.parse u = some a ∧ x = .v4 a ∧ NodePort p ∧ t = u ++ ':' :: p

theorem hopGrammar_iff_hopText : HopGrammar t x ↔ HopText t x := by
  constructor
  · rintro (h | ⟨u, h, rfl | ⟨p, hp, rfl⟩⟩ | ⟨u, p, a, h, rfl, hp, rfl⟩)
    · exact .plain h
    · exact .bracketed h
    · exact .bracketedPort h (isValidNodePort_iff.mpr hp)
    · exact .hostPort (IpAddr.parse_eq_some_v4.mpr (Ipv4Addr.parse_eq_some.mp h))
        (isValidNodePort_iff.mpr hp)
  · intro h
    cases h with
    | plain h => exact Or.inl h
    | @bracketed u _ h => exact Or.inr (Or.inl ⟨u, h, Or.inl rfl⟩)
    | @bracketedPort u p _ h hp =>
      exact Or.inr (Or.inl ⟨u, h, Or.inr ⟨p, isValidNodePort_iff.mp hp, rfl⟩⟩)
    | @hostPort u p a h hp =>
      have ha := Ipv4Addr.parse_eq_some.mpr (IpAddr.parse_eq_some_v4.mp h)
      exact Or.inr (Or.inr ⟨u, p, a, ha, rfl, isValidNodePort_iff.mp hp, rfl⟩)

theorem rsplitOnce_of_socketAddr {sa : SocketAddr} (hb : t.head? ≠ some '[')
    (h : SocketAddr.parse t = some sa) :
    ∃ u p a, rsplitOnce ':' t = some (u, p) ∧ Ipv4Addr.parse u = some a ∧ NodePort p ∧
      IpAddr.parse u = some sa.ip := by
  cases t with
  | nil =>
    have hnil : SocketAddr.parse [] = none := by decide
    rw [hnil] at h
    cases h
  | cons c r =>
    have hc : c ≠ '[' := fun hc => hb (by rw [hc]; rfl)
    obtain ⟨u, p, a, ht, hu, hsa, hne, hd⟩ := SocketAddr.parse_eq_some hc h
    have hp : NodePort p := Or.inl ⟨hne, hd⟩
    have hcolon : ':' ∉ p := fun hm => absurd (hd _ hm) (by decide)
    refine ⟨u, p, a, ?_, Ipv4Addr.parse_eq_some.mpr (IpAddr.parse_eq_some_v4.mp hu), hp, ?_⟩
    · rw [ht, rsplitOnce_append hcolon]
    · rw [hu, hsa]

/--
A hop names an address exactly when its trimmed text is in the grammar. The two paths for a text
with a port agree, and the early exit loses no text of the grammar.
-/
theorem parseIpLike_accepts_hopGrammar (s : Text) :
    (∀ ip, parseIpLike s = some ip ↔ HopGrammar (trim s) ip) ∧
    (∀ sa, (trim s).head? ≠ some '[' → SocketAddr.parse (trim s) = some sa →
      ∃ u p a, rsplitOnce ':' (trim s) = some (u, p) ∧ Ipv4Addr.parse u = some a ∧ NodePort p ∧
        IpAddr.parse u = some sa.ip) ∧
    (trim s = [] ∨ eqIgnoreAsciiCase (trim s) "unknown".toList = true ∨
      (trim s).head? = some '_' → ∀ ip, ¬ HopGrammar (trim s) ip) := by
  refine ⟨fun ip => ?_, fun sa => rsplitOnce_of_socketAddr, fun hrej ip h => ?_⟩
  · rw [hopGrammar_iff_hopText]
    exact parseIpLike_iff_hopText
  · exact (hopGrammar_iff_hopText.mp h).not_rejected hrej

end Grammar

end ClientAddr
