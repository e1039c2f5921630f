import ClientAddr.Net.Parse

/-! # What an address text looks like

The readers take only hexadecimal digits, dots and colons. An IPv4 text is read
the same way when something other than a digit follows it, and behind `::ffff:`
it spells the IPv4-mapped address.
-/

namespace ClientAddr.Net

variable {α : Type} {t r s u : Text} {radix bound index left : ℕ} {m : Option ℕ} {z : Bool}

/-- A reader takes a front part made of the given characters. -/
def Consumes (P : Char → Prop) (reader : Text → Option (α × Text)) : Prop :=
  ∀ t x r, reader t = some (x, r) → ∃ u, t = u ++ r ∧ ∀ c ∈ u, P c

def Ipv4Char (c : Char) : Prop := isDigit 10 c = true ∨ c = '.'

def AddrChar (c : Char) : Prop := isDigit 16 c = true ∨ c = ':' ∨ c = '.'

instance : DecidablePred Ipv4Char := fun c =>
  inferInstanceAs (Decidable (isDigit 10 c = true ∨ c = '.'))

instance : DecidablePred AddrChar := fun c =>
  inferInstanceAs (Decidable (isDigit 16 c = true ∨ c = ':' ∨ c = '.'))

theorem isDigit_mono {c : Char} (h : radix ≤ bound) (hc : isDigit radix c = true) :
    isDigit bound c = true := by
  unfold isDigit toDigit at *
  rw [Option.isSome_filter] at *
  split_ifs at * <;> simp_all <;> omega

theorem Ipv4Char.addrChar {c : Char} (h : Ipv4Char c) : AddrChar c := by
  rcases h with h | h
  · exact Or.inl (isDigit_mono (by omega) h)
  · exact Or.inr (Or.inr h)

theorem Consumes.mono {P Q : Char → Prop} {reader : Text → Option (α × Text)}
    (h : Consumes P reader) (hPQ : ∀ c, P c → Q c) : Consumes Q reader := by
  intro t x r ht
  obtain ⟨u, hu, hP⟩ := h t x r ht
  exact ⟨u, hu, fun c hc => hPQ c (hP c hc)⟩

theorem readGivenChar_eq_some {c : Char} : readGivenChar c t = some r ↔ t = c :: r := by
  cases t with
  | nil => simp [readGivenChar]
  | cons d t =>
    rw [readGivenChar]
    split_ifs with h
    · simp [h]
    · simp [h]

theorem readSeparator_eq_some {sep : Char} {inner : Text → Option (α × Text)} {x : α} :
    readSeparator sep index inner t = some (x, r) ↔
      inner t = some (x, r) ∧ index = 0 ∨
        ∃ t', 0 < index ∧ t = sep :: t' ∧ inner t' = some (x, r) := by
  unfold readSeparator
  split_ifs with h
  · simp only [Option.bind_eq_some_iff, readGivenChar_eq_some]
    constructor
    · rintro ⟨t', ht, hi⟩
      exact Or.inr ⟨t', h, ht, hi⟩
    · rintro (⟨_, h0⟩ | ⟨t', _, ht, hi⟩)
      · omega
      · exact ⟨t', ht, hi⟩
  · constructor
    · exact fun hi => Or.inl ⟨hi, by omega⟩
    · rintro (⟨hi, _⟩ | ⟨t', h0, _⟩)
      · exact hi
      · omega

theorem Consumes.separator {P : Char → Prop} {inner : Text → Option (α × Text)} {sep : Char}
    (h : Consumes P inner) (hs : P sep) : Consumes P (readSeparator sep index inner) := by
  intro t x r ht
  rcases readSeparator_eq_some.mp ht with ⟨hi, _⟩ | ⟨t', _, rfl, hi⟩
  · exact h t x r hi
  · obtain ⟨u, rfl, hu⟩ := h t' x r hi
    exact ⟨sep :: u, rfl, fun c hc => by
      rcases List.mem_cons.mp hc with rfl | hc
      · exact hs
      · exact hu c hc⟩

theorem readNumber_eq_some {n : Fin bound} (h : readNumber radix bound m z t = some (n, r)) :
    ∃ ds, t = ds ++ r ∧ ds ≠ [] ∧ (∀ c ∈ ds, isDigit radix c = true) ∧
      (∀ k ∈ m, ds.length ≤ k) ∧ ∀ c ∈ r.head?, isDigit radix c = false := by
  simp only [readNumber] at h
  split_ifs at h with h0 h1 h2 h3
  obtain ⟨-, rfl⟩ := Prod.mk.inj (Option.some.inj h)
  refine ⟨_, List.takeWhile_append_dropWhile.symm, h0, fun c hc => List.mem_takeWhile_imp hc,
    ?_, ?_⟩
  · rintro k hk
    have hk' : m = some k := hk
    simp only [hk', Option.any_some, decide_eq_true_eq] at h1
    omega
  · intro c hc
    have := List.head?_dropWhile_not (isDigit radix) t
    rw [Option.mem_def.mp hc] at this
    simpa using this

theorem consumes_readNumber :
    Consumes (fun c => isDigit radix c = true) (readNumber radix bound m z) := by
  intro t x r h
  obtain ⟨ds, ht, -, hd, -⟩ := readNumber_eq_some h
  exact ⟨ds, ht, hd⟩

/-- A number is read the same way when no digit follows its text. -/
theorem readNumber_append {n : Fin bound} (h : readNumber radix bound m z t = some (n, r))
    (hs : r ≠ [] ∨ ∀ c ∈ s.head?, isDigit radix c = false) :
    readNumber radix bound m z (t ++ s) = some (n, r ++ s) := by
  obtain ⟨ds, rfl, -, hd, -, hr⟩ := readNumber_eq_some h
  have hr' : ∀ c ∈ (r ++ s).head?, isDigit radix c = false := by
    cases r with
    | nil => simpa using hs
    | cons d r => simpa using hr
  have take : ∀ v : Text, (∀ c ∈ v.head?, isDigit radix c = false) →
      (ds ++ v).takeWhile (isDigit radix) = ds ∧ (ds ++ v).dropWhile (isDigit radix) = v := by
    intro v hv
    rw [List.takeWhile_append_of_pos hd, List.dropWhile_append_of_pos hd]
    cases v with
    | nil => simp
    | cons d v => simp [hv d rfl]
  simp only [readNumber, take r hr] at h
  simp only [readNumber, List.append_assoc, take (r ++ s) hr']
  split_ifs at h ⊢
  obtain ⟨hn, -⟩ := Prod.mk.inj (Option.some.inj h)
  rw [hn]

theorem readNumber_prefix {n : Fin bound} (h : readNumber radix bound m z t = some (n, r)) :
    ∃ u, t = u ++ r ∧ readNumber radix bound m z u = some (n, []) := by
  obtain ⟨ds, rfl, -, hd, -, hr⟩ := readNumber_eq_some h
  have take : (ds ++ r).takeWhile (isDigit radix) = ds := by
    rw [List.takeWhile_append_of_pos hd]
    cases r with
    | nil => simp
    | cons d r => simp [hr d rfl]
  refine ⟨ds, rfl, ?_⟩
  simp only [readNumber, take] at h
  simp only [readNumber, List.takeWhile_eq_self_iff.mpr hd, List.dropWhile_eq_nil_iff.mpr hd]
  split_ifs at h ⊢
  obtain ⟨hn, -⟩ := Prod.mk.inj (Option.some.inj h)
  rw [hn]

theorem readIpv4Addr_eq_some {x : Ipv4Addr} :
    readIpv4Addr t = some (x, r) ↔ ∃ a b c d t₁ t₂ t₃,
      readOctet t = some (a, '.' :: t₁) ∧ readOctet t₁ = some (b, '.' :: t₂) ∧
      readOctet t₂ = some (c, '.' :: t₃) ∧ readOctet t₃ = some (d, r) ∧
        x = Ipv4Addr.new a b c d := by
  simp only [readIpv4Addr, Option.bind_eq_bind, Option.bind_eq_some_iff, Prod.exists,
    readSeparator_eq_some, Option.pure_def, Option.some.injEq, Prod.mk.injEq]
  constructor
  · rintro ⟨a, t', (⟨h₁, -⟩ | ⟨_, h0, -⟩), b, t₂', (⟨-, h0⟩ | ⟨t₁, -, rfl, h₂⟩), c, t₃',
      (⟨-, h0⟩ | ⟨t₂, -, rfl, h₃⟩), d, t₄, (⟨-, h0⟩ | ⟨t₃, -, rfl, h₄⟩), rfl, rfl⟩
    all_goals first | omega | exact ⟨a, b, c, d, t₁, t₂, t₃, h₁, h₂, h₃, h₄, rfl⟩
  · rintro ⟨a, b, c, d, t₁, t₂, t₃, h₁, h₂, h₃, h₄, rfl⟩
    exact ⟨a, _, Or.inl ⟨h₁, trivial⟩, b, _, Or.inr ⟨t₁, by omega, rfl, h₂⟩, c, _,
      Or.inr ⟨t₂, by omega, rfl, h₃⟩, d, _, Or.inr ⟨t₃, by omega, rfl, h₄⟩, rfl, rfl⟩

theorem consumes_readIpv4Addr : Consumes Ipv4Char readIpv4Addr := by
  intro t x r h
  obtain ⟨a, b, c, d, t₁, t₂, t₃, h₁, h₂, h₃, h₄, -⟩ := readIpv4Addr_eq_some.mp h
  obtain ⟨u₁, rfl, hu₁⟩ := consumes_readNumber _ _ _ h₁
  obtain ⟨u₂, rfl, hu₂⟩ := consumes_readNumber _ _ _ h₂
  obtain ⟨u₃, rfl, hu₃⟩ := consumes_readNumber _ _ _ h₃
  obtain ⟨u₄, rfl, hu₄⟩ := consumes_readNumber _ _ _ h₄
  refine ⟨u₁ ++ '.' :: (u₂ ++ '.' :: (u₃ ++ '.' :: u₄)), by simp, fun c hc => ?_⟩
  simp only [List.mem_append, List.mem_cons] at hc
  rcases hc with hc | hc | hc | hc | hc | hc | hc
  · exact Or.inl (hu₁ c hc)
  · exact Or.inr hc
  · exact Or.inl (hu₂ c hc)
  · exact Or.inr hc
  · exact Or.inl (hu₃ c hc)
  · exact Or.inr hc
  · exact Or.inl (hu₄ c hc)

theorem readIpv4Addr_append {x : Ipv4Addr} (h : readIpv4Addr t = some (x, r))
    (hs : r ≠ [] ∨ ∀ c ∈ s.head?, isDigit 10 c = false) :
    readIpv4Addr (t ++ s) = some (x, r ++ s) := by
  obtain ⟨a, b, c, d, t₁, t₂, t₃, h₁, h₂, h₃, h₄, hx⟩ := readIpv4Addr_eq_some.mp h
  exact readIpv4Addr_eq_some.mpr ⟨a, b, c, d, t₁ ++ s, t₂ ++ s, t₃ ++ s,
    readNumber_append h₁ (Or.inl (by simp)), readNumber_append h₂ (Or.inl (by simp)),
    readNumber_append h₃ (Or.inl (by simp)), readNumber_append h₄ hs, hx⟩

theorem readIpv4Addr_prefix {x : Ipv4Addr} (h : readIpv4Addr t = some (x, r)) :
    ∃ u, t = u ++ r ∧ readIpv4Addr u = some (x, []) := by
  obtain ⟨a, b, c, d, t₁, t₂, t₃, h₁, h₂, h₃, h₄, hx⟩ := readIpv4Addr_eq_some.mp h
  obtain ⟨u₁, rfl, hu₁⟩ := readNumber_prefix h₁
  obtain ⟨u₂, rfl, hu₂⟩ := readNumber_prefix h₂
  obtain ⟨u₃, rfl, hu₃⟩ := readNumber_prefix h₃
  obtain ⟨u₄, rfl, hu₄⟩ := readNumber_prefix h₄
  have dot : ∀ (n : Fin 256) (u v : Text), readOctet u = some (n, []) →
      readOctet (u ++ '.' :: v) = some (n, '.' :: v) := fun n u v hu =>
    readNumber_append hu (Or.inr (by simp; decide))
  exact ⟨u₁ ++ '.' :: (u₂ ++ '.' :: (u₃ ++ '.' :: u₄)), by simp,
    readIpv4Addr_eq_some.mpr ⟨a, b, c, d, _, _, _, dot a u₁ _ hu₁, dot b u₂ _ hu₂, dot c u₃ _ hu₃,
      hu₄, hx⟩⟩

theorem length_le_of_readIpv4Addr {x : Ipv4Addr} (h : readIpv4Addr t = some (x, r)) :
    t.length ≤ 15 + r.length := by
  obtain ⟨a, b, c, d, t₁, t₂, t₃, h₁, h₂, h₃, h₄, -⟩ := readIpv4Addr_eq_some.mp h
  obtain ⟨u₁, rfl, -, -, hu₁, -⟩ := readNumber_eq_some h₁
  obtain ⟨u₂, rfl, -, -, hu₂, -⟩ := readNumber_eq_some h₂
  obtain ⟨u₃, rfl, -, -, hu₃, -⟩ := readNumber_eq_some h₃
  obtain ⟨u₄, rfl, -, -, hu₄, -⟩ := readNumber_eq_some h₄
  have := hu₁ 3 rfl
  have := hu₂ 3 rfl
  have := hu₃ 3 rfl
  have := hu₄ 3 rfl
  simp only [List.length_append, List.length_cons]
  omega

theorem consumes_readGroups (left index : ℕ) (t : Text) :
    ∃ u, t = u ++ (readGroups left index t).2.2 ∧ ∀ c ∈ u, AddrChar c := by
  have h4 : ∀ index, Consumes AddrChar (readSeparator ':' index readIpv4Addr) := fun _ =>
    (consumes_readIpv4Addr.mono fun _ => Ipv4Char.addrChar).separator (by decide)
  have h6 : ∀ index, Consumes AddrChar (readSeparator ':' index readGroup) := fun _ =>
    ((consumes_readNumber (m := some 4) (z := true)).mono fun _ h => Or.inl h).separator (by decide)
  induction left generalizing index t with
  | zero => exact ⟨[], rfl, by simp⟩
  | succ left ih =>
    rw [readGroups]
    split
    · next a r h =>
      split_ifs at h
      exact h4 _ _ _ _ h
    · split
      · exact ⟨[], rfl, by simp⟩
      · next g r h =>
        obtain ⟨u, rfl, hu⟩ := h6 _ _ _ _ h
        obtain ⟨v, hv, hv'⟩ := ih (index + 1) r
        refine ⟨u ++ v, ?_, fun c hc => (List.mem_append.mp hc).elim (hu c) (hv' c)⟩
        rw [List.append_assoc]
        exact congrArg (u ++ ·) hv

theorem consumes_readIpv6Addr : Consumes AddrChar readIpv6Addr := by
  intro t x r h
  obtain ⟨u, hu, hu'⟩ := consumes_readGroups 8 0 t
  simp only [readIpv6Addr] at h
  split_ifs at h with h8 h4
  · obtain ⟨-, rfl⟩ := Prod.mk.inj (Option.some.inj h)
    exact ⟨u, hu, hu'⟩
  · simp only [Option.bind_eq_bind, Option.bind_eq_some_iff, readGivenChar_eq_some, Option.pure_def,
      Option.some.injEq, Prod.mk.injEq] at h
    obtain ⟨t₁, h₁, t₂, rfl, -, rfl⟩ := h
    obtain ⟨v, hv, hv'⟩ := consumes_readGroups (8 - ((readGroups 8 0 t).1.length + 1)) 0 t₂
    refine ⟨u ++ ':' :: ':' :: v, ?_, fun c hc => ?_⟩
    · rw [List.append_assoc, List.cons_append, List.cons_append, ← hv, ← h₁]
      exact hu
    · simp only [List.mem_append, List.mem_cons] at hc
      rcases hc with hc | rfl | rfl | hc
      · exact hu' c hc
      · decide
      · decide
      · exact hv' c hc

theorem consumes_readIpAddr : Consumes AddrChar readIpAddr := by
  intro t x r h
  rw [readIpAddr] at h
  split at h
  · next a r' h4 =>
    obtain ⟨-, rfl⟩ := Prod.mk.inj (Option.some.inj h)
    exact (consumes_readIpv4Addr.mono fun _ => Ipv4Char.addrChar) _ _ _ h4
  · obtain ⟨⟨a, r'⟩, h6, he⟩ := Option.map_eq_some_iff.mp h
    obtain ⟨-, rfl⟩ := Prod.mk.inj he
    exact consumes_readIpv6Addr _ _ _ h6

theorem parseWith_eq_some {reader : Text → Option (α × Text)} {x : α} :
    parseWith reader t = some x ↔ reader t = some (x, []) := by
  unfold parseWith
  split
  · next y h => simp [h]
  · next h =>
    simp only [reduceCtorEq, false_iff]
    exact fun hx => h _ hx

end ClientAddr.Net

namespace ClientAddr

open Net

variable {t u p : Text} {a : Ipv4Addr} {x : IpAddr}

theorem Ipv4Addr.parse_eq_some : Ipv4Addr.parse t = some a ↔ readIpv4Addr t = some (a, []) := by
  unfold Ipv4Addr.parse
  split_ifs with h
  · rw [iff_false_left (by simp)]
    intro hr
    have := length_le_of_readIpv4Addr hr
    simp only [List.length_nil] at this
    omega
  · exact parseWith_eq_some

theorem IpAddr.parse_eq_some_v4 :
    IpAddr.parse t = some (.v4 a) ↔ readIpv4Addr t = some (a, []) := by
  unfold IpAddr.parse
  rw [parseWith_eq_some, readIpAddr]
  split
  · next b r h => simp [h]
  · next h =>
    simp [h, Option.map_eq_some_iff]

theorem IpAddr.addrChar_of_parse (h : IpAddr.parse t = some x) : ∀ c ∈ t, AddrChar c := by
  obtain ⟨u, hu, hc⟩ := consumes_readIpAddr _ _ _ (parseWith_eq_some.mp h)
  rw [List.append_nil] at hu
  exact hu ▸ hc

theorem IpAddr.parse_nil : IpAddr.parse [] = none := by decide

theorem IpAddr.parse_colon (h : readIpv4Addr u = some (a, [])) :
    IpAddr.parse (u ++ ':' :: p) = none := by
  have hr : readIpv4Addr (u ++ ':' :: p) = some (a, ':' :: p) :=
    readIpv4Addr_append h (Or.inr (by simp; decide))
  simp [IpAddr.parse, parseWith, readIpAddr, hr]

/-- The socket address parser reads the IPv4 text in front of a colon. -/
theorem SocketAddr.parse_colon (h : readIpv4Addr u = some (a, [])) {sa : SocketAddr}
    (hp : SocketAddr.parse (u ++ ':' :: p) = some sa) : sa.ip = .v4 a := by
  have hr : readIpv4Addr (u ++ ':' :: p) = some (a, ':' :: p) :=
    readIpv4Addr_append h (Or.inr (by simp; decide))
  have hu : u ≠ [] := by
    rintro rfl
    simp [readIpv4Addr, readSeparator, readOctet, readNumber] at h
  have hh : readSocketAddrV6 (u ++ ':' :: p) = none := by
    obtain ⟨c, v, rfl⟩ := List.exists_cons_of_ne_nil hu
    have hc : AddrChar c :=
      IpAddr.addrChar_of_parse (IpAddr.parse_eq_some_v4.mpr h) c List.mem_cons_self
    have hne : c ≠ '[' := by
      rintro rfl
      exact absurd hc (by decide)
    simp [readSocketAddrV6, readGivenChar, hne]
  have hs := parseWith_eq_some.mp hp
  simp only [readSocketAddr, readSocketAddrV4, hr, hh] at hs
  cases hq : readPort (':' :: p) with
  | none => simp [hq] at hs
  | some q =>
    simp [hq] at hs
    rw [← hs.1]

theorem Net.readNumber_eq_none {radix bound : ℕ} {m : Option ℕ} {z : Bool} {c : Char}
    (h : isDigit radix c = false) : readNumber radix bound m z (c :: t) = none := by
  simp [readNumber, h]

theorem Net.readIpv4Addr_eq_none {c : Char} (h : isDigit 10 c = false) :
    readIpv4Addr (c :: t) = none := by
  simp [readIpv4Addr, readSeparator, readOctet, readNumber_eq_none h]

theorem Net.readGroup_eq_none {c : Char} (h : isDigit 16 c = false) : readGroup (c :: t) = none :=
  readNumber_eq_none h

theorem Net.ofSegments_mapped (a : Ipv4Addr) :
    ofSegments (List.replicate 5 0 ++ 65535 :: segmentsOf a) = a.toIpv6Mapped := by
  have := a.isLt
  apply Fin.ext
  simp only [ofSegments, segmentsOf, Ipv4Addr.toIpv6Mapped, mappedBase, List.foldl_append,
    List.foldl_cons, List.foldl_nil, Fin.val_ofNat]
  have hz : (List.replicate 5 (0 : Fin 65536)).foldl (fun n g => n * 65536 + g.val) 0 = 0 := by
    decide
  rw [hz]
  have h5 : ((65535 : Fin 65536) : ℕ) = 65535 := rfl
  rw [h5, Nat.mod_eq_of_lt (by omega)]
  omega

section Groups

variable {left index : ℕ} {g : Fin 65536} {r : Text}

theorem Net.readGroups_stop (h4 : readSeparator ':' index readIpv4Addr t = none)
    (hg : readSeparator ':' index readGroup t = none) :
    readGroups (left + 1) index t = ([], false, t) := by
  rw [readGroups, h4, hg, ite_self]

theorem Net.readGroups_ipv4 (h : readSeparator ':' index readIpv4Addr t = some (a, r)) :
    readGroups (left + 2) index t = (segmentsOf a, true, r) := by
  rw [readGroups, if_pos (by omega), h]

theorem Net.readGroups_group (h4 : readSeparator ':' index readIpv4Addr t = none)
    (hg : readSeparator ':' index readGroup t = some (g, r)) :
    readGroups (left + 1) index t =
      (g :: (readGroups left (index + 1) r).1, (readGroups left (index + 1) r).2) := by
  rw [readGroups, h4, hg, ite_self]

end Groups

theorem Net.isDigit_ten {c : Char} (h : isDigit 10 c = true) : c.isDigit = true := by
  unfold isDigit toDigit at h
  rw [Option.isSome_filter] at h
  simp only [Char.isDigit, Bool.and_eq_true, decide_eq_true_eq, UInt32.le_iff_toNat_le, ge_iff_le]
  have hv : c.val.toNat = c.toNat := rfl
  simp only [hv]
  split_ifs at h <;> simp_all <;> omega

theorem SocketAddr.parse_eq_some {c : Char} {r : Text} {sa : SocketAddr} (hc : c ≠ '[')
    (h : SocketAddr.parse (c :: r) = some sa) :
    ∃ u p a, c :: r = u ++ ':' :: p ∧ IpAddr.parse u = some (.v4 a) ∧ sa.ip = .v4 a ∧ p ≠ [] ∧
      ∀ d ∈ p, d.isDigit = true := by
  have h6 : readSocketAddrV6 (c :: r) = none := by simp [readSocketAddrV6, readGivenChar, hc]
  have hs := parseWith_eq_some.mp h
  simp only [readSocketAddr, h6] at hs
  have h4 : readSocketAddrV4 (c :: r) = some (sa, []) := by
    cases hv : readSocketAddrV4 (c :: r) with
    | none => simp [hv] at hs
    | some x => simpa [hv] using hs
  simp only [readSocketAddrV4, Option.bind_eq_bind, Option.bind_eq_some_iff, Prod.exists,
    Option.pure_def, Option.some.injEq, Prod.mk.injEq] at h4
  obtain ⟨a, t, ha, port, t', hp, rfl, rfl⟩ := h4
  simp only [readPort, Option.bind_eq_bind, Option.bind_eq_some_iff, readGivenChar_eq_some] at hp
  obtain ⟨p, rfl, hp⟩ := hp
  obtain ⟨ds, rfl, hne, hd, -, -⟩ := readNumber_eq_some hp
  obtain ⟨u, hu, hua⟩ := readIpv4Addr_prefix ha
  rw [List.append_nil] at hu
  exact ⟨u, ds, a, hu, IpAddr.parse_eq_some_v4.mpr hua, rfl, hne, fun d hm => isDigit_ten (hd d hm)⟩

/-- What stands in front of the IPv4 text of a mapped address. -/
def mappedPrefix : Text := "::ffff:".toList

theorem Net.readGroups_mapped (h : readIpv4Addr u = some (a, [])) :
    readGroups 7 0 ('f' :: 'f' :: 'f' :: 'f' :: ':' :: u) = (65535 :: segmentsOf a, true, []) := by
  have h4 : readSeparator ':' 0 readIpv4Addr ('f' :: 'f' :: 'f' :: 'f' :: ':' :: u) = none :=
    readIpv4Addr_eq_none (by decide)
  have hg : readSeparator ':' 0 readGroup ('f' :: 'f' :: 'f' :: 'f' :: ':' :: u) =
      some (65535, ':' :: u) := by
    have hf : readGroup ['f', 'f', 'f', 'f', ':'] = some (65535, [':']) := by decide
    exact readNumber_append hf (Or.inl (by simp))
  have ht : readSeparator ':' 1 readIpv4Addr (':' :: u) = some (a, []) := by
    simp [readSeparator, readGivenChar, h]
  rw [readGroups_group h4 hg, readGroups_ipv4 ht]

/-- Behind `::ffff:` an IPv4 text spells the mapped address. -/
theorem IpAddr.parse_mapped (h : IpAddr.parse u = some (.v4 a)) :
    IpAddr.parse (mappedPrefix ++ u) = some (.v6 a.toIpv6Mapped) := by
  have h4 : readIpv4Addr (mappedPrefix ++ u) = none := readIpv4Addr_eq_none (by decide)
  have hg : readGroup (mappedPrefix ++ u) = none := readGroup_eq_none (by decide)
  have hh : readGroups 8 0 (mappedPrefix ++ u) = ([], false, mappedPrefix ++ u) :=
    readGroups_stop h4 hg
  have ht := readGroups_mapped (IpAddr.parse_eq_some_v4.mp h)
  have hu : mappedPrefix ++ u = ':' :: ':' :: 'f' :: 'f' :: 'f' :: 'f' :: ':' :: u := rfl
  have h6 : readIpv6Addr (mappedPrefix ++ u) = some (a.toIpv6Mapped, []) := by
    rw [← ofSegments_mapped]
    simp only [readIpv6Addr, hh]
    simp [hu, readGivenChar, ht, segmentsOf]
  rw [IpAddr.parse, parseWith_eq_some, readIpAddr, h4, h6]
  rfl

end ClientAddr
