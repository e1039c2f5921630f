import ClientAddr.Net.Spelling

/-! # Writing addresses

An address is written as the standard library writes it: four decimal octets, or
hexadecimal groups with the longest run of zero groups left out, or `::ffff:` in
front of an IPv4-mapped address. What is written is read back as the same address.
-/

namespace ClientAddr

open Net

namespace Net

def lowOctet (n : ℕ) : Fin 256 := ⟨n % 256, Nat.mod_lt n (by decide)⟩

def lowGroup (n : ℕ) : Fin 65536 := ⟨n % 65536, Nat.mod_lt n (by decide)⟩

structure Span where
  start : ℕ
  len : ℕ
  deriving DecidableEq, Repr

/-- One group of the loop that looks for zero groups, over the longest run and the current one. -/
def zeroStep : Span × Span → Fin 65536 × ℕ → Span × Span
  | (longest, current), (segment, i) =>
    if segment.val = 0 then
      let current := ⟨if current.len = 0 then i else current.start, current.len + 1⟩
      (if longest.len < current.len then current else longest, current)
    else (longest, ⟨0, 0⟩)

/-- The first longest run of zero groups. -/
def longestZeros (segments : List (Fin 65536)) : Span :=
  (segments.zipIdx.foldl zeroStep (⟨0, 0⟩, ⟨0, 0⟩)).1

def fmtTail (tail : List (Fin 65536)) : Text :=
  tail.flatMap fun segment => ':' :: Nat.toDigits 16 segment.val

def fmtSubslice : List (Fin 65536) → Text
  | [] => []
  | first :: tail => Nat.toDigits 16 first.val ++ fmtTail tail

end Net

def Ipv4Addr.octets (a : Ipv4Addr) : Fin 256 × Fin 256 × Fin 256 × Fin 256 :=
  (lowOctet (a.val / 2 ^ 24), lowOctet (a.val / 2 ^ 16), lowOctet (a.val / 2 ^ 8), lowOctet a.val)

def Ipv4Addr.display (addr : Ipv4Addr) : Text :=
  let (a, b, c, d) := addr.octets
  Nat.toDigits 10 a.val ++ '.' :: (Nat.toDigits 10 b.val ++ '.' :: (Nat.toDigits 10 c.val ++
    '.' :: Nat.toDigits 10 d.val))

def Ipv6Addr.segments (a : Ipv6Addr) : List (Fin 65536) :=
  (List.range 8).map fun i => lowGroup (a.val / 65536 ^ (7 - i))

def Ipv6Addr.display (a : Ipv6Addr) : Text :=
  match a.toIpv4Mapped with
  | some ipv4 => mappedPrefix ++ ipv4.display
  | none =>
    let segments := a.segments
    let zeroes := longestZeros segments
    if 1 < zeroes.len then
      fmtSubslice (segments.take zeroes.start) ++
        ':' :: ':' :: fmtSubslice (segments.drop (zeroes.start + zeroes.len))
    else fmtSubslice segments

def IpAddr.display : IpAddr → Text
  | v4 a => a.display
  | v6 a => a.display

example : IpAddr.display (.v6 (ofSegments [0x2001, 0xdb8, 0, 0, 1, 0, 0, 1])) =
    "2001:db8::1:0:0:1".toList := by
  decide +kernel

section Digits

variable {radix n : ℕ}

theorem Net.toDigit_digitChar (hr : radix ≤ 16) (hn : n < radix) :
    toDigit radix n.digitChar = some n := by
  have h16 : ∀ m : Fin 16, toDigit 16 m.val.digitChar = some m.val := by decide
  have h := h16 ⟨n, hn.trans_le hr⟩
  simp only [toDigit, Option.filter_eq_some_iff] at h ⊢
  exact ⟨h.1, decide_eq_true hn⟩

theorem Net.toDigits_induction {P : ℕ → Text → Prop} (h1 : 1 < radix)
    (single : ∀ d < radix, P d [d.digitChar])
    (concat : ∀ m t, 0 < m → P m t → ∀ d < radix, P (m * radix + d) (t ++ [d.digitChar])) (n : ℕ) :
    P n (Nat.toDigits radix n) := by
  induction n using Nat.strong_induction_on with
  | _ n ih =>
    rw [Nat.toDigits_eq_if h1]
    split_ifs with hn
    · exact single n hn
    · have hlt : n / radix < n := Nat.div_lt_self (by omega) h1
      have hpos : 0 < n / radix := Nat.div_pos (by omega) (by omega)
      have hmod : n % radix < radix := Nat.mod_lt n (by omega)
      have h := concat _ _ hpos (ih _ hlt) _ hmod
      rwa [Nat.div_add_mod'] at h

theorem Net.isDigit_of_mem_toDigits (h1 : 1 < radix) (hr : radix ≤ 16) :
    ∀ c ∈ Nat.toDigits radix n, isDigit radix c = true := by
  have digit : ∀ d < radix, isDigit radix d.digitChar = true := fun d hd => by
    rw [isDigit, toDigit_digitChar hr hd, Option.isSome_some]
  refine toDigits_induction (P := fun _ t => ∀ c ∈ t, isDigit radix c = true) h1 ?_ ?_ n
  · simpa using digit
  · intro m t _ ht d hd c hc
    rcases List.mem_append.mp hc with hc | hc
    · exact ht c hc
    · rw [List.mem_singleton.mp hc]
      exact digit d hd

theorem Net.ofDigits_toDigits (h1 : 1 < radix) (hr : radix ≤ 16) :
    ofDigits radix (Nat.toDigits radix n) = n := by
  refine toDigits_induction (P := fun n t => ofDigits radix t = n) h1 ?_ ?_ n
  · intro d hd
    simp [ofDigits, toDigit_digitChar hr hd]
  · intro m t _ ht d hd
    rw [ofDigits] at ht
    simp [ofDigits, ht, toDigit_digitChar hr hd]

theorem Net.toDigits_eq_cons (h1 : 1 < radix) (hn : 0 < n) :
    ∃ c t, Nat.toDigits radix n = c :: t ∧ c ≠ '0' := by
  revert hn
  refine toDigits_induction (P := fun n u => 0 < n → ∃ c t, u = c :: t ∧ c ≠ '0') h1 ?_ ?_ n
  · intro d _ hd
    exact ⟨_, _, rfl, by simpa using hd.ne'⟩
  · intro m t hm ht d _ _
    obtain ⟨c, t, rfl, hc⟩ := ht hm
    exact ⟨c, t ++ [d.digitChar], rfl, hc⟩

theorem Net.readNumber_toDigits {bound : ℕ} {m : Option ℕ} {z : Bool} {r : Text}
    (h1 : 1 < radix) (hr : radix ≤ 16) (n : Fin bound) (hm : ∀ k ∈ m, n.val < radix ^ k ∧ 0 < k)
    (hs : ∀ c ∈ r.head?, isDigit radix c = false) :
    readNumber radix bound m z (Nat.toDigits radix n.val ++ r) = some (n, r) := by
  have hd := isDigit_of_mem_toDigits h1 hr (n := n.val)
  have take : (Nat.toDigits radix n.val ++ r).takeWhile (isDigit radix) =
      Nat.toDigits radix n.val ∧ (Nat.toDigits radix n.val ++ r).dropWhile (isDigit radix) = r := by
    rw [List.takeWhile_append_of_pos hd, List.dropWhile_append_of_pos hd]
    cases r with
    | nil => simp
    | cons d v => simp [hs d rfl]
  simp only [readNumber, take, ofDigits_toDigits h1 hr]
  rw [if_neg Nat.toDigits_ne_nil, if_neg, if_neg, dif_pos n.isLt]
  · rintro ⟨-, h0, hl⟩
    rcases Nat.eq_zero_or_pos n.val with hn | hn
    · rw [hn, Nat.toDigits_zero] at hl
      simp at hl
    · obtain ⟨c, t, ht, hc⟩ := toDigits_eq_cons h1 hn
      rw [ht, List.head?_cons, Option.some.injEq] at h0
      exact hc h0
  · cases m with
    | none => simp
    | some k =>
      obtain ⟨hk, hpos⟩ := hm k rfl
      have hl := (Nat.length_toDigits_le_iff h1 hpos).mpr hk
      simpa using hl

end Digits

section Ipv4

variable {r : Text}

theorem Net.readOctet_toDigits (n : Fin 256) (hs : ∀ c ∈ r.head?, isDigit 10 c = false) :
    readOctet (Nat.toDigits 10 n.val ++ r) = some (n, r) := by
  refine readNumber_toDigits (by omega) (by omega) n ?_ hs
  rintro k hk
  obtain rfl := Option.some.inj hk
  omega

theorem Net.readGroup_toDigits (n : Fin 65536) (hs : ∀ c ∈ r.head?, isDigit 16 c = false) :
    readGroup (Nat.toDigits 16 n.val ++ r) = some (n, r) := by
  refine readNumber_toDigits (by omega) (by omega) n ?_ hs
  rintro k hk
  obtain rfl := Option.some.inj hk
  omega

theorem Ipv4Addr.new_octets (x : Ipv4Addr) :
    Ipv4Addr.new x.octets.1 x.octets.2.1 x.octets.2.2.1 x.octets.2.2.2 = x := by
  have := x.isLt
  apply Fin.ext
  simp only [new, octets, lowOctet]
  omega

theorem Net.readIpv4Addr_display (x : Ipv4Addr) : readIpv4Addr x.display = some (x, []) := by
  have dot : ∀ (n : Fin 256) (t : Text),
      readOctet (Nat.toDigits 10 n.val ++ '.' :: t) = some (n, '.' :: t) := fun n t =>
    readOctet_toDigits n (by simp; decide)
  have last : ∀ n : Fin 256, readOctet (Nat.toDigits 10 n.val) = some (n, []) := fun n => by
    simpa using readOctet_toDigits (r := []) n (by simp)
  exact readIpv4Addr_eq_some.mpr ⟨_, _, _, _, _, _, _, dot _ _, dot _ _, dot _ _, last _,
    x.new_octets.symm⟩

end Ipv4

section Ipv6

variable {gs : List (Fin 65536)} {left index : ℕ} {t r : Text}

def Net.Span.IsZero (span : Span) (gs : List (Fin 65536)) : Prop :=
  ∀ i, span.start ≤ i → i < span.start + span.len → ∃ g, gs[i]? = some g ∧ g.val = 0

theorem Net.Span.isZero_empty (gs : List (Fin 65536)) : Span.IsZero ⟨0, 0⟩ gs :=
  fun _ _ he => absurd he (Nat.not_lt_zero _)

theorem Net.Span.IsZero.append {span : Span} (h : span.IsZero gs) (gs' : List (Fin 65536)) :
    span.IsZero (gs ++ gs') := by
  intro i hs he
  obtain ⟨g, hi, hg⟩ := h i hs he
  exact ⟨g, by rwa [List.getElem?_append_left (List.getElem?_eq_some_iff.mp hi).1], hg⟩

theorem Net.Span.IsZero.grow {current : Span} (h : current.IsZero gs)
    (hend : current.len = 0 ∨ current.start + current.len = gs.length) :
    ∃ start, (if current.len = 0 then gs.length else current.start) = start ∧
      Span.IsZero ⟨start, current.len + 1⟩ (gs ++ [0]) ∧
      start + (current.len + 1) = (gs ++ [0]).length := by
  refine ⟨_, rfl, fun i hs he => ?_, ?_⟩
  · simp only at hs he
    rcases Nat.lt_or_ge i gs.length with hi | hi
    · refine h.append [0] i ?_ ?_
      · split_ifs at hs he <;> omega
      · split_ifs at hs he <;> omega
    · have : i = gs.length := by split_ifs at hs he <;> omega
      exact ⟨0, by rw [this, List.getElem?_concat_length], rfl⟩
  · rw [List.length_append, List.length_singleton]
    split_ifs <;> omega

/-- The longest run and the current one are runs of zeros, and the current one is at the end. -/
theorem Net.isZero_foldl_zeroStep (gs : List (Fin 65536)) :
    let spans := gs.zipIdx.foldl zeroStep (⟨0, 0⟩, ⟨0, 0⟩)
    spans.1.IsZero gs ∧ spans.2.IsZero gs ∧
      (spans.2.len = 0 ∨ spans.2.start + spans.2.len = gs.length) := by
  induction gs using List.reverseRecOn with
  | nil => exact ⟨Span.isZero_empty [], Span.isZero_empty [], Or.inl rfl⟩
  | append_singleton gs g ih =>
    rw [List.zipIdx_append, List.foldl_append]
    obtain ⟨hl, hc, hend⟩ := ih
    generalize gs.zipIdx.foldl zeroStep (⟨0, 0⟩, ⟨0, 0⟩) = spans at hl hc hend ⊢
    obtain ⟨longest, current⟩ := spans
    by_cases hg : g.val = 0
    · obtain rfl : g = 0 := Fin.ext hg
      obtain ⟨start, hstart, hz, hlen⟩ := hc.grow hend
      simp only [List.zipIdx_singleton, zero_add, List.foldl_cons, List.foldl_nil, zeroStep,
        if_pos hg, hstart]
      refine ⟨?_, hz, Or.inr hlen⟩
      split_ifs
      · exact hz
      · exact hl.append [0]
    · simp only [List.zipIdx_singleton, zero_add, List.foldl_cons, List.foldl_nil, zeroStep,
        if_neg hg]
      exact ⟨hl.append [g], Span.isZero_empty _, Or.inl trivial⟩

theorem Net.isZero_longestZeros (gs : List (Fin 65536)) : (longestZeros gs).IsZero gs :=
  (isZero_foldl_zeroStep gs).1

theorem Net.readSeparator_readIpv4Addr (h : '.' ∉ t) :
    readSeparator ':' index readIpv4Addr t = none := by
  have none : ∀ u : Text, '.' ∉ u → readIpv4Addr u = none := by
    intro u hu
    rw [Option.eq_none_iff_forall_ne_some]
    rintro ⟨x, r⟩ hx
    obtain ⟨a, b, c, d, t₁, t₂, t₃, h₁, -⟩ := readIpv4Addr_eq_some.mp hx
    obtain ⟨v, rfl, -⟩ := consumes_readNumber _ _ _ h₁
    simp at hu
  rw [Option.eq_none_iff_forall_ne_some]
  rintro ⟨x, r⟩ hx
  rcases readSeparator_eq_some.mp hx with ⟨h4, -⟩ | ⟨u, -, rfl, h4⟩
  · rw [none t h] at h4
    cases h4
  · rw [none u (List.not_mem_of_not_mem_cons h)] at h4
    cases h4

theorem Net.not_mem_toDigits {c : Char} (hc : isDigit 16 c = false) (n : ℕ) :
    c ∉ Nat.toDigits 16 n := fun hm => by
  rw [isDigit_of_mem_toDigits (by omega) le_rfl c hm] at hc
  cases hc

theorem Net.fmtTail_cons (g : Fin 65536) (gs : List (Fin 65536)) :
    fmtTail (g :: gs) = ':' :: (Nat.toDigits 16 g.val ++ fmtTail gs) := rfl

theorem Net.dot_not_mem_fmtTail (gs : List (Fin 65536)) : '.' ∉ fmtTail gs := by
  simp [fmtTail, not_mem_toDigits (c := '.') (by decide)]

theorem Net.dot_not_mem_fmtSubslice (gs : List (Fin 65536)) : '.' ∉ fmtSubslice gs := by
  cases gs with
  | nil => simp [fmtSubslice]
  | cons g gs =>
    simp [fmtSubslice, not_mem_toDigits (c := '.') (by decide), dot_not_mem_fmtTail gs]

/-- A text that does not go on with a group. -/
def Net.GroupsEnd (r : Text) : Prop := r = [] ∨ ∃ v, r = ':' :: ':' :: v ∧ '.' ∉ v

theorem Net.GroupsEnd.dot_not_mem (hr : GroupsEnd r) : '.' ∉ r := by
  rcases hr with rfl | ⟨v, rfl, hv⟩
  · simp
  · simp [hv]

theorem Net.GroupsEnd.readGroups_eq (hr : GroupsEnd r) (left index : ℕ) :
    readGroups left index r = ([], false, r) := by
  cases left with
  | zero => rfl
  | succ left =>
    refine readGroups_stop (readSeparator_readIpv4Addr hr.dot_not_mem) ?_
    have hg : ∀ v, readGroup (':' :: v) = none := fun v => readGroup_eq_none (by decide)
    have hn : readGroup [] = none := by decide
    rcases hr with rfl | ⟨v, rfl, -⟩
    · simp [readSeparator, readGivenChar, hn]
    · simp [readSeparator, readGivenChar, hg]

theorem Net.GroupsEnd.head (hr : GroupsEnd r) (gs : List (Fin 65536)) :
    ∀ c ∈ (fmtTail gs ++ r).head?, isDigit 16 c = false := by
  have hc : isDigit 16 ':' = false := by decide
  cases gs with
  | nil =>
    rcases hr with rfl | ⟨v, rfl, -⟩
    · simp [fmtTail]
    · simpa [fmtTail] using hc
  | cons g gs => simpa [fmtTail_cons] using hc

theorem Net.readGroups_fmtTail (hr : GroupsEnd r) (hi : 0 < index) (hl : gs.length ≤ left) :
    readGroups left index (fmtTail gs ++ r) = (gs, false, r) := by
  induction gs generalizing left index with
  | nil => exact hr.readGroups_eq left index
  | cons g gs ih =>
    cases left with
    | zero => cases hl
    | succ left =>
      have hdot : '.' ∉ fmtTail (g :: gs) ++ r := by
        simp [dot_not_mem_fmtTail, hr.dot_not_mem]
      have hs : readSeparator ':' index readGroup (fmtTail (g :: gs) ++ r) =
          some (g, fmtTail gs ++ r) := by
        simp [readSeparator, hi, readGivenChar, fmtTail_cons, readGroup_toDigits g (hr.head gs)]
      rw [readGroups_group (readSeparator_readIpv4Addr hdot) hs,
        ih (Nat.succ_pos index) (Nat.le_of_succ_le_succ hl)]

theorem Net.GroupsEnd.readGroups_fmtSubslice (hr : GroupsEnd r) (left : ℕ)
    (gs : List (Fin 65536)) (hl : gs.length ≤ left) :
    readGroups left 0 (fmtSubslice gs ++ r) = (gs, false, r) := by
  cases gs with
  | nil => exact hr.readGroups_eq left 0
  | cons g gs =>
    cases left with
    | zero => cases hl
    | succ left =>
      have hdot : '.' ∉ fmtSubslice (g :: gs) ++ r := by
        simp [dot_not_mem_fmtSubslice, hr.dot_not_mem]
      have hs : readSeparator ':' 0 readGroup (fmtSubslice (g :: gs) ++ r) =
          some (g, fmtTail gs ++ r) := by
        simp [readSeparator, fmtSubslice, readGroup_toDigits g (hr.head gs)]
      rw [readGroups_group (readSeparator_readIpv4Addr hdot) hs,
        readGroups_fmtTail hr Nat.one_pos (Nat.le_of_succ_le_succ hl)]

theorem Net.readGroups_fmtSubslice_nil (left : ℕ) (gs : List (Fin 65536)) (hl : gs.length ≤ left) :
    readGroups left 0 (fmtSubslice gs) = (gs, false, []) := by
  have h := GroupsEnd.readGroups_fmtSubslice (Or.inl rfl) left gs hl
  rwa [List.append_nil] at h

theorem Net.Span.IsZero.fill {span : Span} (h : span.IsZero gs) (hlen : 0 < span.len) :
    span.start + span.len ≤ gs.length ∧
      gs.take span.start ++ List.replicate span.len 0 ++ gs.drop (span.start + span.len) = gs := by
  have hle : span.start + span.len ≤ gs.length := by
    obtain ⟨g, hlast, -⟩ := h (span.start + span.len - 1) (by omega) (by omega)
    have := (List.getElem?_eq_some_iff.mp hlast).1
    omega
  have hrun : (gs.drop span.start).take span.len = List.replicate span.len 0 := by
    rw [List.eq_replicate_iff]
    refine ⟨by simp; omega, fun g hg => ?_⟩
    obtain ⟨i, hi, rfl⟩ := List.getElem_of_mem hg
    have hi' : i < span.len := by simp at hi; omega
    obtain ⟨g, hg, hz⟩ := h (span.start + i) (by omega) (by omega)
    obtain ⟨_, rfl⟩ := List.getElem?_eq_some_iff.mp hg
    simpa using Fin.ext hz
  refine ⟨hle, ?_⟩
  rw [← hrun, List.append_assoc, ← List.drop_drop, List.take_append_drop, List.take_append_drop]

theorem Ipv6Addr.ofSegments_segments (x : Ipv6Addr) : ofSegments x.segments = x := by
  have := x.isLt
  apply Fin.ext
  simp [ofSegments, segments, lowGroup, List.range_succ]
  omega

theorem Ipv6Addr.length_segments (x : Ipv6Addr) : x.segments.length = 8 := by simp [segments]

theorem Ipv6Addr.dot_not_mem_display {x : Ipv6Addr} (hx : x.toIpv4Mapped = none) :
    '.' ∉ x.display := by
  simp only [display, hx]
  split_ifs
  · simp [dot_not_mem_fmtSubslice]
  · exact dot_not_mem_fmtSubslice _

theorem Net.readIpv6Addr_display {x : Ipv6Addr} (hx : x.toIpv4Mapped = none) :
    readIpv6Addr x.display = some (x, []) := by
  have hlen := x.length_segments
  simp only [Ipv6Addr.display, hx]
  split_ifs with hz
  · obtain ⟨hle, hfill⟩ := (isZero_longestZeros x.segments).fill (by omega)
    generalize longestZeros x.segments = zeroes at *
    have hend : GroupsEnd (':' :: ':' :: fmtSubslice (x.segments.drop
        (zeroes.start + zeroes.len))) := Or.inr ⟨_, rfl, dot_not_mem_fmtSubslice _⟩
    have hhead := hend.readGroups_fmtSubslice 8 (x.segments.take zeroes.start) (by simp; omega)
    have htail := readGroups_fmtSubslice_nil (8 - (zeroes.start + 1))
      (x.segments.drop (zeroes.start + zeroes.len)) (by simp; omega)
    have hstart : (x.segments.take zeroes.start).length = zeroes.start := by simp; omega
    have hzeros : 8 - zeroes.start -
      (x.segments.drop (zeroes.start + zeroes.len)).length = zeroes.len := by simp; omega
    simp only [readIpv6Addr, hhead]
    rw [hstart, if_neg (by omega)]
    simp only [readGivenChar, if_pos, Option.bind_eq_bind, Option.bind_some, htail, hzeros, hfill,
      Ipv6Addr.ofSegments_segments, Bool.false_eq_true, if_false, Option.pure_def]
  · have hall := readGroups_fmtSubslice_nil 8 x.segments hlen.le
    simp [readIpv6Addr, hall, hlen, Ipv6Addr.ofSegments_segments]

end Ipv6

/-- What is written is read back. -/
theorem IpAddr.parse_display (x : IpAddr) : IpAddr.parse x.display = some x := by
  have h4 : ∀ a : Ipv4Addr, IpAddr.parse a.display = some (.v4 a) := fun a =>
    IpAddr.parse_eq_some_v4.mpr (readIpv4Addr_display a)
  cases x with
  | v4 a => exact h4 a
  | v6 a =>
    cases ha : a.toIpv4Mapped with
    | some b =>
      rw [display, Ipv6Addr.display, ha, parse_mapped (h4 b), ← Ipv6Addr.toIpv4Mapped_eq_some.mp ha]
    | none =>
      have h4 : readSeparator ':' 0 readIpv4Addr a.display = none :=
        readSeparator_readIpv4Addr (Ipv6Addr.dot_not_mem_display ha)
      have h4 : readIpv4Addr a.display = none := h4
      rw [IpAddr.parse, parseWith_eq_some, readIpAddr, display, h4, readIpv6Addr_display ha]
      rfl

end ClientAddr
