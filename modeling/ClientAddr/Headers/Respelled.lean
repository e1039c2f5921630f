import ClientAddr.Headers.Hop
import ClientAddr.Headers.Forwarded

/-! # Lines written another way

An IPv4 hop may also be written in IPv4-mapped form, and in brackets where a port
follows. Exchanging one form for the other keeps the hops of a line, and so does
the quoting of a `Forwarded` value.
-/

namespace ClientAddr

open Net Text QuoteState

variable {t t' u p raw raw' : Text} {a : Ipv4Addr}

/-- An IPv4 hop and its IPv4-mapped form. -/
inductive RespelledHop : Text → Text → Prop
  | plain {u : Text} {a : Ipv4Addr} : IpAddr.parse u = some (.v4 a) →
    RespelledHop u (mappedPrefix ++ u)
  | port {u p : Text} {a : Ipv4Addr} : IpAddr.parse u = some (.v4 a) → isValidNodePort p = true →
    RespelledHop (u ++ ':' :: p) ('[' :: ((mappedPrefix ++ u) ++ ']' :: ':' :: p))

/-- In a `Forwarded` value an address without a port may also stand in brackets. -/
inductive RespelledFor : Text → Text → Prop
  | hop {t t' : Text} : RespelledHop t t' → RespelledFor t t'
  | bracketed {u : Text} {a : Ipv4Addr} : IpAddr.parse u = some (.v4 a) →
    RespelledFor u ('[' :: ((mappedPrefix ++ u) ++ [']']))

def WrittenAs (t v : Text) : Prop := v = t ∨ v = quote [] t

/-- A text behind which a part of a list, or a parameter of an element, begins. -/
inductive BeforePart : ChainHeaderKind → Text → Prop
  | start {kind : ChainHeaderKind} : BeforePart kind []
  | comma {q : Text} : BeforePart .xForwardedFor (q ++ [','])
  | delimiter {q : Text} {d : Char} : d = ',' ∨ d = ';' → outside.scan q = .outside →
    BeforePart .forwarded (q ++ [d])

inductive AfterPart : ChainHeaderKind → Text → Prop
  | stop {kind : ChainHeaderKind} : AfterPart kind []
  | comma {q : Text} : AfterPart .xForwardedFor (',' :: q)
  | delimiter {q : Text} {d : Char} : d = ',' ∨ d = ';' → AfterPart .forwarded (d :: q)

/-- Two lines that differ in the spelling of one hop. -/
inductive RespelledLine : ChainHeaderKind → Text → Text → Prop
  | list {P Q p p' : Text} : BeforePart .xForwardedFor P → AfterPart .xForwardedFor Q →
    RespelledHop (trim p) (trim p') →
    RespelledLine .xForwardedFor (P ++ (p ++ Q)) (P ++ (p' ++ Q))
  | forwarded {P Q n b c t t' v v' : Text} : BeforePart .forwarded P → AfterPart .forwarded Q →
    '=' ∉ n → ',' ∉ n → ';' ∉ n → '"' ∉ n → Blank b → Blank c →
    RespelledFor t t' → WrittenAs t v → WrittenAs t' v' →
    RespelledLine .forwarded (P ++ (n ++ '=' :: b) ++ (v ++ (c ++ Q)))
      (P ++ (n ++ '=' :: b) ++ (v' ++ (c ++ Q)))

/-- Two lines that are split into the same items, up to the spelling of one hop. -/
inductive RespelledItems : ChainHeaderKind → Text → Text → Prop
  | list {raw raw' p p' : Text} {l r : List Text} :
    raw.splitOn ',' = l ++ p :: r → raw'.splitOn ',' = l ++ p' :: r →
    RespelledHop (trim p) (trim p') → RespelledItems .xForwardedFor raw raw'
  | forwarded {raw raw' e e' name v v' t t' : Text} {l r m s : List Text} :
    (SplitQuoted.new raw ',').items = l ++ e :: r →
    (SplitQuoted.new raw' ',').items = l ++ e' :: r →
    (SplitQuoted.new e ';').items = m ++ (name ++ '=' :: v) :: s →
    (SplitQuoted.new e' ';').items = m ++ (name ++ '=' :: v') :: s →
    '=' ∉ name → RespelledFor t t' → WrittenAs t (trim v) → WrittenAs t' (trim v') →
    RespelledItems .forwarded raw raw'

theorem RespelledHop.hopText (h : RespelledHop t t') :
    ∃ a : Ipv4Addr, HopText t (.v4 a) ∧ HopText t' (.v6 a.toIpv6Mapped) := by
  cases h with
  | plain hu => exact ⟨_, .plain hu, .plain (IpAddr.parse_mapped hu)⟩
  | port hu hp => exact ⟨_, .hostPort hu hp, .bracketedPort (IpAddr.parse_mapped hu) hp⟩

theorem RespelledFor.hopText (h : RespelledFor t t') :
    ∃ a : Ipv4Addr, HopText t (.v4 a) ∧ HopText t' (.v6 a.toIpv6Mapped) := by
  cases h with
  | hop h => exact h.hopText
  | bracketed hu => exact ⟨_, .plain hu, .bracketed (IpAddr.parse_mapped hu)⟩

theorem RespelledHop.parse_eq (h : RespelledHop t t') :
    (IpAddr.parse t).map canonicalIp = (IpAddr.parse t').map canonicalIp := by
  cases h with
  | plain hu => simp [hu, IpAddr.parse_mapped hu, canonicalIp]
  | port hu hp => rw [IpAddr.parse_colon (IpAddr.parse_eq_some_v4.mp hu), parse_eq_none (by decide)]

theorem RespelledHop.chainEntry_eq (h : RespelledHop t t') : chainEntry t = chainEntry t' := by
  obtain ⟨a, ht, ht'⟩ := h.hopText
  simp only [chainEntry, ht.parseIpLike_eq, ht'.parseIpLike_eq, canonicalIp,
    IpAddr.toCanonical_v4, IpAddr.toCanonical_mapped]

theorem WrittenAs.parseIpLike_eq {v : Text} {x : IpAddr} (hw : WrittenAs t (trim v))
    (h : HopText t x) : parseIpLike (unquoteHttpQuotedString (trim v)) = some x := by
  rcases hw with hw | hw
  · rw [hw, unquote_bare h.quote_not_mem, parseIpLike_trim, h.parseIpLike_eq]
  · rw [hw, unquote_quote, h.parseIpLike_eq]

theorem RespelledFor.chainEntry_eq {v v' : Text} (h : RespelledFor t t')
    (hw : WrittenAs t (trim v)) (hw' : WrittenAs t' (trim v')) :
    chainEntry (unquoteHttpQuotedString (trim v)) =
      chainEntry (unquoteHttpQuotedString (trim v')) := by
  obtain ⟨a, ht, ht'⟩ := h.hopText
  simp only [chainEntry, hw.parseIpLike_eq ht, hw'.parseIpLike_eq ht', canonicalIp,
    IpAddr.toCanonical_v4, IpAddr.toCanonical_mapped]

theorem forwardedPairsEntry_congr {name v v' : Text} (m s : List Text) (hn : '=' ∉ name)
    (he : chainEntry (unquoteHttpQuotedString (trim v)) =
      chainEntry (unquoteHttpQuotedString (trim v'))) :
    forwardedPairsEntry (m ++ (name ++ '=' :: v) :: s) =
      forwardedPairsEntry (m ++ (name ++ '=' :: v') :: s) := by
  induction m with
  | nil => simp only [List.nil_append, forwardedPairsEntry, splitOnce_append hn, he]
  | cons p m ih => simp only [List.cons_append, forwardedPairsEntry, ih]

theorem forwardedHops_eq_items (raw : Text) :
    forwardedHops raw =
      ((SplitQuoted.new raw ',').items.filter (· ≠ [])).map forwardedElementEntry := by
  rw [SplitQuoted.items_new (by decide)]
  rfl

theorem mem_of_mem_items {d c : Char} {x : Text} (hd : d ≠ '"')
    (hx : x ∈ (SplitQuoted.new t d).items) (hc : c ∈ x) : c ∈ t := by
  rw [SplitQuoted.items_new hd] at hx
  obtain ⟨y, hy, rfl⟩ := List.mem_map.mp hx
  exact mem_of_mem_splitOutside hy (mem_of_mem_trim hc)

theorem RespelledItems.hopsOf_eq {kind : ChainHeaderKind} (h : RespelledItems kind raw raw') :
    hopsOf kind raw = hopsOf kind raw' := by
  cases h with
  | @list _ _ p p' l r hs hs' hh =>
    obtain ⟨a, ht, ht'⟩ := hh.hopText
    simp only [hopsOf, listHops, listParts, hs, hs', List.map_append, List.map_cons,
      List.filter_append, List.filter_cons, ne_eq, ht.ne_nil, ht'.ne_nil, not_false_eq_true,
      decide_true, if_true, hh.chainEntry_eq]
  | @forwarded _ _ e e' name v v' t t' l r m s hs hs' hm hm' hn hh hw hw' =>
    have hne : ∀ {e v}, (SplitQuoted.new e ';').items = m ++ (name ++ '=' :: v) :: s → e ≠ [] := by
      intro e v h
      have : '=' ∈ e :=
        mem_of_mem_items (d := ';') (x := name ++ '=' :: v) (by decide) (by rw [h]; simp) (by simp)
      exact List.ne_nil_of_mem this
    have hentry : forwardedElementEntry e = forwardedElementEntry e' := by
      unfold forwardedElementEntry
      rw [hm, hm', forwardedPairsEntry_congr m s hn (hh.chainEntry_eq hw hw')]
    simp only [hopsOf, forwardedHops_eq_items, hs, hs', List.map_append, List.map_cons,
      List.filter_append, List.filter_cons, ne_eq, hne hm, hne hm', not_false_eq_true,
      decide_true, if_true, hentry]

section Replaced

variable {n b c v v' P Q : Text} {x : IpAddr} {d : Char}

theorem exists_splitOn_around (hP : BeforePart .xForwardedFor P) (hQ : AfterPart .xForwardedFor Q) :
    ∃ l r, ∀ p, ',' ∉ p → (P ++ (p ++ Q)).splitOn ',' = l ++ p :: r := by
  have right : ∃ r, ∀ p, ',' ∉ p → (p ++ Q).splitOn ',' = p :: r := by
    cases hQ with
    | stop => exact ⟨[], fun p hp => by rw [List.append_nil, List.splitOn_eq_singleton hp]⟩
    | @comma q =>
      refine ⟨q.splitOn ',', fun p hp => ?_⟩
      rw [List.splitOn_append_cons_self, List.splitOn_eq_singleton hp]
      rfl
  obtain ⟨r, hr⟩ := right
  cases hP with
  | start => exact ⟨[], r, hr⟩
  | @comma q =>
    refine ⟨q.splitOn ',', r, fun p hp => ?_⟩
    rw [List.append_assoc, List.singleton_append, List.splitOn_append_cons_self, hr p hp]

theorem BeforePart.scan (h : BeforePart .forwarded P) : outside.scan P = .outside := by
  cases h with
  | start => rfl
  | delimiter hd hq => rcases hd with rfl | rfl <;> rw [scan_append, hq] <;> rfl

theorem BeforePart.last_piece (h : BeforePart .forwarded P) (hc : ',' ∉ n) (hs : ';' ∉ n) :
    ∃ l x m, splitOutside ',' .outside (P ++ n) = l ++ [x] ∧
      splitOutside ';' .outside x = m ++ [n] ∧ outside.scan x = outside.scan n := by
  cases h with
  | start => exact ⟨[], n, [], uncut_of_not_mem _ hc, uncut_of_not_mem _ hs, rfl⟩
  | @delimiter q d hd hq =>
    rw [List.append_assoc, List.singleton_append]
    rcases hd with rfl | rfl
    · refine ⟨splitOutside ',' .outside q, n, [], ?_, uncut_of_not_mem _ hs, rfl⟩
      rw [splitOutside_append_cons isDelimiter_comma.ne_quote hq, uncut_of_not_mem _ hc]
    · obtain ⟨l, x, hl⟩ := exists_last_piece ',' .outside q
      have hx : outside.scan x = .outside := by
        rw [scan_last_piece isDelimiter_comma.ne_quote hl, hq]
      refine ⟨l, x ++ ';' :: n, splitOutside ';' .outside x, ?_, ?_, ?_⟩
      · apply Uncut.splitOutside_append isDelimiter_comma.ne_quote hl
        exact uncut_of_not_mem _ (by simp [hc])
      · rw [splitOutside_append_cons isDelimiter_semicolon.ne_quote hx, uncut_of_not_mem _ hs]
      · rw [scan_append, hx]
        rfl

theorem AfterPart.first_piece (h : AfterPart .forwarded Q) (hb : Blank c) :
    ∃ y r s, splitOutside ',' .outside (c ++ Q) = y :: r ∧
      splitOutside ';' .outside y = c :: s := by
  have hq : outside.scan c = .outside := scan_outside (quote_not_mem_of_blank hb)
  have uncut : ∀ {d}, IsDelimiter d → splitOutside d .outside c = [c] := fun hd =>
    uncut_of_not_mem _ (hb.not_mem hd.not_whitespace)
  cases h with
  | stop =>
    rw [List.append_nil]
    exact ⟨c, [], [], uncut isDelimiter_comma, uncut isDelimiter_semicolon⟩
  | @delimiter q d hd =>
    rcases hd with rfl | rfl
    · refine ⟨c, splitOutside ',' .outside q, [], ?_, uncut isDelimiter_semicolon⟩
      rw [splitOutside_append_cons isDelimiter_comma.ne_quote hq, uncut isDelimiter_comma]
      rfl
    · obtain ⟨y, r, hy⟩ := List.exists_cons_of_ne_nil (splitOutside_ne_nil ',' .outside q)
      refine ⟨c ++ ';' :: y, r, splitOutside ';' .outside y, ?_, ?_⟩
      · have hsemi : splitOutside ',' .outside (';' :: q) = (';' :: y) :: r := by
          rw [splitOutside, if_neg (by decide), show outside.step ';' = .outside from rfl, hy]
          rfl
        exact splitOutside_append isDelimiter_comma.ne_quote (l := []) (uncut isDelimiter_comma)
          (by rwa [hq])
      · rw [splitOutside_append_cons isDelimiter_semicolon.ne_quote hq,
          uncut isDelimiter_semicolon]
        rfl

theorem WrittenAs.uncut (hw : WrittenAs t v) (h : HopText t x) (hd : d ≠ '"') (hc : ¬ HopChar d) :
    Uncut d .outside v := by
  rcases hw with rfl | rfl
  · exact uncut_of_not_mem _ (h.not_mem hc)
  · exact uncut_quote hd _ _

theorem WrittenAs.scan (hw : WrittenAs t v) (h : HopText t x) : outside.scan v = .outside := by
  rcases hw with rfl | rfl
  · exact scan_outside h.quote_not_mem
  · exact scan_quote _ _

theorem WrittenAs.trimmed (hw : WrittenAs t v) (h : HopText t x) : Trimmed v := by
  rcases hw with rfl | rfl
  · exact h.trimmed
  · exact trimmed_quote _ _

theorem WrittenAs.ne_nil (hw : WrittenAs t v) (h : HopText t x) : v ≠ [] := by
  rcases hw with rfl | rfl
  · exact h.ne_nil
  · exact List.cons_ne_nil _ _

theorem trim_param (hv : Trimmed v) (hne : v ≠ []) (hc : Blank c) (n b : Text) :
    trim (n ++ '=' :: b ++ (v ++ c)) = n.dropWhile isWhitespace ++ '=' :: (b ++ v) := by
  obtain ⟨s, hs, hn⟩ := dropWhile_decomp n
  have ht : Trimmed (n.dropWhile isWhitespace ++ '=' :: (b ++ v)) := by
    constructor
    · intro a ha
      have hhead := List.head?_dropWhile_not isWhitespace n
      cases hd : n.dropWhile isWhitespace with
      | nil =>
        obtain rfl : '=' = a := by simpa [hd] using ha
        decide
      | cons e r =>
        obtain rfl : e = a := by simpa [hd] using ha
        simpa [hd] using hhead
    · intro a ha
      apply hv.last a
      rw [← List.cons_append, ← List.append_assoc, List.getLast?_append_of_ne_nil _ hne] at ha
      exact ha
  rw [← ht.trim_around hs hc]
  conv_lhs => rw [hn]
  simp

/-- Exchanging a value for another form of it exchanges one item. -/
theorem RespelledItems.of_value (hP : BeforePart .forwarded P) (hQ : AfterPart .forwarded Q)
    (hn : '=' ∉ n) (hcomma : ',' ∉ n) (hsemi : ';' ∉ n) (hquote : '"' ∉ n) (hb : Blank b)
    (hc : Blank c) (h : RespelledFor t t') (hv : WrittenAs t v) (hv' : WrittenAs t' v') :
    RespelledItems .forwarded (P ++ (n ++ '=' :: b) ++ (v ++ (c ++ Q)))
      (P ++ (n ++ '=' :: b) ++ (v' ++ (c ++ Q))) := by
  have front : ∀ {d}, IsDelimiter d → d ∉ n → d ∉ n ++ '=' :: b := by
    intro d hd hm
    simp [hm, hd.ne_eq, hb.not_mem hd.not_whitespace]
  have hscan : outside.scan (n ++ '=' :: b) = .outside := by
    apply scan_outside
    simp [hquote, quote_not_mem_of_blank hb]
  obtain ⟨l, x, m, hl, hm, hx⟩ := hP.last_piece (front isDelimiter_comma hcomma)
    (front isDelimiter_semicolon hsemi)
  obtain ⟨y, r, s, hr, hs⟩ := hQ.first_piece hc
  have hPn : outside.scan (P ++ (n ++ '=' :: b)) = .outside := by
    rw [scan_append, hP.scan, hscan]
  have elements : ∀ {t v : Text} {z : IpAddr}, WrittenAs t v → HopText t z →
      (SplitQuoted.new (P ++ (n ++ '=' :: b) ++ (v ++ (c ++ Q))) ',').items =
        l.map trim ++ trim (x ++ (v ++ y)) :: r.map trim := by
    intro t v z hw ht
    have hd := isDelimiter_comma.ne_quote
    rw [SplitQuoted.items_new hd,
      splitOutside_insert hd hl hPn hr (hw.uncut ht hd (by decide)) (hw.scan ht)]
    simp
  have params : ∀ {t v : Text} {z : IpAddr}, WrittenAs t v → HopText t z →
      (SplitQuoted.new (trim (x ++ (v ++ y))) ';').items =
        m.map trim ++ (n.dropWhile isWhitespace ++ '=' :: (b ++ v)) :: s.map trim := by
    intro t v z hw ht
    have hd := isDelimiter_semicolon.ne_quote
    rw [SplitQuoted.items_new_trim hd isDelimiter_semicolon.not_whitespace,
      splitOutside_insert hd hm (hx.trans hscan) hs (hw.uncut ht hd (by decide)) (hw.scan ht),
      List.map_append, List.map_cons, trim_param (hw.trimmed ht) (hw.ne_nil ht) hc]
  have value : ∀ {t v : Text} {z : IpAddr}, WrittenAs t v → HopText t z →
      WrittenAs t (trim (b ++ v)) := by
    intro t v z hw ht
    rwa [trim_append_left hb, (hw.trimmed ht).trim]
  have hname : '=' ∉ n.dropWhile isWhitespace := fun hm => hn (List.dropWhile_subset _ hm)
  obtain ⟨a, ht, ht'⟩ := h.hopText
  exact .forwarded (elements hv ht) (elements hv' ht') (params hv ht) (params hv' ht') hname h
    (value hv ht) (value hv' ht')

theorem RespelledLine.items {kind : ChainHeaderKind} (h : RespelledLine kind raw raw') :
    RespelledItems kind raw raw' := by
  cases h with
  | list hP hQ hh =>
    obtain ⟨a, ht, ht'⟩ := hh.hopText
    have not_mem : ∀ {p z}, HopText (trim p) z → ',' ∉ p := fun h hm =>
      h.comma_not_mem (mem_trim hm isDelimiter_comma.not_whitespace)
    obtain ⟨l, r, hlr⟩ := exists_splitOn_around hP hQ
    exact .list (hlr _ (not_mem ht)) (hlr _ (not_mem ht')) hh
  | forwarded hP hQ hn hcomma hsemi hquote hb hc hh hv hv' =>
    exact .of_value hP hQ hn hcomma hsemi hquote hb hc hh hv hv'

theorem RespelledLine.hopsOf_eq {kind : ChainHeaderKind} (h : RespelledLine kind raw raw') :
    hopsOf kind raw = hopsOf kind raw' := h.items.hopsOf_eq

theorem parse_trim_eq_none (hm : d ∈ t) (hd : isWhitespace d = false) (ha : ¬ AddrChar d) :
    IpAddr.parse (trim t) = none := by
  rw [Option.eq_none_iff_forall_ne_some]
  exact fun x hx => not_mem_of_parse hx ha (mem_trim hm hd)

theorem RespelledLine.parse_eq {kind : ChainHeaderKind} (h : RespelledLine kind raw raw') :
    (IpAddr.parse (trim raw)).map canonicalIp = (IpAddr.parse (trim raw')).map canonicalIp := by
  cases h with
  | @list P Q p p' hP hQ hh =>
    have outer : P = [] ∧ Q = [] ∨ ',' ∈ P ∨ ',' ∈ Q := by
      cases hP with
      | comma => exact Or.inr (Or.inl (by simp))
      | start =>
        cases hQ with
        | comma => exact Or.inr (Or.inr List.mem_cons_self)
        | stop => exact Or.inl ⟨rfl, rfl⟩
    rcases outer with ⟨rfl, rfl⟩ | hm
    · simpa using hh.parse_eq
    · have unusable : ∀ q, IpAddr.parse (trim (P ++ (q ++ Q))) = none := by
        intro q
        have hm' : ',' ∈ P ++ (q ++ Q) := by
          simp only [List.mem_append]
          exact hm.imp_right Or.inr
        exact parse_trim_eq_none hm' (by decide) (by decide)
      rw [unusable, unusable]
  | @forwarded P Q n b c t t' v v' =>
    have unusable : ∀ q, IpAddr.parse (trim (P ++ (n ++ '=' :: b) ++ q)) = none := by
      intro q
      have hm : '=' ∈ P ++ (n ++ '=' :: b) ++ q := by simp
      exact parse_trim_eq_none hm (by decide) (by decide)
    rw [unusable, unusable]

end Replaced

end ClientAddr
