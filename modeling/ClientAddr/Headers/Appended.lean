import ClientAddr.Headers.Forwarded
import ClientAddr.Headers.Hop

/-! # An element appended to a client's text

A proxy appends its element to whatever the client sent on the same line. When
the client leaves a quoted string open, the appended element disappears in it and
the last hop is what the client wrote in front of that string.
-/

namespace ClientAddr

open Net QuoteState Text

/-- How a proxy writes an address: an IPv6 address in brackets and quotes. -/
inductive ForText : IpAddr → Text → Prop
  | v4 {u : Text} {a : Ipv4Addr} : IpAddr.parse u = some (.v4 a) → ForText (.v4 a) u
  | v6 {u : Text} {a : Ipv6Addr} : IpAddr.parse u = some (.v6 a) →
    ForText (.v6 a) (quote [] ('[' :: (u ++ [']'])))

def appendFor (v w : Text) : Text := v ++ ", for=".toList ++ w

/-- The last hop of a text whose last element is read without its last parameter. -/
def openHop (v : Text) : ChainEntry :=
  forwardedPairsEntry
    (SplitQuoted.new ((SplitQuoted.new v ',').items.getLast?.getD []) ';').items.dropLast

/-- The quote scan of the text ends outside quoted strings. -/
def QuotesClosed (v : Text) : Prop := outside.scan v = .outside

instance (v : Text) : Decidable (QuotesClosed v) := inferInstanceAs (Decidable (_ = _))

variable {v w u : Text} {x : IpAddr} {c d : Char}

section Closed

theorem isTokenChar_of_ipv4Char (h : Ipv4Char c) : isTokenChar c = true := by
  rcases h with h | rfl
  · have hd := isDigit_ten h
    simp [isTokenChar, Char.isAlphanum, hd]
  · decide

theorem ipv4Char_of_parse {a : Ipv4Addr} (h : IpAddr.parse u = some (.v4 a)) :
    ∀ c ∈ u, Ipv4Char c := by
  obtain ⟨t, ht, hc⟩ := consumes_readIpv4Addr _ _ _ (IpAddr.parse_eq_some_v4.mp h)
  rw [List.append_nil] at ht
  exact ht ▸ hc

theorem ForText.exists_param (h : ForText x w) :
    ∃ p : Param, p.name = "for".toList ∧ p.before = [' '] ∧ p.after = [] ∧ p.written = w ∧
      HopText p.value x := by
  have readable : ∀ {t}, HopText t x → t.all isReadableChar = true := fun ht =>
    readable_of_printable fun c hc => toNat_of_hopChar (ht.hopChar c hc)
  have hname : IsToken "for".toList := by decide +kernel
  have hspace : Ows [' '] := by decide
  cases h with
  | v4 hu =>
    have htoken : IsToken w := ⟨ne_nil_of_parse hu, List.all_eq_true.mpr fun c hc =>
      isTokenChar_of_ipv4Char (ipv4Char_of_parse hu c hc)⟩
    exact ⟨⟨"for".toList, w, .token, [' '], [], hname, fun _ => htoken, readable (.plain hu),
      hspace, nofun⟩, rfl, rfl, rfl, rfl, .plain hu⟩
  | @v6 u a hu =>
    exact ⟨⟨"for".toList, '[' :: (u ++ [']']), .quoted [], [' '], [], hname, nofun,
      readable (.bracketed hu), hspace, nofun⟩, rfl, rfl, rfl, rfl, .bracketed hu⟩

theorem forwardedHops_for (h : ForText x w) :
    forwardedHops (" for=".toList ++ w) = [.Ip (canonicalIp x)] := by
  obtain ⟨p, hn, hb, ha, hw, hp⟩ := h.exists_param
  have hline : renderLine [.element ⟨[p], by simp⟩] = " for=".toList ++ w := by
    simp [renderLine, Slot.render, Element.render, Param.render, hn, hb, ha, hw]
  have hfor : eqIgnoreAsciiCase p.name "for".toList = true := by rw [hn]; decide
  have hhop : (Element.mk [p] (by simp)).hop = .Ip (canonicalIp x) := by
    unfold Element.hop
    rw [List.find?_cons_of_pos (p := fun p : Param => eqIgnoreAsciiCase p.name _) hfor]
    simp only [chainEntry, hp.parseIpLike_eq]
  rw [← hline, forwardedHops_renderLine, ← hhop]
  rfl

theorem forwardedHops_of_closed (hv : QuotesClosed v) (h : ForText x w) :
    forwardedHops (appendFor v w) = forwardedHops v ++ [.Ip (canonicalIp x)] := by
  have hline : appendFor v w = v ++ ',' :: (" for=".toList ++ w) := by simp [appendFor]
  rw [hline, forwardedHops_append hv, forwardedHops_for h]

end Closed

section Open

theorem ForText.uncut {s : QuoteState} (h : ForText x w) (hs : s ≠ .outside)
    (hd : ¬ HopChar d) (hq : d ≠ '"') : Uncut d s (", for=".toList ++ w) := by
  obtain ⟨hu, hn⟩ := uncut_of_open d hs (by decide : '"' ∉ ", for=".toList)
  apply hu.append hq
  cases h with
  | v4 hp => exact (uncut_of_open d hn (not_mem_of_parse hp (by decide))).1
  | @v6 u a hp =>
    have hopen : s.scan ", for=".toList = .inside := by
      cases s with
      | outside => exact absurd rfl hs
      | inside => rfl
      | escaped => rfl
    have ht : HopText ('[' :: (u ++ [']'])) (.v6 a) := .bracketed hp
    have hmark : Uncut d .outside ['"'] := uncut_of_not_mem _ (by simpa using hq)
    rw [hopen, quote, quoteBody_nil ht.quote_not_mem (ht.not_mem (by decide))]
    -- the first quote of the appended value closes the client's string
    apply Uncut.append hq (uncut_of_not_mem _ (by simpa using hq) : Uncut d .inside ['"'])
    apply Uncut.append hq (uncut_of_not_mem _ (ht.not_mem hd))
    rw [show QuoteState.inside.scan ['"'] = .outside from rfl,
      scan_outside ht.quote_not_mem]
    exact hmark

def earlierHops (v : Text) : List ChainEntry :=
  ((SplitQuoted.new v ',').items.dropLast.filter (· ≠ [])).map forwardedElementEntry

theorem forwardedPairsEntry_append {z : Text} (l : List Text)
    (hz : forwardedPairsEntry [z] = .Opaque) :
    forwardedPairsEntry (l ++ [z]) = forwardedPairsEntry l := by
  induction l with
  | nil => exact hz
  | cons p l ih => simp only [List.cons_append, forwardedPairsEntry, ih]

theorem not_mem_of_eq_for (h : eqIgnoreAsciiCase u "for".toList = true) : ',' ∉ u := by
  intro hm
  have hmap := eqIgnoreAsciiCase_iff.mp h
  have hc : ',' ∈ u.map Char.toLower := List.mem_map.mpr ⟨',', hm, by decide⟩
  rw [hmap] at hc
  revert hc
  decide

theorem forwardedPairsEntry_of_comma (h : ',' ∈ u) : forwardedPairsEntry [u] = .Opaque := by
  unfold forwardedPairsEntry
  cases hs : splitOnce '=' u with
  | none => rfl
  | some q =>
    obtain ⟨name, value⟩ := q
    obtain ⟨-, rfl⟩ := splitOnce_eq_some hs
    simp only
    split_ifs with hf
    · have hname : ',' ∉ name := fun hm => not_mem_of_eq_for hf (mem_trim hm (by decide))
      have hvalue : ',' ∈ value := by simpa [hname] using h
      have hm := mem_unquote (mem_trim hvalue (by decide)) (by decide) (by decide) (by decide)
      exact chainEntry_of_comma hm
    · rfl

/-- Behind an open quote the appended element is swallowed by the client's last parameter. -/
theorem forwardedHops_of_open (hv : ¬ QuotesClosed v) (h : ForText x w) :
    forwardedHops (appendFor v w) = earlierHops v ++ [openHop v] := by
  have hcomma : ',' ≠ '"' := isDelimiter_comma.ne_quote
  have hsemi : ';' ≠ '"' := isDelimiter_semicolon.ne_quote
  obtain ⟨l, y, hl⟩ := exists_last_piece ',' .outside v
  obtain ⟨m, z, hm⟩ := exists_last_piece ';' .outside y
  have hy : outside.scan y ≠ .outside := by rwa [scan_last_piece hcomma hl]
  have hline : splitOutside ',' .outside (appendFor v w) = l ++ [y ++ (", for=".toList ++ w)] := by
    rw [appendFor, List.append_assoc]
    exact Uncut.splitOutside_append hcomma hl (h.uncut hv (by decide) hcomma)
  have helement : splitOutside ';' .outside (y ++ (", for=".toList ++ w)) =
      m ++ [z ++ (", for=".toList ++ w)] :=
    Uncut.splitOutside_append hsemi hm (h.uncut hy (by decide) hsemi)
  have hmem : ∀ t : Text, ',' ∈ trim (t ++ (", for=".toList ++ w)) := fun t =>
    mem_trim (by simp) isDelimiter_comma.not_whitespace
  have hentry : forwardedElementEntry (trim (y ++ (", for=".toList ++ w))) = openHop v := by
    have hopen : openHop v = forwardedPairsEntry (m.map trim) := by
      unfold openHop
      rw [SplitQuoted.items_new hcomma, hl, List.map_append, List.map_singleton,
        List.getLast?_concat, Option.getD_some,
        SplitQuoted.items_new_trim hsemi isDelimiter_semicolon.not_whitespace, hm, List.map_append,
        List.map_singleton, List.dropLast_concat]
    rw [hopen, forwardedElementEntry,
      SplitQuoted.items_new_trim hsemi isDelimiter_semicolon.not_whitespace, helement,
      List.map_append, List.map_singleton]
    exact forwardedPairsEntry_append _ (forwardedPairsEntry_of_comma (hmem z))
  have hearlier : earlierHops v = ((l.map trim).filter (· ≠ [])).map forwardedElementEntry := by
    unfold earlierHops
    rw [SplitQuoted.items_new hcomma, hl, List.map_append, List.map_singleton,
      List.dropLast_concat]
  have hne : trim (y ++ (", for=".toList ++ w)) ≠ [] := List.ne_nil_of_mem (hmem y)
  unfold forwardedHops
  rw [hline, hearlier, ← hentry, List.map_append, List.map_singleton]
  generalize trim (y ++ (", for=".toList ++ w)) = e at hne
  simp [hne]

end Open

end ClientAddr
