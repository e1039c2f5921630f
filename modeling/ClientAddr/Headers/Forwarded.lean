import ClientAddr.Headers.Unquote

/-! # Writing and reading a Forwarded header

An element is a list of parameters, and a line is a list of slots, each an
element or empty. However the values are quoted, the blanks are put and the
lines are cut, the reader gets back one hop for each element.
-/

namespace ClientAddr

open QuoteState Text

def Ows (w : Text) : Prop := ∀ c ∈ w, c = ' ' ∨ c = '\t'

instance (w : Text) : Decidable (Ows w) := List.decidableBAll _ w

/-- What sets the delimiters apart from the tokens and the blanks around them. -/
structure IsDelimiter (d : Char) : Prop where
  ne_quote : d ≠ '"'
  ne_eq : d ≠ '='
  not_whitespace : isWhitespace d = false
  not_token : isTokenChar d = false

theorem isDelimiter_comma : IsDelimiter ',' := ⟨by decide, by decide, by decide, by decide⟩

theorem isDelimiter_semicolon : IsDelimiter ';' := ⟨by decide, by decide, by decide, by decide⟩

/-- How a value is written: as it is, or quoted with escapes where they are needed or flagged. -/
inductive ValueStyle | token | quoted (escapes : List Bool)

/-- A parameter, the way its value is written and the white space around it. -/
structure Param where
  name : Text
  value : Text
  style : ValueStyle
  before : Text
  after : Text
  name_token : IsToken name
  value_token : style = .token → IsToken value
  value_readable : value.all isReadableChar = true
  ows : Ows before ∧ Ows after

structure Element where
  params : List Param
  nonempty : params ≠ []

/-- A place between two commas of a line. -/
inductive Slot | empty (ows : Text) (h : Ows ows) | element (e : Element)

namespace Param

def written (p : Param) : Text :=
  match p.style with
  | .token => p.value
  | .quoted escapes => quote escapes p.value

def render (p : Param) : Text := p.before ++ (p.name ++ '=' :: p.written) ++ p.after

end Param

def Element.render (e : Element) : Text := [';'].intercalate (e.params.map Param.render)

/-- The hop of an element: the value of its first parameter named `for`, in any case. -/
def Element.hop (e : Element) : ChainEntry :=
  match e.params.find? fun p => eqIgnoreAsciiCase p.name "for".toList with
  | some p => chainEntry p.value
  | none => .Opaque

namespace Slot

def render : Slot → Text
  | empty ows _ => ows
  | element e => e.render

def element? : Slot → Option Element
  | empty _ _ => none
  | element e => some e

end Slot

def renderLine (slots : List Slot) : Text := [','].intercalate (slots.map Slot.render)

variable {p : Param} {e : Element} {slots : List Slot} {t w : Text} {d : Char}

theorem Ows.blank (h : Ows w) : Blank w := by
  intro c hc
  rcases h c hc with rfl | rfl <;> decide

section Param

theorem Param.written_trimmed (p : Param) : Trimmed (p.name ++ '=' :: p.written) := by
  constructor
  · intro c hc
    obtain ⟨a, n, hn⟩ := List.exists_cons_of_ne_nil p.name_token.1
    have ha := p.name_token.isWhitespace a (hn ▸ List.mem_cons_self)
    rw [hn, List.cons_append] at hc
    obtain rfl : a = c := by simpa using hc
    exact ha
  · intro c hc
    have hw : ∀ c ∈ p.written.getLast?, isWhitespace c = false := by
      unfold written
      cases hs : p.style with
      | token =>
        intro c hc
        exact (p.value_token hs).isWhitespace c (List.mem_of_mem_getLast? hc)
      | quoted escapes => exact (trimmed_quote escapes p.value).last
    rw [List.getLast?_append, List.getLast?_cons] at hc
    cases hl : p.written.getLast? with
    | none =>
      obtain rfl : '=' = c := by simpa [hl] using hc
      decide
    | some a =>
      obtain rfl : a = c := by simpa [hl] using hc
      exact hw a hl

theorem Param.trim_render (p : Param) : trim p.render = p.name ++ '=' :: p.written :=
  p.written_trimmed.trim_around p.ows.1.blank p.ows.2.blank

theorem Param.uncut_render (hd : IsDelimiter d) (p : Param) :
    Uncut d .outside p.render ∧ outside.scan p.render = .outside := by
  have ows : ∀ {w}, Ows w → Uncut d .outside w ∧ outside.scan w = .outside := fun h =>
    ⟨uncut_of_not_mem _ (h.blank.not_mem hd.not_whitespace),
      scan_outside (quote_not_mem_of_blank h.blank)⟩
  have token : ∀ {t}, IsToken t → Uncut d .outside t ∧ outside.scan t = .outside := fun h =>
    ⟨uncut_of_not_mem _ (h.not_mem hd.not_token), scan_outside (h.not_mem (by decide))⟩
  have eq : Uncut d .outside ['='] ∧ outside.scan ['='] = .outside :=
    ⟨uncut_of_not_mem _ (by simpa using hd.ne_eq), rfl⟩
  have written : Uncut d .outside p.written ∧ outside.scan p.written = .outside := by
    unfold Param.written
    cases hs : p.style with
    | token => exact token (p.value_token hs)
    | quoted escapes => exact ⟨uncut_quote hd.ne_quote _ _, scan_quote _ _⟩
  have append : ∀ {s t : Text}, Uncut d .outside s ∧ outside.scan s = .outside →
      Uncut d .outside t ∧ outside.scan t = .outside →
      Uncut d .outside (s ++ t) ∧ outside.scan (s ++ t) = .outside := by
    rintro s t ⟨hu, hs⟩ ⟨hu', hs'⟩
    have hb : Uncut d (outside.scan s) t := by rwa [hs]
    rw [scan_append, hs]
    exact ⟨hu.append hd.ne_quote hb, hs'⟩
  have inner := append (token p.name_token) (append eq written)
  exact append (append (ows p.ows.1) inner) (ows p.ows.2)

/-- The value is read back, up to blanks that the hop reader trims. -/
theorem Param.chainEntry_unquote (p : Param) :
    chainEntry (unquoteHttpQuotedString (trim p.written)) = chainEntry p.value := by
  unfold written
  cases hs : p.style with
  | token =>
    have hq : '"' ∉ trim p.value := fun hm =>
      (p.value_token hs).not_mem (by decide) (mem_of_mem_trim hm)
    simp only [unquote_bare hq, trim_trim, chainEntry_trim]
  | quoted escapes => simp only [(trimmed_quote escapes p.value).trim, unquote_quote]

theorem Param.trim_name (p : Param) : trim p.name = p.name :=
  (trimmed_of_not_white p.name_token.isWhitespace).trim

end Param

section Element

theorem forwardedPairsEntry_render (ps : List Param) :
    forwardedPairsEntry ((ps.map Param.render).map trim) =
      match ps.find? fun p => eqIgnoreAsciiCase p.name "for".toList with
      | some p => chainEntry p.value
      | none => .Opaque := by
  induction ps with
  | nil => rfl
  | cons p ps ih =>
    have hsplit : splitOnce '=' (trim p.render) = some (p.name, p.written) := by
      rw [p.trim_render]
      exact splitOnce_append (p.name_token.not_mem (by decide))
    simp only [List.map_cons, forwardedPairsEntry, hsplit, p.trim_name, p.chainEntry_unquote, ih]
    by_cases hf : eqIgnoreAsciiCase p.name "for".toList = true
    · simp only [hf, if_true, List.find?_cons_of_pos]
    · simp only [hf, List.find?_cons_of_neg, not_false_eq_true, if_false, Bool.false_eq_true]

theorem Element.uncut_render (e : Element) :
    Uncut ',' .outside e.render ∧ outside.scan e.render = .outside := by
  apply uncut_intercalate isDelimiter_comma.ne_quote isDelimiter_semicolon.ne_quote (by decide)
  intro t ht
  obtain ⟨p, -, rfl⟩ := List.mem_map.mp ht
  exact p.uncut_render isDelimiter_comma

theorem Element.splitOutside_render (e : Element) :
    splitOutside ';' .outside e.render = e.params.map Param.render := by
  have hu : ∀ t ∈ e.params.map Param.render,
      Uncut ';' .outside t ∧ outside.scan t = .outside := by
    intro t ht
    obtain ⟨p, -, rfl⟩ := List.mem_map.mp ht
    exact p.uncut_render isDelimiter_semicolon
  apply splitOutside_intercalate isDelimiter_semicolon.ne_quote
  · simpa using e.nonempty
  · exact fun t ht => (hu t ht).1
  · exact fun t ht => (hu t ht).2

theorem Element.entry_render (e : Element) : forwardedElementEntry (trim e.render) = e.hop := by
  unfold forwardedElementEntry
  have hd := isDelimiter_semicolon
  rw [SplitQuoted.items_new_trim hd.ne_quote hd.not_whitespace, e.splitOutside_render]
  exact forwardedPairsEntry_render e.params

theorem Element.trim_render_ne_nil (e : Element) : trim e.render ≠ [] := by
  obtain ⟨p, ps, hp⟩ := List.exists_cons_of_ne_nil e.nonempty
  have hm : '=' ∈ e.render := by
    unfold render
    rw [hp]
    have hr : '=' ∈ p.render := by simp [Param.render]
    cases ps with
    | nil => simpa using hr
    | cons q ps => simp [List.intercalate_cons_cons, hr]
  exact List.ne_nil_of_mem (mem_trim hm (by decide))

end Element

section Line

theorem Slot.uncut_render (s : Slot) :
    Uncut ',' .outside s.render ∧ outside.scan s.render = .outside := by
  cases s with
  | empty w h =>
    have hc : ',' ∉ w := h.blank.not_mem isDelimiter_comma.not_whitespace
    exact ⟨uncut_of_not_mem _ hc, scan_outside (quote_not_mem_of_blank h.blank)⟩
  | element e => exact e.uncut_render

theorem entries_render (slots : List Slot) :
    (((slots.map Slot.render).map trim).filter (· ≠ [])).map forwardedElementEntry =
      (slots.filterMap Slot.element?).map Element.hop := by
  induction slots with
  | nil => rfl
  | cons s slots ih =>
    cases s with
    | empty w h =>
      have hn : (Slot.empty w h).element? = none := rfl
      rw [List.filterMap_cons_none hn, ← ih]
      simp [Slot.render, trim_of_blank h.blank]
    | element e =>
      have hs : (Slot.element e).element? = some e := rfl
      rw [List.filterMap_cons_some hs, List.map_cons (f := Element.hop), ← ih]
      simp [Slot.render, e.trim_render_ne_nil, e.entry_render]

theorem forwardedHops_renderLine (slots : List Slot) :
    forwardedHops (renderLine slots) = (slots.filterMap Slot.element?).map Element.hop := by
  cases slots with
  | nil => rfl
  | cons s slots =>
    have hu : ∀ t ∈ (s :: slots).map Slot.render,
        Uncut ',' .outside t ∧ outside.scan t = .outside := by
      intro t ht
      obtain ⟨r, -, rfl⟩ := List.mem_map.mp ht
      exact r.uncut_render
    have hsplit : splitOutside ',' .outside (renderLine (s :: slots)) =
        (s :: slots).map Slot.render :=
      splitOutside_intercalate isDelimiter_comma.ne_quote (by simp) (fun t ht => (hu t ht).1)
        fun t ht => (hu t ht).2
    unfold forwardedHops
    rw [hsplit]
    exact entries_render (s :: slots)

end Line

section Readable

theorem IsToken.readable (h : IsToken t) : t.all isReadableChar = true :=
  readable_of_printable fun c hc => toNat_of_isTokenChar (List.all_eq_true.mp h.2 c hc)

theorem Ows.readable (h : Ows w) : w.all isReadableChar = true := by
  rw [List.all_eq_true]
  intro c hc
  rcases h c hc with rfl | rfl <;> decide

theorem Param.readable (p : Param) : p.render.all isReadableChar = true := by
  have hw : p.written.all isReadableChar = true := by
    unfold written
    cases p.style with
    | token => exact p.value_readable
    | quoted escapes =>
      have hb : ∀ c ∈ quoteBody escapes p.value, isReadableChar c = true := by
        intro c hc
        rcases mem_quoteBody hc with rfl | hc
        · decide
        · exact List.all_eq_true.mp p.value_readable c hc
      have hq : isReadableChar '"' = true := by decide
      simpa [quote, hq] using hb
  have he : isReadableChar '=' = true := by decide
  simp only [render, List.all_append, List.all_cons, p.ows.1.readable, p.name_token.readable, he,
    hw, p.ows.2.readable, Bool.and_self]

theorem Slot.readable (s : Slot) : s.render.all isReadableChar = true := by
  cases s with
  | empty w h => exact h.readable
  | element e =>
    apply readable_intercalate (by decide)
    intro t ht
    obtain ⟨p, -, rfl⟩ := List.mem_map.mp ht
    exact p.readable

theorem readable_renderLine (slots : List Slot) : (renderLine slots).all isReadableChar = true := by
  apply readable_intercalate (by decide)
  intro t ht
  obtain ⟨s, -, rfl⟩ := List.mem_map.mp ht
  exact s.readable

def encodeLine (slots : List Slot) : HeaderValue :=
  .ofReadable (renderLine slots) (readable_renderLine slots)

theorem readLines_encode (lines : List (List Slot)) :
    readLines (lines.map encodeLine) = some (lines.map renderLine) := by
  induction lines with
  | nil => rfl
  | cons slots lines ih =>
    have hv : (encodeLine slots).toStr = some (renderLine slots) :=
      HeaderValue.toStr_ofReadable _ _
    simp only [List.map_cons, readLines_cons, hv, ih, Option.bind_some, Option.map_some]

/-- Reading what was written gives one hop for each element, in order. -/
theorem forwardedEntries_encode (lines : List (List Slot)) :
    forwardedEntries (lines.map encodeLine) =
      some ((lines.flatten.filterMap Slot.element?).map Element.hop) := by
  have hflat : (lines.map renderLine).flatMap forwardedHops =
      (lines.flatten.filterMap Slot.element?).map Element.hop := by
    induction lines with
    | nil => rfl
    | cons slots lines ih =>
      simp only [List.map_cons, List.flatMap_cons, ih, forwardedHops_renderLine, List.flatten_cons,
        List.filterMap_append, List.map_append]
  rw [forwardedEntries_eq, readLines_encode, Option.map_some, hflat]

example : forwardedHops "by=x;For=\"[::ffff:192.0.2.60]:80\" ; proto=http, , host=\"a,b\"".toList =
    [.Ip (.v4 (Ipv4Addr.new 192 0 2 60)), .Opaque] := by
  decide +kernel

end Readable

end ClientAddr
