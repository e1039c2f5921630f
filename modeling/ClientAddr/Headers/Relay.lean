import ClientAddr.Headers.Appended

/-! # Hops that proxies add to either chain header

A proxy adds one hop behind a comma or as a new line. In a `Forwarded` header the
hop is an element, and it takes a place of its own on a line only when that line
has closed its quotes.
-/

namespace ClientAddr

open QuoteState Text

/-- A text that takes one place in a chain header of the kind. -/
def IsHop : ChainHeaderKind → Text → Prop
  | .xForwardedFor, t => ¬ Blank t ∧ ',' ∉ t
  | .forwarded, t => ¬ Blank t ∧ Uncut ',' .outside t ∧ QuotesClosed t

instance (kind : ChainHeaderKind) (t : Text) : Decidable (IsHop kind t) :=
  match kind with
  | .xForwardedFor => inferInstanceAs (Decidable (¬ Blank t ∧ ',' ∉ t))
  | .forwarded => inferInstanceAs
    (Decidable (¬ Blank t ∧ splitOutside ',' .outside t = [t] ∧ QuotesClosed t))

def entryOf : ChainHeaderKind → Text → ChainEntry
  | .xForwardedFor, t => chainEntry t
  | .forwarded, t => forwardedElementEntry (trim t)

/-- A hop goes on a `Forwarded` line only where that line has closed its quotes. -/
def Fits (kind : ChainHeaderKind) (lines : List Text) (sameLine : Bool) : Prop :=
  kind = .forwarded → sameLine = true → ∀ line ∈ lines.getLast?, QuotesClosed line

instance (kind : ChainHeaderKind) (lines : List Text) (sameLine : Bool) :
    Decidable (Fits kind lines sameLine) :=
  inferInstanceAs
    (Decidable (kind = .forwarded → sameLine = true → ∀ line ∈ lines.getLast?, QuotesClosed line))

/-- The text is one hop, and the node that it names is written as `u`. -/
inductive HopOf : ChainHeaderKind → Text → Text → Prop
  | list (t : Text) : HopOf .xForwardedFor t (trim t)
  | forwarded (e : Element) (p : Param) :
    e.params.find? (fun p => eqIgnoreAsciiCase p.name "for".toList) = some p →
    HopOf .forwarded e.render (trim p.value)

variable {kind : ChainHeaderKind} {lines : List Text} {hop : AddedHop} {hops : List AddedHop}
  {t u : Text} {x : IpAddr}

theorem hopsOf_of_isHop (h : IsHop kind t) : hopsOf kind t = [entryOf kind t] := by
  cases kind with
  | xForwardedFor => exact listHops_hop h.2 h.1
  | forwarded =>
    obtain ⟨hb, hu, -⟩ := h
    have ht : trim t ≠ [] := fun he => hb (trim_eq_nil_iff.mp he)
    have hs : splitOutside ',' .outside t = [t] := hu
    simp [hopsOf, forwardedHops, hs, ht, entryOf]

theorem fits_newLine (kind : ChainHeaderKind) (lines : List Text) : Fits kind lines false :=
  fun _ h => absurd h (by decide)

theorem flatMap_hopsOf_appendHop (hf : Fits kind lines hop.sameLine) :
    (appendHop lines hop).flatMap (hopsOf kind) =
      lines.flatMap (hopsOf kind) ++ hopsOf kind hop.text := by
  cases kind with
  | xForwardedFor => exact flatMap_appendHop lines hop
  | forwarded =>
    unfold appendHop
    cases hl : lines.getLast? with
    | none => simp [List.getLast?_eq_none_iff.mp hl]
    | some line =>
      obtain ⟨init, rfl⟩ := List.getLast?_eq_some_iff.mp hl
      by_cases hs : hop.sameLine = true
      · have hc : QuotesClosed line := hf rfl hs line hl
        simp [hs, hopsOf, forwardedHops_append hc]
      · simp [hs]

theorem closed_appendHop (hf : Fits .forwarded lines hop.sameLine) (hc : QuotesClosed hop.text) :
    ∀ line ∈ (appendHop lines hop).getLast?, QuotesClosed line := by
  intro line hm
  unfold appendHop at hm
  cases hl : lines.getLast? with
  | none =>
    rw [hl] at hm
    obtain rfl : hop.text = line := by simpa using hm
    exact hc
  | some last =>
    rw [hl] at hm
    by_cases hs : hop.sameLine = true
    · obtain rfl : last ++ ',' :: hop.text = line := by simpa [hs] using hm
      have hlast : outside.scan last = .outside := hf rfl hs last hl
      unfold QuotesClosed
      rw [scan_append, hlast]
      exact hc
    · obtain rfl : hop.text = line := by simpa [hs] using hm
      exact hc

theorem fits_of_closed (h : kind = .forwarded → ∀ line ∈ lines.getLast?, QuotesClosed line)
    (sameLine : Bool) : Fits kind lines sameLine := fun hk _ => h hk

theorem IsHop.closed (h : IsHop .forwarded t) : QuotesClosed t := h.2.2

/-- Every added hop takes one place at the right end, whatever stands on the lines. -/
theorem flatMap_hopsOf_appendHops (hh : ∀ hop ∈ hops, IsHop kind hop.text)
    (hf : ∀ hop ∈ hops.head?, Fits kind lines hop.sameLine) :
    (appendHops lines hops).flatMap (hopsOf kind) =
      lines.flatMap (hopsOf kind) ++ hops.map fun hop => entryOf kind hop.text := by
  induction hops generalizing lines with
  | nil => simp [appendHops]
  | cons hop hops ih =>
    have hhop := hh hop List.mem_cons_self
    have hfit := hf hop rfl
    have hclosed : kind = .forwarded → ∀ line ∈ (appendHop lines hop).getLast?,
        QuotesClosed line := by
      rintro rfl
      exact closed_appendHop hfit hhop.closed
    have hfits : ∀ g ∈ hops.head?, Fits kind (appendHop lines hop) g.sameLine := fun g _ =>
      fits_of_closed hclosed g.sameLine
    have ih' := ih (fun g hg => hh g (List.mem_cons_of_mem _ hg)) hfits
    rw [appendHops, List.foldl_cons]
    rw [appendHops] at ih'
    rw [ih', flatMap_hopsOf_appendHop hfit, hopsOf_of_isHop hhop]
    simp

namespace HopOf

theorem isHop (h : HopOf kind t u) (hu : HopText u x) : IsHop kind t := by
  cases h with
  | list t =>
    refine ⟨fun hb => ?_, fun hc => hu.comma_not_mem (mem_trim hc (by decide))⟩
    exact hu.ne_nil (trim_of_blank hb)
  | forwarded e p _ =>
    exact ⟨fun hb => e.trim_render_ne_nil (trim_of_blank hb), e.uncut_render.1, e.uncut_render.2⟩

theorem entryOf_eq (h : HopOf kind t u) (hu : HopText u x) :
    entryOf kind t = .Ip (canonicalIp x) := by
  have entry : ∀ v : Text, HopText (trim v) x → chainEntry v = .Ip (canonicalIp x) := fun v hv => by
    rw [chainEntry, hv.parseIpLike_eq_of_trim]
  cases h with
  | list t => exact entry t hu
  | forwarded e p hp =>
    rw [entryOf, e.entry_render, Element.hop, hp]
    exact entry p.value hu

theorem hopsOf_eq (h : HopOf kind t u) (hu : HopText u x) :
    hopsOf kind t = [.Ip (canonicalIp x)] := by
  rw [hopsOf_of_isHop (h.isHop hu), h.entryOf_eq hu]

end HopOf

end ClientAddr
