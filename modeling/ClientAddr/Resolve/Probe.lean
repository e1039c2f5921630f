import Mathlib.Data.List.Dedup
import ClientAddr.Resolve.Tiers

/-! # Requests to observe a config with

A node in brackets is a hop of one kind of chain header, names no address where it
is read as the other kind, and is not the value of a client IP header. A request that
carries such values under some names shows which chain header is read and how.
-/

namespace ClientAddr

open Text

variable {x : IpAddr} {kind : ChainHeaderKind} {t u : Text} {names : List HeaderName}
  {values : List HeaderValue} {lines : List Text} {order : List ChainHeader} {peer : IpAddr}
  {header : Option HeaderName} {pick : List ChainEntry → Option IpAddr}

theorem forwardedHops_of_hopText (hu : HopText u x) : hopsOf .forwarded u = [.Opaque] := by
  have absent : ∀ {c : Char}, ¬ HopChar c → c ∉ u := fun hc hm => hc (hu.hopChar _ hm)
  have hs : QuotesClosed u := QuoteState.scan_outside (absent (by decide))
  have hcut : ∀ d, d ∉ u → splitOutside d .outside u = [u] := fun d hd => uncut_of_not_mem _ hd
  have hhop : IsHop .forwarded u :=
    ⟨fun hb => hu.ne_nil (hu.trimmed.trim ▸ trim_of_blank hb), hcut ',' (absent (by decide)), hs⟩
  have hitems : (SplitQuoted.new (trim u) ';').items = [u] := by
    rw [SplitQuoted.items_new_trim (by decide) (by decide), hcut ';' (absent (by decide)),
      List.map_singleton, hu.trimmed.trim]
  rw [hopsOf_of_isHop hhop, entryOf, forwardedElementEntry, hitems, forwardedPairsEntry,
    splitOnce_eq_none (absent (by decide)), forwardedPairsEntry]

/--
A node can be written as a hop of either kind. It names no address where it is read as the other
kind says, and it is a plain address only if the node is.
-/
theorem exists_hopOf (kind : ChainHeaderKind) (hu : HopText u x) :
    ∃ t, t.all isReadableChar = true ∧ HopOf kind t u ∧
      (∀ other, other ≠ kind → hopsOf other t = [.Opaque]) ∧
      (IpAddr.parse u = none → IpAddr.parse (trim t) = none) := by
  have hr : u.all isReadableChar = true :=
    readable_of_printable fun c hc => toNat_of_hopChar (hu.hopChar c hc)
  cases kind with
  | xForwardedFor =>
    have ht := HopOf.list u
    rw [hu.trimmed.trim] at ht
    refine ⟨u, hr, ht, fun other ho => ?_, fun hn => by rwa [hu.trimmed.trim]⟩
    cases other with
    | xForwardedFor => exact absurd rfl ho
    | forwarded => exact forwardedHops_of_hopText hu
  | forwarded =>
    have ht := HopOf.forwarded ⟨[quotedFor u hr], by simp⟩ (quotedFor u hr) rfl
    have hv : (quotedFor u hr).value = u := rfl
    rw [hv, hu.trimmed.trim] at ht
    have heq : '=' ∈ (Element.mk [quotedFor u hr] (by simp)).render := by
      simp [Element.render, Param.render]
    refine ⟨(Element.mk [quotedFor u hr] (by simp)).render,
      (Slot.element ⟨[quotedFor u hr], by simp⟩).readable, ht, fun other ho => ?_, fun _ => ?_⟩
    · cases other with
      | xForwardedFor =>
        have hcomma : ',' ∉ (Element.mk [quotedFor u hr] (by simp)).render := fun hm => by
          have hm : ',' ∈ quoteBody [] u := by
            simpa [Element.render, Param.render, Param.written, quotedFor, quote] using hm
          rcases mem_quoteBody hm with hc | hc
          · cases hc
          · exact hu.comma_not_mem hc
        rw [hopsOf, listHops_hop hcomma (ht.isHop hu).1,
          chainEntry_of_mem heq (by decide) (by decide)]
      | forwarded => exact absurd rfl ho
    · rw [Option.eq_none_iff_forall_ne_some]
      exact fun y hy => not_mem_of_parse hy (by decide) (mem_trim heq (by decide))

/-- The hop that names an address as one kind only. -/
def onlyAs (kind : ChainHeaderKind) (x : IpAddr) (other : ChainHeaderKind) : ChainEntry :=
  if other = kind then .Ip x else .Opaque

theorem exists_value (kind : ChainHeaderKind) (hx : x.Canonical) :
    ∃ v : HeaderValue, ∃ t, v.toStr = some t ∧ IpAddr.parse (trim t) = none ∧
      ∀ other, hopsOf other t = [onlyAs kind x other] := by
  have hu : HopText _ x := .bracketed x.parse_display
  obtain ⟨t, hr, hhop, hother, hplain⟩ := exists_hopOf kind hu
  refine ⟨.ofReadable t hr, t, HeaderValue.toStr_ofReadable t hr,
    hplain (parse_eq_none (by decide)), fun other => ?_⟩
  unfold onlyAs
  split_ifs with hk
  · rw [hk, hhop.hopsOf_eq hu, canonicalIp, hx.toCanonical]
  · exact hother other hk

theorem readLines_replicate {v : HeaderValue} (hv : v.toStr = some t) (n : ℕ) :
    readLines (List.replicate n v) = some (List.replicate n t) := by
  induction n with
  | zero => rfl
  | succ n ih => rw [List.replicate_succ, readLines_cons, hv, ih]; rfl

theorem exists_values (kind : ChainHeaderKind) {xs : List IpAddr} (hx : ∀ x ∈ xs, x.Canonical) :
    ∃ values lines, readLines values = some lines ∧ values.length = xs.length ∧
      lines.flatMap (hopsOf kind) = xs.map .Ip ∧
      ∀ v ∈ values, ∀ t, v.toStr = some t → IpAddr.parse (trim t) = none := by
  induction xs with
  | nil => exact ⟨[], [], rfl, rfl, rfl, by simp⟩
  | cons x xs ih =>
    obtain ⟨hx, hxs⟩ := List.forall_mem_cons.mp hx
    obtain ⟨values, lines, hl, hlen, hh, hplain⟩ := ih hxs
    obtain ⟨v, t, hv, ht, hhop⟩ := exists_value kind hx
    refine ⟨v :: values, t :: lines, by rw [readLines_cons, hv, hl]; rfl, by simp [hlen], ?_, ?_⟩
    · rw [List.flatMap_cons, hhop, hh, onlyAs, if_pos rfl]
      rfl
    · rintro w hw s hs
      rcases List.mem_cons.mp hw with rfl | hw
      · obtain rfl := Option.some.inj (hv.symm.trans hs)
        exact ht
      · exact hplain w hw s hs

/-- A request that carries the same values under each of some names. -/
def carrying (names : List HeaderName) (values : List HeaderValue) : HeaderMap :=
  names.dedup.flatMap fun n => values.map fun v => (n, v)

theorem getAll_carrying (names : List HeaderName) (values : List HeaderValue) (m : HeaderName) :
    (carrying names values).getAll m = if m ∈ names then values else [] := by
  have one : ∀ n, HeaderMap.getAll (values.map fun v => (n, v)) m =
      if n = m then values else [] := by
    intro n
    unfold HeaderMap.getAll
    split_ifs with hn <;> simp [List.filterMap_map, hn]
  have all : ∀ ns : List HeaderName, ns.Nodup →
      HeaderMap.getAll (ns.flatMap fun n => values.map fun v => (n, v)) m =
        if m ∈ ns then values else [] := by
    intro ns
    induction ns with
    | nil => exact fun _ => rfl
    | cons n ns ih =>
      intro hn
      obtain ⟨hnot, hn⟩ := List.nodup_cons.mp hn
      rw [List.flatMap_cons, getAll_append, one, ih hn]
      by_cases hm : n = m
      · subst hm
        simp [hnot]
      · simp [hm, Ne.symm hm]
  rw [carrying, all _ names.nodup_dedup]
  simp only [List.mem_dedup]

theorem configuredIp_carrying (names : List HeaderName) (header : Option HeaderName)
    (hplain : ∀ v ∈ values, ∀ t, v.toStr = some t → IpAddr.parse (trim t) = none) :
    configuredIp (carrying names values) header = none := by
  cases header with
  | none => rfl
  | some m =>
    rw [configuredIp, Option.bind_some, configuredClientIpHeader_eq, getAll_carrying]
    split_ifs
    · cases hlast : values.getLast? with
      | none => rfl
      | some v =>
        rw [Option.bind_some]
        cases hv : v.toStr with
        | none => rfl
        | some t => simp [hplain v (List.mem_of_getLast? hlast) t hv]
    · rfl

theorem resolveFrom_carrying (names : List HeaderName) (hne : values ≠ [])
    (hl : readLines values = some lines)
    (hplain : ∀ v ∈ values, ∀ t, v.toStr = some t → IpAddr.parse (trim t) = none) :
    resolveFrom (carrying names values) peer header order pick =
      ((order.find? fun h => decide (h.asHeaderName ∈ names)).bind fun g =>
        (pick (lines.flatMap (hopsOf g.kind))).map fun ip =>
          (⟨ip, .chainHeader g.asHeaderName⟩ : ClientIp)).getD ⟨peer, .socket⟩ := by
  rw [resolveFrom_of_unusable (configuredIp_carrying names header hplain)]
  have hf : firstCarried (carrying names values) order =
      order.find? fun h => decide (h.asHeaderName ∈ names) := by
    unfold firstCarried
    congr 1
    funext h
    rw [getAll_carrying]
    split_ifs with hm <;> simp [hm, hne]
  cases hg : order.find? fun h => decide (h.asHeaderName ∈ names) with
  | none => rw [chainAnswer, hf, hg]; rfl
  | some g =>
    have hm : g.asHeaderName ∈ names := by simpa using List.find?_some hg
    rw [chainAnswer_of_lines (hf.trans hg) (by rw [getAll_carrying, if_pos hm, hl])]
    rfl

/-- A request can carry any chain of canonical addresses under the first chain header. -/
theorem exists_chain (h : ChainHeader) (xs : List IpAddr) (hx : ∀ x ∈ xs, x.Canonical)
    (hne : xs ≠ []) : ∃ headers, ∀ peer header order pick,
      resolveFrom headers peer header (h :: order) pick =
        ((pick (xs.map .Ip)).map fun ip =>
          (⟨ip, .chainHeader h.asHeaderName⟩ : ClientIp)).getD ⟨peer, .socket⟩ := by
  obtain ⟨values, lines, hl, hlen, hh, hplain⟩ := exists_values h.kind hx
  refine ⟨carrying [h.asHeaderName] values, fun peer header order pick => ?_⟩
  have hvalues : values ≠ [] := by
    rw [← List.length_pos_iff, hlen]
    exact List.length_pos_iff.mpr hne
  rw [resolveFrom_carrying _ hvalues hl hplain, List.find?_cons_of_pos (by simp), Option.bind_some,
    hh]

end ClientAddr
