import ClientAddr.Headers.Lines

/-! # Several lines of one header

The lines of one header are one list. Joining them with commas gives a single line
with the same hops, as long as no line of a `Forwarded` header ends inside a quoted
string.
-/

namespace ClientAddr

open QuoteState Text

variable {values : List HeaderValue} {lines : List Text} {v : HeaderValue}

theorem listHops_intercalate (lines : List Text) :
    listHops ([','].intercalate lines) = lines.flatMap listHops := by
  induction lines with
  | nil => rfl
  | cons line lines ih =>
    cases lines with
    | nil => simp
    | cons next lines =>
      rw [List.intercalate_cons_cons, List.append_assoc, List.singleton_append, listHops_append, ih]
      exact List.flatMap_cons.symm

/-- The quote state that a line leaves behind is where the next line starts. -/
theorem forwardedHops_intercalate (h : ∀ line ∈ lines, outside.scan line = .outside) :
    forwardedHops ([','].intercalate lines) = lines.flatMap forwardedHops := by
  induction lines with
  | nil => rfl
  | cons line lines ih =>
    have hline := h line List.mem_cons_self
    have ih' := ih fun next hn => h next (List.mem_cons_of_mem _ hn)
    cases lines with
    | nil => simp
    | cons next lines =>
      rw [List.intercalate_cons_cons, List.append_assoc, List.singleton_append,
        forwardedHops_append hline, ih']
      exact List.flatMap_cons.symm

theorem listHops_eq (raw : Text) :
    listHops raw = ((raw.splitOn ',').filter fun part => ¬ Blank part).map chainEntry := by
  have hf : ((fun part : Text => decide (part ≠ [])) ∘ trim) = fun part => decide (¬ Blank part) :=
    funext fun part => decide_eq_decide.mpr (not_congr trim_eq_nil_iff)
  simp only [listHops, listParts, List.filter_map, List.map_map, hf]
  exact List.map_congr_left fun part _ => chainEntry_trim part

theorem readable_of_readLines (h : readLines values = some lines) :
    ∀ line ∈ lines, line.all isReadableChar = true := by
  rw [← filterMap_toStr h]
  intro line hl
  obtain ⟨v, -, hv⟩ := List.mem_filterMap.mp hl
  exact HeaderValue.readable_of_toStr hv

theorem exists_joined (h : readLines values = some lines) :
    ∃ v : HeaderValue, v.toStr = some ([','].intercalate lines) := by
  have hc : isReadableChar ',' = true := by decide
  have hj := readable_intercalate hc (readable_of_readLines h)
  exact ⟨.ofReadable _ hj, HeaderValue.toStr_ofReadable _ hj⟩

theorem readLines_singleton (hv : v.toStr = some t) : readLines [v] = some [t] := by
  rw [readLines_cons, hv]
  rfl

theorem readLines_eq_none_iff_byte :
    readLines values = none ↔ ∃ v ∈ values, ∃ b ∈ v.bytes, isVisibleAscii b = false := by
  simp only [readLines_eq_none_iff, HeaderValue.toStr_eq_none_iff]

/--
The lines of one header are the list that their comma join is, and one unreadable byte on any line
makes the whole header unreadable.
-/
theorem lines_are_one_list (values : List HeaderValue) :
    (∀ lines, readLines values = some lines →
      (∃ v : HeaderValue, v.toStr = some ([','].intercalate lines)) ∧
      ∀ v : HeaderValue, v.toStr = some ([','].intercalate lines) →
        listHeaderEntries values = listHeaderEntries [v] ∧
        listHeaderEntries values = some (lines.flatMap fun line =>
          ((line.splitOn ',').filter fun part => ¬ Blank part).map chainEntry) ∧
        ((∀ line ∈ lines, outside.scan line = .outside) →
          forwardedEntries values = forwardedEntries [v])) ∧
    (listHeaderEntries values = none ↔ ∃ v ∈ values, ∃ b ∈ v.bytes, isVisibleAscii b = false) ∧
    (forwardedEntries values = none ↔ ∃ v ∈ values, ∃ b ∈ v.bytes, isVisibleAscii b = false) := by
  refine ⟨fun lines hl => ⟨exists_joined hl, fun v hv => ⟨?_, ?_, fun hs => ?_⟩⟩, ?_, ?_⟩
  · simp only [listHeaderEntries_eq, hl, readLines_singleton hv, Option.map_some,
      List.flatMap_singleton, listHops_intercalate]
  · simp only [listHeaderEntries_eq, hl, Option.map_some, ← listHops_eq]
  · simp only [forwardedEntries_eq, hl, readLines_singleton hv, Option.map_some,
      List.flatMap_singleton, forwardedHops_intercalate hs]
  · simp only [listHeaderEntries_eq, Option.map_eq_none_iff, readLines_eq_none_iff_byte]
  · simp only [forwardedEntries_eq, Option.map_eq_none_iff, readLines_eq_none_iff_byte]

/-- A comma in a string that its line closes does not cut the joined text either. -/
theorem sample_lines_are_one_list :
    let values : List HeaderValue := [.ofReadable "for=1.2.3.4;x=\"a,b\"".toList (by decide),
      .ofReadable "for=5.6.7.8".toList (by decide)]
    let joined : HeaderValue :=
      .ofReadable "for=1.2.3.4;x=\"a,b\",for=5.6.7.8".toList (by decide +kernel)
    listHeaderEntries values = listHeaderEntries [joined] ∧
      forwardedEntries values = forwardedEntries [joined] := by
  intro values joined
  have hl : readLines values = some ["for=1.2.3.4;x=\"a,b\"".toList, "for=5.6.7.8".toList] := by
    decide +kernel
  obtain ⟨hlist, -, hforwarded⟩ :=
    ((lines_are_one_list values).1 _ hl).2 joined (by decide +kernel)
  exact ⟨hlist, hforwarded (by decide +kernel)⟩

end ClientAddr
