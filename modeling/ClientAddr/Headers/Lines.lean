import ClientAddr.Headers.Split
import ClientAddr.Model.Resolve

/-! # Lines of a chain header

Both readers judge the whole header before a hop is used, and both add up the
hops line by line. A line is cut into hops by its commas, in a `Forwarded` header
by those outside quoted strings.
-/

namespace ClientAddr

open QuoteState Text

/-- The texts of a header's values, if all of them are readable. -/
def readLines (values : List HeaderValue) : Option (List Text) := values.mapM HeaderValue.toStr

def listParts (raw : Text) : List Text := ((raw.splitOn ',').map trim).filter (· ≠ [])

def listHops (raw : Text) : List ChainEntry := (listParts raw).map chainEntry

def forwardedHops (raw : Text) : List ChainEntry :=
  (((splitOutside ',' .outside raw).map trim).filter (· ≠ [])).map forwardedElementEntry

/-- The hops of one line, read as the kind says. -/
def hopsOf : ChainHeaderKind → Text → List ChainEntry
  | .xForwardedFor => listHops
  | .forwarded => forwardedHops

variable {values : List HeaderValue} {lines : List Text} {a b t : Text}

section Readers

@[simp] theorem readLines_nil : readLines [] = some [] := rfl

theorem readLines_cons (v : HeaderValue) (vs : List HeaderValue) :
    readLines (v :: vs) = v.toStr.bind fun raw => (readLines vs).map (raw :: ·) := by
  unfold readLines
  cases hv : v.toStr with
  | none => simp [hv]
  | some raw => cases hs : vs.mapM HeaderValue.toStr <;> simp [hv, hs]

theorem readLines_eq_none_iff : readLines values = none ↔ ∃ v ∈ values, v.toStr = none := by
  induction values with
  | nil => simp
  | cons v vs ih =>
    rw [readLines_cons]
    cases hv : v.toStr with
    | none => simp [hv]
    | some raw => simp [hv, ih]

theorem filterMap_toStr (h : readLines values = some lines) :
    values.filterMap HeaderValue.toStr = lines := by
  induction values generalizing lines with
  | nil => simpa using h
  | cons v vs ih =>
    rw [readLines_cons] at h
    obtain ⟨raw, hv, h⟩ := Option.bind_eq_some_iff.mp h
    obtain ⟨ls, hs, rfl⟩ := Option.map_eq_some_iff.mp h
    rw [List.filterMap_cons_some hv, ih hs]

theorem listHeaderEntries_eq (values : List HeaderValue) :
    listHeaderEntries values = (readLines values).map (·.flatMap listHops) := by
  unfold listHeaderEntries
  cases h : readLines values with
  | none =>
    obtain ⟨v, hv, hn⟩ := readLines_eq_none_iff.mp h
    rw [if_pos (List.any_eq_true.mpr ⟨v, hv, by simp [hn]⟩), Option.map_none]
  | some lines =>
    have hall : ¬ (values.any fun value => value.toStr.isNone) = true := by
      intro ha
      obtain ⟨v, hv, hn⟩ := List.any_eq_true.mp ha
      rw [Option.isNone_iff_eq_none] at hn
      rw [readLines_eq_none_iff.mpr ⟨v, hv, hn⟩] at h
      cases h
    rw [if_neg hall, Option.map_some, filterMap_toStr h]
    simp only [List.map_flatMap, List.filter_flatMap]
    rfl

theorem pushElements_eq (entries : List ChainEntry) (raw : Text) :
    pushElements entries raw = entries ++ forwardedHops raw := by
  have push : ∀ (l : List Text) (entries : List ChainEntry),
      l.foldl (fun entries element => if element = [] then entries
        else entries ++ [forwardedElementEntry element]) entries =
      entries ++ (l.filter (· ≠ [])).map forwardedElementEntry := by
    intro l
    induction l with
    | nil => simp
    | cons x l ih =>
      intro entries
      rw [List.foldl_cons, ih]
      by_cases hx : x = [] <;> simp [hx]
  rw [pushElements, SplitQuoted.items_new (by decide), push]
  rfl

theorem forwardedEntries_eq (values : List HeaderValue) :
    forwardedEntries values = (readLines values).map (·.flatMap forwardedHops) := by
  have fold : ∀ (vs : List HeaderValue) (entries : List ChainEntry),
      vs.foldlM (fun entries value => value.toStr.map (pushElements entries)) entries =
        (readLines vs).map fun lines => entries ++ lines.flatMap forwardedHops := by
    intro vs
    induction vs with
    | nil => simp [Option.pure_def]
    | cons v vs ih =>
      intro entries
      rw [List.foldlM_cons, readLines_cons]
      cases v.toStr with
      | none => rfl
      | some raw =>
        simp only [Option.map_some, Option.bind_eq_bind, Option.bind_some, ih, pushElements_eq,
          Option.map_map, Function.comp_def, List.flatMap_cons, List.append_assoc]
  rw [forwardedEntries, fold]
  simp only [List.nil_append]

/-- Both readers: all lines must be readable, and the hops are those of the lines in order. -/
theorem chainEntries_eq (kind : ChainHeaderKind) (values : List HeaderValue) :
    chainEntries kind values = (readLines values).map (·.flatMap (hopsOf kind)) := by
  cases kind with
  | xForwardedFor => exact listHeaderEntries_eq values
  | forwarded => exact forwardedEntries_eq values

end Readers

section Hops

theorem parseIpLike_trim (t : Text) : parseIpLike (trim t) = parseIpLike t := by
  simp only [parseIpLike, trim_trim]

theorem chainEntry_trim (t : Text) : chainEntry (trim t) = chainEntry t := by
  simp only [chainEntry, parseIpLike_trim]

theorem listHops_append (a b : Text) : listHops (a ++ ',' :: b) = listHops a ++ listHops b := by
  simp only [listHops, listParts, List.splitOn_append_cons_self, List.map_append,
    List.filter_append]

theorem listHops_hop (hc : ',' ∉ t) (hb : ¬ Blank t) : listHops t = [chainEntry t] := by
  have ht : trim t ≠ [] := fun h => hb (trim_eq_nil_iff.mp h)
  simp only [listHops, listParts, List.splitOn_eq_singleton hc, List.map_singleton]
  simp [ht, chainEntry_trim]

/-- A comma outside quoted strings separates the hops of a `Forwarded` line. -/
theorem forwardedHops_append (ha : outside.scan a = .outside) :
    forwardedHops (a ++ ',' :: b) = forwardedHops a ++ forwardedHops b := by
  have hd : ',' ≠ '"' := by decide
  simp only [forwardedHops, splitOutside_append_cons hd ha, List.map_append, List.filter_append]

end Hops

section Append

/-- What a proxy adds to a chain header: on the last line behind a comma, or as a new line. -/
structure AddedHop where
  sameLine : Bool
  text : Text

/-- Without a line to add to, the hop becomes the first line. -/
def appendHop (lines : List Text) (hop : AddedHop) : List Text :=
  match lines.getLast? with
  | some line =>
    if hop.sameLine then lines.dropLast ++ [line ++ ',' :: hop.text] else lines ++ [hop.text]
  | none => [hop.text]

def appendHops (lines : List Text) (hops : List AddedHop) : List Text := hops.foldl appendHop lines

theorem flatMap_appendHop (lines : List Text) (hop : AddedHop) :
    (appendHop lines hop).flatMap listHops = lines.flatMap listHops ++ listHops hop.text := by
  unfold appendHop
  cases hl : lines.getLast? with
  | none => simp [List.getLast?_eq_none_iff.mp hl]
  | some line =>
    obtain ⟨init, rfl⟩ := List.getLast?_eq_some_iff.mp hl
    by_cases hs : hop.sameLine = true <;> simp [hs, listHops_append]

theorem flatMap_appendHops (lines : List Text) {hops : List AddedHop}
    (hh : ∀ hop ∈ hops, ¬ Blank hop.text ∧ ',' ∉ hop.text) :
    (appendHops lines hops).flatMap listHops =
      lines.flatMap listHops ++ hops.map fun hop => chainEntry hop.text := by
  induction hops generalizing lines with
  | nil => simp [appendHops]
  | cons hop hops ih =>
    obtain ⟨hb, hc⟩ := hh hop List.mem_cons_self
    have ih' := ih (appendHop lines hop) fun g hg => hh g (List.mem_cons_of_mem _ hg)
    rw [appendHops, List.foldl_cons]
    rw [appendHops] at ih'
    rw [ih', flatMap_appendHop, listHops_hop hc hb]
    simp

end Append

end ClientAddr
