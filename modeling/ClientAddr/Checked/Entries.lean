import ClientAddr.Checked.Hop
import ClientAddr.Iter.DoubleEnded

/-! # The readers, call by call

The hops of a list header are not collected: an iterator reads them when it is
called, at either end. The hops of a `Forwarded` header are collected by loops that
ask the splitter for one item after the other. Both give the hops of the plain
readers.
-/

namespace ClientAddr.Checked

open Text

/-- The pieces between the occurrences of a character, or nothing once the last one is taken. -/
def splitChar (d : Char) : DoubleEnded Text where
  State := Option Text
  next
    | none => none
    | some t => match splitOnce d t with
      | some (p, r) => some (p, some r)
      | none => some (t, none)
  nextBack
    | none => none
    | some t => match rsplitOnce d t with
      | some (l, p) => some (p, some l)
      | none => some (t, none)
  rest
    | none => []
    | some t => t.splitOn d
  pops_next s := by
    cases s with
    | none => rfl
    | some t =>
      by_cases ht : d ∈ t
      · obtain ⟨p, r, hp, rfl⟩ := exists_of_mem ht
        simp [Pops, splitOnce_append hp, List.splitOn_append_cons_self,
          List.splitOn_eq_singleton hp]
      · simp [Pops, splitOnce_eq_none ht, List.splitOn_eq_singleton ht]
  pops_nextBack s := by
    cases s with
    | none => rfl
    | some t =>
      by_cases ht : d ∈ t
      · obtain ⟨l, p, hp, rfl⟩ := exists_last_of_mem ht
        simp [Pops, rsplitOnce_append hp, List.splitOn_append_cons_self,
          List.splitOn_eq_singleton hp]
      · simp [Pops, rsplitOnce_eq_none ht, List.splitOn_eq_singleton ht]

/-- The texts between the commas of the readable values, without the blank ones. -/
def hopParts : DoubleEnded Text :=
  ((((DoubleEnded.ofList HeaderValue).filterMap HeaderValue.toStr).flatMap (splitChar ',')
    some).map trim).filter (· ≠ [])

/-- The hops of a list header. Each is read when it is called for. -/
def hopIter : DoubleEnded (Checked ChainEntry) := hopParts.map chainEntry

def hopIter.start (values : List HeaderValue) : hopIter.State :=
  (⟨none, values, none⟩ : DoubleEnded.FlatState (List HeaderValue) (Option Text))

def listHeaderEntries (values : List HeaderValue) : Option hopIter.State :=
  if values.any fun value => value.toStr.isNone then none else some (hopIter.start values)

theorem rest_hopIter_start (values : List HeaderValue) :
    hopIter.rest (hopIter.start values) =
      ((((values.filterMap HeaderValue.toStr).flatMap (·.splitOn ',')).map trim).filter
        (· ≠ [])).map chainEntry := by
  have hpieces := DoubleEnded.rest_flatMap
    ((DoubleEnded.ofList HeaderValue).filterMap HeaderValue.toStr) (splitChar ',') some values
  have htrim := (DoubleEnded.rest_map _ trim _).trans (congrArg (List.map trim) hpieces)
  have hparts := (DoubleEnded.rest_filter _ (· ≠ []) _).trans
    (congrArg (List.filter (· ≠ [])) htrim)
  exact (DoubleEnded.rest_map hopParts chainEntry _).trans (congrArg (List.map chainEntry) hparts)

theorem rest_of_listHeaderEntries {values : List HeaderValue} {s : hopIter.State}
    {entries : List ChainEntry} (hs : listHeaderEntries values = some s)
    (he : ClientAddr.listHeaderEntries values = some entries) :
    hopIter.rest s = entries.map .ok := by
  unfold listHeaderEntries at hs
  simp only [ClientAddr.listHeaderEntries] at he
  split_ifs at hs he
  obtain rfl := Option.some.inj hs
  obtain rfl := Option.some.inj he
  have hc : chainEntry = fun t => .ok (ClientAddr.chainEntry t) := funext chainEntry_eq
  rw [rest_hopIter_start, List.map_map, hc]
  rfl

theorem listHeaderEntries_eq_none_iff {values : List HeaderValue} :
    listHeaderEntries values = none ↔ ClientAddr.listHeaderEntries values = none := by
  simp only [listHeaderEntries, ClientAddr.listHeaderEntries]
  split_ifs <;> simp

/--
However the iterator of a list header is called, at its two ends in any order, it gives the hops of
the plain reader, and no hop fails. The two readers give up on the same values.
-/
theorem lazy_hops_eq (values : List HeaderValue) :
    (listHeaderEntries values = none ↔ ClientAddr.listHeaderEntries values = none) ∧
    ∀ s entries, listHeaderEntries values = some s →
      ClientAddr.listHeaderEntries values = some entries →
      ∀ ends, hopIter.calls ends s = DoubleEnded.takeEnds ends (entries.map .ok) := by
  refine ⟨listHeaderEntries_eq_none_iff, fun s entries hs he ends => ?_⟩
  rw [DoubleEnded.calls_eq, rest_of_listHeaderEntries hs he]

section Forwarded

def forwardedPairsEntry : ℕ → SplitQuoted → Checked ChainEntry
  | 0, _ => .error .endless
  | fuel + 1, pairs => do
    match ← pairs.next with
    | none => return .Opaque
    | some (pair, pairs) =>
      match splitOnce '=' pair with
      | none => forwardedPairsEntry fuel pairs
      | some (name, value) =>
        if eqIgnoreAsciiCase (trim name) "for".toList then
          chainEntry (← unquoteHttpQuotedString (trim value))
        else forwardedPairsEntry fuel pairs

def forwardedElementEntry (element : Text) : Checked ChainEntry :=
  forwardedPairsEntry (byteLen element + 2) (.new element ';')

def pushElements : ℕ → List ChainEntry → SplitQuoted → Checked (List ChainEntry)
  | 0, _, _ => .error .endless
  | fuel + 1, entries, elements => do
    match ← elements.next with
    | none => return entries
    | some (element, elements) =>
      if element = [] then pushElements fuel entries elements
      else pushElements fuel (entries ++ [← forwardedElementEntry element]) elements

def pushLines : List ChainEntry → List HeaderValue → Checked (Option (List ChainEntry))
  | entries, [] => .ok (some entries)
  | entries, value :: values =>
    match value.toStr with
    | none => .ok none
    | some raw => do
      let entries ← pushElements (byteLen raw + 2) entries (.new raw ',')
      pushLines entries values

def forwardedEntries (values : List HeaderValue) : Checked (Option (List ChainEntry)) :=
  pushLines [] values

variable {items : List Text} {fuel : ℕ}

theorem length_items_lt (t : Text) (d : Char) :
    (ClientAddr.SplitQuoted.new t d).items.length < byteLen t + 2 := by
  have run : ∀ n s, (ClientAddr.SplitQuoted.run n s).length ≤ n := by
    intro n
    induction n with
    | zero => simp [ClientAddr.SplitQuoted.run]
    | succ n ih =>
      intro s
      rw [ClientAddr.SplitQuoted.run]
      split
      · exact Nat.zero_le _
      · exact Nat.succ_le_succ (ih _)
  have hlen := length_le_byteLen t
  have hrun := run (t.length + 1) (.new t d)
  have he : (ClientAddr.SplitQuoted.new t d).items =
      ClientAddr.SplitQuoted.run (t.length + 1) (.new t d) := rfl
  rw [he]
  omega

theorem forwardedPairsEntry_eq {pairs : SplitQuoted} (h : pairs.Serves items)
    (hf : items.length < fuel) :
    forwardedPairsEntry fuel pairs = .ok (ClientAddr.forwardedPairsEntry items) := by
  induction h generalizing fuel with
  | nil hn =>
    cases fuel with
    | zero => cases hf
    | succ fuel => simp [forwardedPairsEntry, ClientAddr.forwardedPairsEntry, hn]
  | @cons _ _ pair _ hn _ ih =>
    cases fuel with
    | zero => cases hf
    | succ fuel =>
      have ih' := ih (Nat.lt_of_succ_lt_succ hf)
      simp only [forwardedPairsEntry, hn, ok_bind, ClientAddr.forwardedPairsEntry]
      cases splitOnce '=' pair with
      | none => exact ih'
      | some q =>
        simp only [unquoteHttpQuotedString_eq, ok_bind, chainEntry_eq, ih']
        split_ifs <;> rfl

theorem forwardedElementEntry_eq (element : Text) :
    forwardedElementEntry element = .ok (ClientAddr.forwardedElementEntry element) :=
  forwardedPairsEntry_eq (SplitQuoted.serves_new element ';') (length_items_lt element ';')

theorem pushElements_eq {elements : SplitQuoted} (h : elements.Serves items)
    (hf : items.length < fuel) (entries : List ChainEntry) :
    pushElements fuel entries elements =
      .ok (items.foldl (fun entries element => if element = [] then entries
        else entries ++ [ClientAddr.forwardedElementEntry element]) entries) := by
  induction h generalizing fuel entries with
  | nil hn =>
    cases fuel with
    | zero => cases hf
    | succ fuel => simp [pushElements, hn]
  | cons hn _ ih =>
    cases fuel with
    | zero => cases hf
    | succ fuel =>
      simp only [pushElements, hn, ok_bind, List.foldl_cons, forwardedElementEntry_eq]
      split_ifs
      · exact ih (Nat.lt_of_succ_lt_succ hf) _
      · exact ih (Nat.lt_of_succ_lt_succ hf) _

theorem pushLines_eq (entries : List ChainEntry) (values : List HeaderValue) :
    pushLines entries values = .ok (values.foldlM
      (fun entries value => value.toStr.map (ClientAddr.pushElements entries)) entries) := by
  induction values generalizing entries with
  | nil => rfl
  | cons value values ih =>
    rw [pushLines, List.foldlM_cons]
    cases value.toStr with
    | none => rfl
    | some raw =>
      have hp := pushElements_eq (SplitQuoted.serves_new raw ',') (length_items_lt raw ',') entries
      simp only [hp, ok_bind, ih]
      rfl

theorem forwardedEntries_eq (values : List HeaderValue) :
    forwardedEntries values = .ok (ClientAddr.forwardedEntries values) :=
  pushLines_eq [] values

end Forwarded

end ClientAddr.Checked
