import ClientAddr.Text.Basic

/-! # Quoted strings and delimiters outside them

One left-to-right scan tells for every character whether it lies outside quoted
strings. `splitOutside` cuts a text at the delimiters that do. Every cut leaves
the scan outside, so the pieces can be scanned again one by one.
-/

namespace ClientAddr

/-- Where the scan stands: a backslash hides one character, but only in a quoted string. -/
inductive QuoteState | outside | inside | escaped
  deriving DecidableEq, Repr

namespace QuoteState

def step : QuoteState → Char → QuoteState
  | outside, c => if c = '"' then inside else outside
  | inside, c => if c = '\\' then escaped else if c = '"' then outside else inside
  | escaped, _ => inside

def scan (s : QuoteState) (t : Text) : QuoteState := t.foldl step s

@[simp] theorem scan_nil (s : QuoteState) : s.scan [] = s := rfl

@[simp] theorem scan_cons (s : QuoteState) (c : Char) (t : Text) :
    s.scan (c :: t) = (s.step c).scan t := rfl

@[simp] theorem scan_append (s : QuoteState) (t u : Text) :
    s.scan (t ++ u) = (s.scan t).scan u := List.foldl_append

theorem scan_outside {t : Text} (h : '"' ∉ t) : outside.scan t = outside := by
  induction t with
  | nil => rfl
  | cons c t ih =>
    rw [List.mem_cons, not_or] at h
    simp only [scan_cons, step, if_neg (Ne.symm h.1)]
    exact ih h.2

end QuoteState

namespace Text

open QuoteState

theorem quote_not_mem_of_blank {t : Text} (h : Blank t) : '"' ∉ t := h.not_mem (by decide)

/-- The pieces between the delimiters that the scan meets outside quoted strings. -/
def splitOutside (d : Char) : QuoteState → Text → List Text
  | _, [] => [[]]
  | s, c :: t =>
    if s = .outside ∧ c = d then [] :: splitOutside d .outside t
    else (splitOutside d (s.step c) t).modifyHead (c :: ·)

/-- No delimiter of the text lies outside quoted strings. -/
def Uncut (d : Char) (s : QuoteState) (t : Text) : Prop := splitOutside d s t = [t]

variable {d : Char} {s : QuoteState} {a b t x : Text} {l : List Text}

theorem splitOutside_ne_nil (d : Char) (s : QuoteState) (t : Text) : splitOutside d s t ≠ [] := by
  cases t with
  | nil => simp [splitOutside]
  | cons c t =>
    rw [splitOutside]
    split_ifs
    · simp
    · rw [ne_eq, List.modifyHead_eq_nil_iff]
      exact splitOutside_ne_nil d _ t

theorem exists_last_piece (d : Char) (s : QuoteState) (t : Text) :
    ∃ l x, splitOutside d s t = l ++ [x] :=
  ⟨_, _, (List.dropLast_append_getLast (splitOutside_ne_nil d s t)).symm⟩

theorem uncut_of_not_mem (s : QuoteState) (h : d ∉ t) : Uncut d s t := by
  unfold Uncut
  induction t generalizing s with
  | nil => rfl
  | cons c t ih =>
    rw [List.mem_cons, not_or] at h
    rw [splitOutside, if_neg (fun hc => h.1 hc.2.symm), ih _ h.2]
    rfl

theorem intercalate_splitOutside (d : Char) (s : QuoteState) (t : Text) :
    [d].intercalate (splitOutside d s t) = t := by
  induction t generalizing s with
  | nil => rfl
  | cons c t ih =>
    rw [splitOutside]
    split_ifs with h
    · obtain ⟨p, q, hp⟩ := List.exists_cons_of_ne_nil (splitOutside_ne_nil d .outside t)
      have := ih .outside
      rw [hp] at this ⊢
      rw [List.intercalate_cons_cons, this, h.2]
      rfl
    · obtain ⟨p, q, hp⟩ := List.exists_cons_of_ne_nil (splitOutside_ne_nil d (s.step c) t)
      have := ih (s.step c)
      rw [hp] at this ⊢
      cases q with
      | nil => simpa using this
      | cons r q => simpa [List.intercalate_cons_cons] using this

theorem mem_of_mem_splitOutside {c : Char} (hx : x ∈ splitOutside d s t) (hc : c ∈ x) : c ∈ t := by
  induction t generalizing s x with
  | nil =>
    obtain rfl := List.mem_singleton.mp hx
    exact hc
  | cons a t ih =>
    rw [splitOutside] at hx
    split_ifs at hx
    · rcases List.mem_cons.mp hx with rfl | hx
      · cases hc
      · exact List.mem_cons_of_mem _ (ih hx hc)
    · obtain ⟨p, q, hp⟩ := List.exists_cons_of_ne_nil (splitOutside_ne_nil d (s.step a) t)
      have hmem : ∀ y ∈ p :: q, c ∈ y → c ∈ t := fun y hy => ih (hp ▸ hy)
      rw [hp, List.modifyHead_cons] at hx
      rcases List.mem_cons.mp hx with rfl | hx
      · rcases List.mem_cons.mp hc with rfl | hc
        · exact List.mem_cons_self
        · exact List.mem_cons_of_mem _ (hmem p List.mem_cons_self hc)
      · exact List.mem_cons_of_mem _ (hmem x (List.mem_cons_of_mem _ hx) hc)

theorem modifyHead_cons_cases {c : Char} {l' : List Text} {x' : Text}
    (h : (l' ++ [x']).modifyHead (c :: ·) = l ++ [x]) :
    (l' = [] ∧ l = [] ∧ x = c :: x') ∨ ∃ p q, l' = p :: q ∧ l = (c :: p) :: q ∧ x = x' := by
  cases l' with
  | nil =>
    cases l with
    | nil => exact Or.inl ⟨rfl, rfl, (List.singleton_inj.mp h).symm⟩
    | cons p l => simp at h
  | cons p q =>
    cases l with
    | nil => simp at h
    | cons p' l =>
      obtain ⟨hp, hq⟩ := List.cons.inj h
      obtain ⟨rfl, hx⟩ := List.append_inj' hq rfl
      exact Or.inr ⟨p, q, rfl, by rw [← hp], (List.singleton_inj.mp hx).symm⟩

theorem eq_nil_of_singleton {y : Text} (h : [y] = l ++ [x]) : l = [] ∧ x = y := by
  cases l with
  | nil => exact ⟨rfl, (List.singleton_inj.mp h).symm⟩
  | cons p l => simp at h

/-- The last piece of the first part and the first piece of the second part are one piece. -/
theorem splitOutside_append (hd : d ≠ '"') {y : Text} {m : List Text}
    (ha : splitOutside d s a = l ++ [x]) (hb : splitOutside d (s.scan a) b = y :: m) :
    splitOutside d s (a ++ b) = l ++ (x ++ y) :: m := by
  induction a generalizing s l x with
  | nil =>
    obtain ⟨rfl, rfl⟩ := eq_nil_of_singleton ha
    simpa using hb
  | cons c a ih =>
    rw [splitOutside] at ha
    rw [List.cons_append, splitOutside]
    split_ifs at ha ⊢ with h
    · have hs : s.step c = .outside := by simp [h.1, h.2, step, hd]
      rw [scan_cons, hs] at hb
      cases l with
      | nil => simp [splitOutside_ne_nil] at ha
      | cons p l =>
        rw [List.cons_append, List.cons.injEq] at ha
        obtain ⟨rfl, ha⟩ := ha
        rw [ih ha hb]
        rfl
    · obtain ⟨l', x', hl'⟩ := exists_last_piece d (s.step c) a
      rw [ih hl' hb]
      rw [hl'] at ha
      rcases modifyHead_cons_cases ha with ⟨rfl, rfl, rfl⟩ | ⟨p, q, rfl, rfl, rfl⟩ <;> rfl

theorem Uncut.append (hd : d ≠ '"') (ha : Uncut d s a) (hb : Uncut d (s.scan a) b) :
    Uncut d s (a ++ b) :=
  splitOutside_append hd (l := []) ha hb

theorem Uncut.splitOutside_append (hd : d ≠ '"') (ha : splitOutside d s a = l ++ [x])
    (hb : Uncut d (s.scan a) b) : splitOutside d s (a ++ b) = l ++ [x ++ b] :=
  Text.splitOutside_append hd ha hb

theorem splitOutside_insert (hd : d ≠ '"') {y : Text} {m : List Text}
    (ha : splitOutside d s a = l ++ [x]) (hs : s.scan a = .outside)
    (hb : splitOutside d .outside b = y :: m) (ht : Uncut d .outside t)
    (hst : outside.scan t = .outside) :
    splitOutside d s (a ++ (t ++ b)) = l ++ (x ++ (t ++ y)) :: m := by
  apply splitOutside_append hd ha
  rw [hs]
  exact splitOutside_append hd (l := []) ht (by rwa [hst])

theorem splitOutside_append_cons (hd : d ≠ '"') (ha : s.scan a = .outside) :
    splitOutside d s (a ++ d :: b) = splitOutside d s a ++ splitOutside d .outside b := by
  obtain ⟨l, x, hl⟩ := exists_last_piece d s a
  have hb : splitOutside d (s.scan a) (d :: b) = [] :: splitOutside d .outside b := by
    rw [splitOutside, if_pos ⟨ha, rfl⟩]
  rw [splitOutside_append hd hl hb, hl]
  simp

theorem splitOutside_intercalate (hd : d ≠ '"') {ls : List Text} (hne : ls ≠ [])
    (hu : ∀ t ∈ ls, Uncut d .outside t) (hs : ∀ t ∈ ls, outside.scan t = .outside) :
    splitOutside d .outside ([d].intercalate ls) = ls := by
  induction ls with
  | nil => exact absurd rfl hne
  | cons t ls ih =>
    cases ls with
    | nil =>
      rw [List.intercalate_singleton]
      exact hu t List.mem_cons_self
    | cons u ls =>
      rw [List.intercalate_cons_cons, List.append_assoc, List.singleton_append,
        splitOutside_append_cons hd (hs t List.mem_cons_self), hu t List.mem_cons_self,
        ih (by simp) (fun v hv => hu v (List.mem_cons_of_mem _ hv))
          (fun v hv => hs v (List.mem_cons_of_mem _ hv))]
      rfl

theorem eq_of_splitOutside (h : splitOutside d s t = [x]) : x = t := by
  have hj := intercalate_splitOutside d s t
  rwa [h, List.intercalate_singleton] at hj

theorem last_piece_cases (hd : d ≠ '"') (h : splitOutside d s t = l ++ [x]) :
    l = [] ∨ outside.scan x = s.scan t := by
  induction t generalizing s l x with
  | nil => exact Or.inl (eq_nil_of_singleton h).1
  | cons c t ih =>
    rw [splitOutside] at h
    split_ifs at h with hc
    · have hs : s.step c = .outside := by simp [hc.1, hc.2, step, hd]
      rw [scan_cons, hs]
      cases l with
      | nil => exact Or.inl rfl
      | cons p l =>
        have ht := (List.cons.inj h).2
        rcases ih ht with rfl | hx
        · rw [eq_of_splitOutside ht]
          exact Or.inr rfl
        · exact Or.inr hx
    · obtain ⟨l', x', hl'⟩ := exists_last_piece d (s.step c) t
      rw [hl'] at h
      rcases modifyHead_cons_cases h with ⟨-, rfl, -⟩ | ⟨p, q, rfl, rfl, rfl⟩
      · exact Or.inl rfl
      · exact Or.inr ((ih hl').resolve_left (List.cons_ne_nil p q))

theorem scan_last_piece (hd : d ≠ '"') (h : splitOutside d .outside t = l ++ [x]) :
    outside.scan x = outside.scan t := by
  rcases last_piece_cases hd h with rfl | hx
  · rw [eq_of_splitOutside h]
  · exact hx

/-- Trimming a text only trims its first and its last piece. -/
theorem map_trim_splitOutside_trim (hd : d ≠ '"') (hw : isWhitespace d = false) (t : Text) :
    (splitOutside d .outside (trim t)).map trim = (splitOutside d .outside t).map trim := by
  obtain ⟨a, b, ha, hb, ht⟩ := trim_decomp t
  obtain ⟨l, x, hl⟩ := exists_last_piece d .outside (trim t)
  have hlast := Uncut.splitOutside_append hd hl (uncut_of_not_mem _ (hb.not_mem hw))
  obtain ⟨y, m, hy⟩ := List.exists_cons_of_ne_nil (splitOutside_ne_nil d .outside (trim t ++ b))
  have hfirst : splitOutside d .outside t = (a ++ y) :: m := by
    conv_lhs => rw [ht, List.append_assoc]
    have hs : splitOutside d .outside a = [] ++ [a] := uncut_of_not_mem _ (ha.not_mem hw)
    apply splitOutside_append hd hs
    rw [scan_outside (quote_not_mem_of_blank ha)]
    exact hy
  have hmap : (l ++ [x ++ b]).map trim = (l ++ [x]).map trim := by
    simp only [List.map_append, List.map_singleton, trim_append_right hb]
  rw [hfirst, List.map_cons, trim_append_left ha, ← List.map_cons, ← hy, hlast, hmap, hl]

theorem uncut_intercalate {e : Char} (hd : d ≠ '"') (hq : e ≠ '"') (he : e ≠ d) {ls : List Text}
    (h : ∀ t ∈ ls, Uncut d .outside t ∧ outside.scan t = .outside) :
    Uncut d .outside ([e].intercalate ls) ∧ outside.scan ([e].intercalate ls) = .outside := by
  induction ls with
  | nil => exact ⟨rfl, rfl⟩
  | cons t ls ih =>
    obtain ⟨hu, hs⟩ := h t List.mem_cons_self
    cases ls with
    | nil =>
      rw [List.intercalate_singleton]
      exact ⟨hu, hs⟩
    | cons v ls =>
      obtain ⟨hu', hs'⟩ := ih fun w hw => h w (List.mem_cons_of_mem _ hw)
      have hsep : QuoteState.outside.scan [e] = .outside := scan_outside (by simpa using hq.symm)
      rw [List.intercalate_cons_cons]
      constructor
      · refine Uncut.append hd (hu.append hd ?_) ?_
        · exact uncut_of_not_mem _ (by simpa using he.symm)
        · rw [scan_append, hs, hsep]
          exact hu'
      · rw [scan_append, scan_append, hs, hsep, hs']

theorem uncut_of_open (d : Char) (hs : s ≠ .outside) (hq : '"' ∉ t) :
    Uncut d s t ∧ s.scan t ≠ .outside := by
  unfold Uncut
  induction t generalizing s with
  | nil => exact ⟨rfl, hs⟩
  | cons c t ih =>
    rw [List.mem_cons, not_or] at hq
    have hstep : s.step c ≠ .outside := by
      cases s with
      | outside => exact absurd rfl hs
      | inside => by_cases hb : c = '\\' <;> simp [step, hb, Ne.symm hq.1]
      | escaped => simp [step]
    obtain ⟨hu, hn⟩ := ih hstep hq.2
    refine ⟨?_, hn⟩
    rw [splitOutside, if_neg fun h => hs h.1, hu]
    rfl

section QuotedString

/-- Escape the quotes and backslashes, and every character whose flag is set. -/
def quoteBody : List Bool → Text → Text
  | _, [] => []
  | flags, c :: t =>
    if flags.head? = some true ∨ c = '"' ∨ c = '\\' then '\\' :: c :: quoteBody flags.tail t
    else c :: quoteBody flags.tail t

def quote (flags : List Bool) (t : Text) : Text := '"' :: (quoteBody flags t ++ ['"'])

theorem mem_quoteBody {flags : List Bool} {c : Char} (h : c ∈ quoteBody flags t) :
    c = '\\' ∨ c ∈ t := by
  induction t generalizing flags with
  | nil => cases h
  | cons a t ih =>
    rw [quoteBody] at h
    split_ifs at h
    all_goals
      simp only [List.mem_cons] at h ⊢
      rcases h with h | h
    · exact Or.inl h
    · rcases h with h | h
      · exact Or.inr (Or.inl h)
      · exact (ih h).imp_right Or.inr
    · exact Or.inr (Or.inl h)
    · exact (ih h).imp_right Or.inr

theorem quoteBody_nil (hq : '"' ∉ t) (hb : '\\' ∉ t) : quoteBody [] t = t := by
  induction t with
  | nil => rfl
  | cons c t ih =>
    rw [List.mem_cons, not_or] at hq hb
    have hc : ¬ (([] : List Bool).head? = some true ∨ c = '"' ∨ c = '\\') := by
      simp [Ne.symm hq.1, Ne.symm hb.1]
    rw [quoteBody, if_neg hc, List.tail_nil, ih hq.2 hb.2]

theorem scan_quoteBody (flags : List Bool) (t : Text) :
    QuoteState.inside.scan (quoteBody flags t) = .inside := by
  induction t generalizing flags with
  | nil => rfl
  | cons c t ih =>
    rw [quoteBody]
    split_ifs with h
    · simp only [scan_cons, step, if_true]
      exact ih _
    · rw [not_or, not_or] at h
      simp only [scan_cons, step, if_neg h.2.1, if_neg h.2.2]
      exact ih _

theorem uncut_quoteBody (d : Char) (flags : List Bool) (t : Text) :
    Uncut d .inside (quoteBody flags t) := by
  unfold Uncut
  induction t generalizing flags with
  | nil => rfl
  | cons c t ih =>
    rw [quoteBody]
    split_ifs with h
    · simp [splitOutside, step, ih]
    · rw [not_or, not_or] at h
      simp [splitOutside, step, h.2.1, h.2.2, ih]

theorem scan_quote (flags : List Bool) (t : Text) :
    QuoteState.outside.scan (quote flags t) = .outside := by
  simp [quote, step, scan_quoteBody]

theorem uncut_quote (hd : d ≠ '"') (flags : List Bool) (t : Text) :
    Uncut d .outside (quote flags t) := by
  have hq : Uncut d .outside ['"'] := uncut_of_not_mem _ (by simpa using hd)
  have hin : QuoteState.outside.scan ['"'] = .inside := rfl
  apply Uncut.append hd hq
  rw [hin]
  apply (uncut_quoteBody d flags t).append hd
  exact uncut_of_not_mem _ (by simpa using hd)

end QuotedString

end Text

end ClientAddr
