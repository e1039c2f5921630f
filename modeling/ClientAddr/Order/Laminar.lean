import Mathlib.Order.Interval.Basic
import Mathlib.Data.List.Pairwise

/-! # Laminar families of intervals

Two intervals of a laminar family are nested or disjoint. A sweep that visits
earlier starts first, and the wider interval first on a tie, therefore meets
every clash between differently labelled intervals at the widest open interval.
-/

namespace ClientAddr.Laminar

variable {α β μ : Type*} [LinearOrder α]

def Meets (s t : NonemptyInterval α) : Prop := ∃ x, x ∈ s ∧ x ∈ t

def Nested (s t : NonemptyInterval α) : Prop := Meets s t → s ≤ t ∨ t ≤ s

/-- The visiting order of the sweep: earlier start, then later end. -/
def Precedes (s t : NonemptyInterval α) : Prop :=
  s.fst < t.fst ∨ s.fst = t.fst ∧ t.snd ≤ s.snd

theorem Meets.symm {s t : NonemptyInterval α} (h : Meets s t) : Meets t s := by
  obtain ⟨x, hs, ht⟩ := h
  exact ⟨x, ht, hs⟩

theorem Meets.mono {s t u : NonemptyInterval α} (h : Meets s t) (hs : s ≤ u) : Meets u t := by
  obtain ⟨x, hx, ht⟩ := h
  rw [NonemptyInterval.mem_def] at hx
  exact ⟨x, ⟨hs.1.trans hx.1, hx.2.trans hs.2⟩, ht⟩

theorem Precedes.fst_le {s t : NonemptyInterval α} (h : Precedes s t) : s.fst ≤ t.fst := by
  rcases h with h | ⟨h, _⟩
  · exact h.le
  · exact h.le

theorem meets_of_fst_le {s t : NonemptyInterval α} (hs : s.fst ≤ t.fst) (ht : t.fst ≤ s.snd) :
    Meets s t :=
  ⟨t.fst, ⟨hs, ht⟩, ⟨le_rfl, t.fst_le_snd⟩⟩

theorem Precedes.le_of_fst_le {s t : NonemptyInterval α} (h : Precedes s t) (hn : Nested s t)
    (hr : t.fst ≤ s.snd) : t ≤ s := by
  have hle := h.fst_le
  rcases hn (meets_of_fst_le hle hr) with hst | hts
  · rcases h with h | ⟨_, hw⟩
    · exact absurd hst.1 (not_le.mpr h)
    · exact ⟨hle, hw⟩
  · exact hts

theorem not_meets_of_snd_lt {s t : NonemptyInterval α} (h : s.snd < t.fst) : ¬ Meets s t := by
  rintro ⟨x, hs, ht⟩
  exact absurd (ht.1.trans hs.2) (not_le.mpr h)

/-- Two items agree when meeting intervals carry one label. -/
def Agree (span : β → NonemptyInterval α) (label : β → μ) (a b : β) : Prop :=
  Meets (span a) (span b) → label a = label b

theorem Agree.symm {span : β → NonemptyInterval α} {label : β → μ} {a b : β}
    (h : Agree span label a b) : Agree span label b a :=
  fun hm => (h hm.symm).symm

section Sweep

variable [DecidableEq μ] (span : β → NonemptyInterval α) (label : β → μ)

/-- The first clash met by the sweep, with the widest open interval as its first part. -/
def clash : Option β → List β → Option (β × β)
  | _, [] => none
  | none, b :: l => clash (some b) l
  | some o, b :: l =>
    if (span b).fst ≤ (span o).snd then
      if label o ≠ label b then some (o, b) else clash (some o) l
    else clash (some b) l

variable {span label}

theorem clash_sound (hn : ∀ a b, Nested (span a) (span b)) {o : Option β} {l : List β}
    (hs : (o.toList ++ l).Pairwise fun a b => Precedes (span a) (span b)) {a b : β}
    (h : clash span label o l = some (a, b)) :
    a ∈ o.toList ++ l ∧ b ∈ l ∧ label a ≠ label b ∧ span b ≤ span a := by
  induction l generalizing o with
  | nil => cases o <;> simp [clash] at h
  | cons c l ih =>
    cases o with
    | none =>
      obtain ⟨ha, hb, hr⟩ := ih (o := some c) hs h
      exact ⟨ha, List.mem_cons_of_mem _ hb, hr⟩
    | some o =>
      simp only [Option.toList_some, List.singleton_append] at hs ih
      have hoc := (List.pairwise_cons.mp hs).1 c List.mem_cons_self
      rw [clash] at h
      split_ifs at h with hr hl
      · obtain ⟨rfl, rfl⟩ := Prod.mk.inj (Option.some.inj h)
        exact ⟨by simp, List.mem_cons_self, hl, hoc.le_of_fst_le (hn _ _) hr⟩
      · have hs' : (o :: l).Pairwise fun a b => Precedes (span a) (span b) :=
          hs.sublist (List.Sublist.cons_cons o (List.sublist_cons_self c l))
        obtain ⟨ha, hb, hr⟩ := ih (o := some o) hs' h
        refine ⟨?_, List.mem_cons_of_mem _ hb, hr⟩
        rcases List.mem_cons.mp ha with rfl | ha
        · exact List.mem_cons_self
        · exact List.mem_cons_of_mem _ (List.mem_cons_of_mem _ ha)
      · obtain ⟨ha, hb, hr⟩ := ih (o := some c) (List.pairwise_cons.mp hs).2 h
        exact ⟨List.mem_cons_of_mem _ ha, List.mem_cons_of_mem _ hb, hr⟩

theorem clash_complete (hn : ∀ a b, Nested (span a) (span b)) {o : Option β} {l : List β}
    (hs : (o.toList ++ l).Pairwise fun a b => Precedes (span a) (span b))
    (h : clash span label o l = none) :
    (o.toList ++ l).Pairwise (Agree span label) := by
  induction l generalizing o with
  | nil => cases o <;> simp
  | cons c l ih =>
    cases o with
    | none => exact ih (o := some c) hs h
    | some o =>
      simp only [Option.toList_some, List.singleton_append] at hs ih ⊢
      have ho := List.pairwise_cons.mp hs
      have hoc := ho.1 c List.mem_cons_self
      rw [clash] at h
      split_ifs at h with hr hl
      · have hs' : (o :: l).Pairwise fun a b => Precedes (span a) (span b) :=
          hs.sublist (List.Sublist.cons_cons o (List.sublist_cons_self c l))
        have hol := List.pairwise_cons.mp (ih (o := some o) hs' h)
        have hle := hoc.le_of_fst_le (hn _ _) hr
        have hlab : label o = label c := not_not.mp hl
        refine List.pairwise_cons.mpr ⟨?_, List.pairwise_cons.mpr ⟨?_, hol.2⟩⟩
        · intro b hb
          rcases List.mem_cons.mp hb with rfl | hb
          · exact fun _ => hlab
          · exact hol.1 b hb
        · intro b hb hm
          exact hlab.symm.trans (hol.1 b hb (hm.mono hle))
      · have hc := ih (o := some c) ho.2 h
        refine List.pairwise_cons.mpr ⟨?_, hc⟩
        intro b hb hm
        have hcb : (span c).fst ≤ (span b).fst := by
          rcases List.mem_cons.mp hb with rfl | hb
          · exact le_rfl
          · exact ((List.pairwise_cons.mp ho.2).1 b hb).fst_le
        exact absurd hm (not_meets_of_snd_lt (lt_of_lt_of_le (not_le.mp hr) hcb))

/-- The sweep over a sorted list finds no clash exactly when all its items agree. -/
theorem clash_eq_none_iff (hn : ∀ a b, Nested (span a) (span b)) {l : List β}
    (hs : l.Pairwise fun a b => Precedes (span a) (span b)) :
    clash span label none l = none ↔ ∀ a ∈ l, ∀ b ∈ l, Agree span label a b := by
  constructor
  · intro h
    have hp : l.Pairwise (Agree span label) := clash_complete hn (o := none) hs h
    intro a ha b hb
    by_cases hab : a = b
    · exact fun _ => hab ▸ rfl
    · have : Std.Symm (Agree span label) := ⟨fun _ _ h => h.symm⟩
      exact hp.forall ha hb hab
  · intro h
    rw [Option.eq_none_iff_forall_ne_some]
    rintro ⟨a, b⟩ hc
    obtain ⟨ha, hb, hl, hle⟩ := clash_sound hn (o := none) hs hc
    have hm : Meets (span a) (span b) :=
      ⟨(span b).fst, ⟨hle.1, (span b).fst_le_snd.trans hle.2⟩, ⟨le_rfl, (span b).fst_le_snd⟩⟩
    exact hl (h a ha b (by simpa using hb) hm)

theorem exists_prefix_of_clash {o : Option β} {l : List β} {a b : β}
    (h : clash span label o l = some (a, b)) :
    ∃ l₁ l₂, l = l₁ ++ b :: l₂ ∧ clash span label o l₁ = none := by
  induction l generalizing o with
  | nil => cases o <;> simp [clash] at h
  | cons c l ih =>
    cases o with
    | none =>
      obtain ⟨l₁, l₂, rfl, hn⟩ := ih h
      exact ⟨c :: l₁, l₂, rfl, hn⟩
    | some o =>
      rw [clash] at h
      split_ifs at h with hr hl
      · obtain ⟨rfl, rfl⟩ := Prod.mk.inj (Option.some.inj h)
        exact ⟨[], l, rfl, rfl⟩
      · obtain ⟨l₁, l₂, rfl, hn⟩ := ih h
        exact ⟨c :: l₁, l₂, rfl, by rw [clash, if_pos hr, if_neg hl, hn]⟩
      · obtain ⟨l₁, l₂, rfl, hn⟩ := ih h
        exact ⟨c :: l₁, l₂, rfl, by rw [clash, if_neg hr, hn]⟩

theorem exists_split_of_clash (hn : ∀ a b, Nested (span a) (span b)) {o : Option β} {l : List β}
    (hs : (o.toList ++ l).Pairwise fun a b => Precedes (span a) (span b)) {a b : β}
    (h : clash span label o l = some (a, b)) :
    ∃ l₁ l₂, o.toList ++ l = l₁ ++ a :: l₂ ∧ ∀ c ∈ l₁, (span c).snd < (span a).fst := by
  induction l generalizing o with
  | nil => cases o <;> simp [clash] at h
  | cons c l ih =>
    cases o with
    | none => exact ih (o := some c) hs h
    | some o =>
      simp only [Option.toList_some, List.singleton_append] at hs ih ⊢
      have ho := List.pairwise_cons.mp hs
      have hoc := ho.1 c List.mem_cons_self
      rw [clash] at h
      split_ifs at h with hr hl
      · obtain ⟨rfl, rfl⟩ := Prod.mk.inj (Option.some.inj h)
        exact ⟨[], c :: l, rfl, by simp⟩
      · have hs' : (o :: l).Pairwise fun a b => Precedes (span a) (span b) :=
          hs.sublist (List.Sublist.cons_cons o (List.sublist_cons_self c l))
        obtain ⟨l₁, l₂, he, hlt⟩ := ih (o := some o) hs' h
        cases l₁ with
        | nil =>
          obtain ⟨rfl, rfl⟩ := List.cons.inj he
          exact ⟨[], c :: l, rfl, by simp⟩
        | cons d l₁ =>
          obtain ⟨rfl, rfl⟩ := List.cons.inj he
          have hc : (span c).snd < (span a).fst :=
            (hoc.le_of_fst_le (hn _ _) hr).2.trans_lt (hlt o List.mem_cons_self)
          refine ⟨o :: c :: l₁, l₂, rfl, ?_⟩
          simp only [List.forall_mem_cons] at hlt ⊢
          exact ⟨hlt.1, hc, hlt.2⟩
      · obtain ⟨l₁, l₂, he, hlt⟩ := ih (o := some c) ho.2 h
        have hca : (span c).fst ≤ (span a).fst := by
          cases l₁ with
          | nil => rw [(List.cons.inj he).1]
          | cons d l₁ =>
            obtain ⟨rfl, -⟩ := List.cons.inj he
            exact (span c).fst_le_snd.trans (hlt c List.mem_cons_self).le
        refine ⟨o :: l₁, l₂, congrArg (o :: ·) he, List.forall_mem_cons.mpr ⟨?_, hlt⟩⟩
        exact (not_le.mp hr).trans_le hca

/-- The first part of the first clash is widest: whatever meets it lies inside it. -/
theorem le_of_meets_of_clash (hn : ∀ a b, Nested (span a) (span b)) {l : List β}
    (hs : l.Pairwise fun a b => Precedes (span a) (span b)) {a b c : β}
    (h : clash span label none l = some (a, b)) (hc : c ∈ l) (hm : Meets (span c) (span a)) :
    span c ≤ span a := by
  obtain ⟨l₁, l₂, he, hlt⟩ := exists_split_of_clash hn (o := none) hs h
  obtain rfl : l = l₁ ++ a :: l₂ := he
  rcases List.mem_append.mp hc with hc | hc
  · exact absurd hm (not_meets_of_snd_lt (hlt c hc))
  · rcases List.mem_cons.mp hc with rfl | hc
    · exact le_rfl
    · have hac := (List.pairwise_cons.mp (List.pairwise_append.mp hs).2.1).1 c hc
      obtain ⟨x, hxc, hxa⟩ := hm
      exact hac.le_of_fst_le (hn _ _) (hxc.1.trans hxa.2)

end Sweep

end ClientAddr.Laminar
