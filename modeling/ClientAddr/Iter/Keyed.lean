import Mathlib.Data.List.Basic
import Mathlib.Data.Option.Basic

/-! # Machines by key

A machine that passes its inputs on answers with what the machine behind it answers. Where
that machine keeps its keys apart, the answers under one key do not depend on the
inputs under another.
-/

namespace ClientAddr

variable {ι ι' ι'' ο ο' κ : Type}

structure Machine (ι ο : Type) where
  State : Type
  init : State
  step : ι → State → ο × State

namespace Machine

def run (M : Machine ι ο) : List ι → M.State → List ο × M.State
  | [], s => ([], s)
  | i :: is, s =>
    let (o, t) := M.step i s
    let (os, u) := M.run is t
    (o :: os, u)

/-- The outputs to the inputs that satisfy a condition. -/
def answers (p : ι → Bool) (M : Machine ι ο) (is : List ι) (s : M.State) : List ο :=
  ((is.zip (M.run is s).1).filter fun (i, _) => p i).map Prod.snd

variable {M : Machine ι ο} {N : Machine ι' ο'} {p : ι → Bool} {i : ι} {is : List ι} {s : M.State}

theorem run_cons (M : Machine ι ο) (i : ι) (is : List ι) (s : M.State) :
    M.run (i :: is) s = ((M.step i s).1 :: (M.run is (M.step i s).2).1,
      (M.run is (M.step i s).2).2) := rfl

theorem answers_cons_of_pos (hi : p i = true) :
    M.answers p (i :: is) s = (M.step i s).1 :: M.answers p is (M.step i s).2 := by
  simp [answers, run_cons, hi]

theorem answers_cons_of_neg (hi : p i = false) :
    M.answers p (i :: is) s = M.answers p is (M.step i s).2 := by
  simp [answers, run_cons, hi]

theorem forall_mem_answers {P : ο → Prop} (h : ∀ i s, p i = true → P (M.step i s).1) :
    ∀ o ∈ M.answers p is s, P o := by
  induction is generalizing s with
  | nil => exact fun _ ho => absurd ho List.not_mem_nil
  | cons i is ih =>
    cases hi : p i with
    | false =>
      rw [answers_cons_of_neg hi]
      exact ih
    | true =>
      rw [answers_cons_of_pos hi]
      exact List.forall_mem_cons.mpr ⟨h i s hi, ih⟩

/--
A machine passes some of its inputs on, as `g` says, and makes its outputs of the other machine's.
Its other inputs do not change what the states have in common.
-/
structure Projects (M : Machine ι ο) (N : Machine ι' ο') (g : ι → Option ι') (out : ι → ο' → ο)
    (R : M.State → N.State → Prop) : Prop where
  hidden : ∀ i s t, g i = none → R s t → R (M.step i s).2 t
  shown : ∀ i j s t, g i = some j → R s t →
    (M.step i s).1 = out i (N.step j t).1 ∧ R (M.step i s).2 (N.step j t).2

namespace Projects

variable {g : ι → Option ι'} {out : ι → ο' → ο} {R : M.State → N.State → Prop} {t : N.State}

theorem run_state (h : M.Projects N g out R) (hst : R s t) :
    R (M.run is s).2 (N.run (is.filterMap g) t).2 := by
  induction is generalizing s t with
  | nil => exact hst
  | cons i is ih =>
    cases hi : g i with
    | none =>
      rw [List.filterMap_cons_none hi]
      exact ih (h.hidden i s t hi hst)
    | some j =>
      rw [List.filterMap_cons_some hi]
      exact ih (h.shown i j s t hi hst).2

/-- The outputs to the inputs that are passed on are made of the other machine's run. -/
theorem answers_eq (h : M.Projects N g out R) (hst : R s t) :
    M.answers (fun i => (g i).isSome) is s =
      List.zipWith out (is.filter fun i => (g i).isSome) (N.run (is.filterMap g) t).1 := by
  induction is generalizing s t with
  | nil => rfl
  | cons i is ih =>
    cases hi : g i with
    | none =>
      rw [answers_cons_of_neg (by simp [hi]), List.filter_cons_of_neg (by simp [hi]),
        List.filterMap_cons_none hi]
      exact ih (h.hidden i s t hi hst)
    | some j =>
      obtain ⟨ho, hr⟩ := h.shown i j s t hi hst
      rw [answers_cons_of_pos (by simp [hi]), List.filter_cons_of_pos (by simp [hi]),
        List.filterMap_cons_some hi, run_cons, List.zipWith_cons_cons, ho, ih hr]

/-- Inputs that are not passed on have no effect on the answers to those that are. -/
theorem answers_congr (h : M.Projects N g out R) (hst : R s t) {q : ι → Bool}
    (hq : ∀ i, q i = false → g i = none) {is is' : List ι} (hf : is.filter q = is'.filter q) :
    M.answers (fun i => (g i).isSome) is s = M.answers (fun i => (g i).isSome) is' s := by
  have hmap : ∀ l : List ι, l.filterMap g = (l.filter q).filterMap g := by
    intro l
    rw [List.filterMap_filter]
    apply List.filterMap_congr
    intro i _
    cases hi : q i with
    | false => simp [hq i hi]
    | true => simp
  have hfilter : ∀ l : List ι, (l.filter fun i => (g i).isSome) =
      (l.filter q).filter fun i => (g i).isSome := by
    intro l
    rw [List.filter_filter]
    apply List.filter_congr
    intro i _
    cases hi : q i with
    | false => simp [hq i hi]
    | true => simp
  rw [h.answers_eq hst, h.answers_eq hst, hmap, hfilter, hf, ← hmap, ← hfilter]

theorem trans {L : Machine ι'' ο'} {g' : ι' → Option ι''} {R' : N.State → L.State → Prop}
    (h : M.Projects N g out R) (h' : N.Projects L g' (fun _ o => o) R') :
    M.Projects L (fun i => (g i).bind g') out fun s u => ∃ t, R s t ∧ R' t u where
  hidden := by
    rintro i s u hi ⟨t, hst, htu⟩
    cases hg : g i with
    | none => exact ⟨t, h.hidden i s t hg hst, htu⟩
    | some j =>
      rw [hg, Option.bind_some] at hi
      exact ⟨_, (h.shown i j s t hg hst).2, h'.hidden j t u hi htu⟩
  shown := by
    rintro i l s u hi ⟨t, hst, htu⟩
    obtain ⟨j, hg, hl⟩ := Option.bind_eq_some_iff.mp hi
    obtain ⟨ho, hr⟩ := h.shown i j s t hg hst
    obtain ⟨ho', hr'⟩ := h'.shown j l t u hl htu
    exact ⟨ho.trans (congrArg (out i) ho'), _, hr, hr'⟩

end Projects

section Keys

variable {K : Machine (κ × ι) ο} {Cell : Type} {cell : κ → K.State → Cell}

/--
The machine keeps a cell for each key. An input is answered from the cell under its key, and
changes no other.
-/
structure KeepsApart (K : Machine (κ × ι) ο) (cell : κ → K.State → Cell) : Prop where
  other : ∀ k k' i s, k' ≠ k → cell k (K.step (k', i) s).2 = cell k s
  own : ∀ k i s t, cell k s = cell k t →
    (K.step (k, i) s).1 = (K.step (k, i) t).1 ∧
      cell k (K.step (k, i) s).2 = cell k (K.step (k, i) t).2

/-- Under one key the machine does what it does to the inputs under that key alone. -/
theorem KeepsApart.projects [DecidableEq κ] (h : K.KeepsApart cell) (k : κ) :
    K.Projects K (Option.guard fun input => input.1 = k) (fun _ o => o)
      fun s t => cell k s = cell k t where
  hidden := by
    rintro ⟨k', i⟩ s t hg hst
    have hne : k' ≠ k := by simpa using hg
    exact (h.other k k' i s hne).trans hst
  shown := by
    rintro ⟨k', i⟩ input s t hg hst
    obtain ⟨rfl, hk⟩ := Option.guard_eq_some_iff.mp hg
    obtain rfl : k' = k := of_decide_eq_true hk
    exact h.own k' i s t hst

end Keys

end Machine

end ClientAddr
