import Mathlib.Data.List.Induction

/-! # Iterators with two ends

A lazy iterator yields items at either end, in any order of calls. It stands for
the list of the items that are left, and the adaptors that map, filter and
flatten it stand for the same operations on that list.
-/

namespace ClientAddr

variable {α β σ τ : Type}

def Pops (rest : σ → List α) (step : Option (α × σ)) (l : List α) : Prop :=
  match step with
  | none => l = []
  | some (a, s) => l = a :: rest s

/-- An iterator, and the items that are left in each of its states. -/
structure DoubleEnded (α : Type) where
  State : Type
  next : State → Option (α × State)
  nextBack : State → Option (α × State)
  rest : State → List α
  pops_next : ∀ s, Pops rest (next s) (rest s)
  pops_nextBack : ∀ s, Pops (fun s => (rest s).reverse) (nextBack s) (rest s).reverse

inductive End | front | back
  deriving DecidableEq, Repr

namespace DoubleEnded

def rev (it : DoubleEnded α) : DoubleEnded α where
  State := it.State
  next := it.nextBack
  nextBack := it.next
  rest s := (it.rest s).reverse
  pops_next := it.pops_nextBack
  pops_nextBack s := by simpa using it.pops_next s

section Steps

variable {it : DoubleEnded α} {s s' : it.State} {a : α}

theorem rest_of_next_none (h : it.next s = none) : it.rest s = [] := by
  have hp := it.pops_next s
  rwa [h] at hp

theorem rest_of_next (h : it.next s = some (a, s')) : it.rest s = a :: it.rest s' := by
  have hp := it.pops_next s
  rwa [h] at hp

theorem rest_of_nextBack_none (h : it.nextBack s = none) : it.rest s = [] := by
  have hp := it.pops_nextBack s
  rw [h] at hp
  exact List.reverse_eq_nil_iff.mp hp

theorem rest_of_nextBack (h : it.nextBack s = some (a, s')) : it.rest s = it.rest s' ++ [a] := by
  have hp := it.pops_nextBack s
  rw [h] at hp
  simpa using congrArg List.reverse hp

end Steps

section Calls

def call (it : DoubleEnded α) : End → it.State → Option (α × it.State)
  | .front => it.next
  | .back => it.nextBack

/-- What a run of calls returns, one answer for each call. -/
def calls (it : DoubleEnded α) : List End → it.State → List (Option α)
  | [], _ => []
  | e :: es, s =>
    match it.call e s with
    | none => none :: it.calls es s
    | some (a, s) => some a :: it.calls es s

/-- What is taken from a list, one item at the given end for each call. -/
def takeEnds : List End → List α → List (Option α)
  | [], _ => []
  | .front :: es, l => l.head? :: takeEnds es l.tail
  | .back :: es, l => l.getLast? :: takeEnds es l.dropLast

/-- Any run of calls, at the two ends in any order, takes what is taken from the list. -/
theorem calls_eq (it : DoubleEnded α) (es : List End) (s : it.State) :
    it.calls es s = takeEnds es (it.rest s) := by
  induction es generalizing s with
  | nil => rfl
  | cons e es ih =>
    cases e with
    | front =>
      cases h : it.next s with
      | none => simp [calls, call, takeEnds, h, ih, rest_of_next_none h]
      | some q => simp [calls, call, takeEnds, h, ih, rest_of_next h]
    | back =>
      cases h : it.nextBack s with
      | none => simp [calls, call, takeEnds, h, ih, rest_of_nextBack_none h]
      | some q => simp [calls, call, takeEnds, h, ih, rest_of_nextBack h]

end Calls

def ofList (α : Type) : DoubleEnded α where
  State := List α
  next
    | [] => none
    | a :: l => some (a, l)
  nextBack l := l.getLast?.map fun a => (a, l.dropLast)
  rest l := l
  pops_next l := by cases l <;> rfl
  pops_nextBack l := by
    induction l using List.reverseRecOn with
    | nil => rfl
    | append_singleton l a _ => simp [Pops]

section FilterMap

def filterMapNext (it : DoubleEnded α) (f : α → Option β) (s : it.State) :
    Option (β × it.State) :=
  match _h : it.next s with
  | none => none
  | some (a, s') =>
    match f a with
    | some b => some (b, s')
    | none => it.filterMapNext f s'
termination_by (it.rest s).length
decreasing_by simp [rest_of_next _h]

theorem pops_filterMapNext (it : DoubleEnded α) (f : α → Option β) (s : it.State) :
    Pops (fun s => (it.rest s).filterMap f) (it.filterMapNext f s) ((it.rest s).filterMap f) := by
  fun_induction filterMapNext it f s with
  | case1 s h => simp [Pops, rest_of_next_none h]
  | case2 s a s' h b hb => simp [Pops, rest_of_next h, hb]
  | case3 s a s' h hb ih => rwa [rest_of_next h, List.filterMap_cons_none hb]

def filterMap (it : DoubleEnded α) (f : α → Option β) : DoubleEnded β where
  State := it.State
  next := it.filterMapNext f
  nextBack := it.rev.filterMapNext f
  rest s := (it.rest s).filterMap f
  pops_next := it.pops_filterMapNext f
  pops_nextBack s := by simpa [rev] using it.rev.pops_filterMapNext f s

def map (it : DoubleEnded α) (f : α → β) : DoubleEnded β := it.filterMap fun a => some (f a)

def filter (it : DoubleEnded α) (p : α → Bool) : DoubleEnded α := it.filterMap (Option.guard p)

variable (it : DoubleEnded α) (f : α → Option β)

@[simp] theorem rest_filterMap (s : it.State) :
    (it.filterMap f).rest s = (it.rest s).filterMap f := rfl

@[simp] theorem rest_map (g : α → β) (s : it.State) : (it.map g).rest s = (it.rest s).map g :=
  congrFun List.filterMap_eq_map _

@[simp] theorem rest_filter (p : α → Bool) (s : it.State) :
    (it.filter p).rest s = (it.rest s).filter p :=
  congrFun List.filterMap_eq_filter _

end FilterMap

section FlatMap

/-- The inner iterators at the two ends, and the outer one between them. -/
structure FlatState (σ τ : Type) where
  front : Option τ
  outer : σ
  back : Option τ

def FlatState.rev (s : FlatState σ τ) : FlatState σ τ := ⟨s.back, s.outer, s.front⟩

/--
Take an item of the inner iterator at the front. When there is none, the outer iterator starts the
next one, and the one at the back comes last.
-/
def flatMapNext (outer : DoubleEnded α) (inner : DoubleEnded β) (start : α → inner.State)
    (s : FlatState outer.State inner.State) :
    Option (β × FlatState outer.State inner.State) :=
  match s.front.bind inner.next with
  | some (b, t) => some (b, { s with front := some t })
  | none =>
    match _h : outer.next s.outer with
    | some (a, o) => outer.flatMapNext inner start ⟨some (start a), o, s.back⟩
    | none => (s.back.bind inner.next).map fun (b, t) => (b, ⟨none, s.outer, some t⟩)
termination_by (outer.rest s.outer).length
decreasing_by simp [rest_of_next _h]

/-- The items of the front, then those that the outer iterator starts, then those of the back. -/
def flatRest (outer : DoubleEnded α) (inner : DoubleEnded β) (start : α → inner.State)
    (s : FlatState outer.State inner.State) : List β :=
  (s.front.map inner.rest).getD [] ++
    ((outer.rest s.outer).flatMap fun a => inner.rest (start a)) ++
    (s.back.map inner.rest).getD []

variable {inner : DoubleEnded β}

theorem rest_of_bind_none {t : Option inner.State} (h : t.bind inner.next = none) :
    (t.map inner.rest).getD [] = [] := by
  cases t with
  | none => rfl
  | some t => exact rest_of_next_none h

theorem rest_of_bind {t : Option inner.State} {b : β} {t' : inner.State}
    (h : t.bind inner.next = some (b, t')) : (t.map inner.rest).getD [] = b :: inner.rest t' := by
  cases t with
  | none => cases h
  | some t => exact rest_of_next h

variable (outer : DoubleEnded α) (inner : DoubleEnded β) (start : α → inner.State)

theorem pops_flatMapNext (s : FlatState outer.State inner.State) :
    Pops (outer.flatRest inner start) (outer.flatMapNext inner start s)
      (outer.flatRest inner start s) := by
  fun_induction flatMapNext outer inner start s with
  | case1 s b t h => simp [Pops, flatRest, rest_of_bind h]
  | case2 s h a o ho ih =>
    have hr : outer.flatRest inner start s =
        outer.flatRest inner start ⟨some (start a), o, s.back⟩ := by
      simp [flatRest, rest_of_bind_none h, rest_of_next ho]
    rwa [hr]
  | case3 s h ho =>
    have hr : outer.flatRest inner start s = (s.back.map inner.rest).getD [] := by
      simp [flatRest, rest_of_bind_none h, rest_of_next_none ho]
    rw [hr]
    cases hb : s.back.bind inner.next with
    | none => exact rest_of_bind_none hb
    | some q => simp [Pops, flatRest, rest_of_bind hb, rest_of_next_none ho]

theorem flatRest_rev (s : FlatState outer.State inner.State) :
    outer.rev.flatRest inner.rev start s.rev = (outer.flatRest inner start s).reverse := by
  have hend : ∀ t : Option inner.State,
      (t.map inner.rev.rest).getD [] = ((t.map inner.rest).getD []).reverse := by
    intro t
    cases t <;> rfl
  have hmid : (outer.rev.rest s.outer).flatMap (fun a => inner.rev.rest (start a)) =
      ((outer.rest s.outer).flatMap fun a => inner.rest (start a)).reverse :=
    List.reverse_flatMap.symm
  simp only [flatRest, FlatState.rev, hend, hmid, List.reverse_append, List.append_assoc]

def flatMap : DoubleEnded β where
  State := FlatState outer.State inner.State
  next := outer.flatMapNext inner start
  nextBack s := (outer.rev.flatMapNext inner.rev start s.rev).map fun (b, t) => (b, t.rev)
  rest := outer.flatRest inner start
  pops_next := pops_flatMapNext outer inner start
  pops_nextBack s := by
    have hp := pops_flatMapNext outer.rev inner.rev start s.rev
    rw [flatRest_rev] at hp
    cases h : outer.rev.flatMapNext inner.rev start s.rev with
    | none => rwa [h] at hp
    | some q =>
      rw [h] at hp
      exact hp.trans (congrArg (q.1 :: ·) (flatRest_rev outer inner start q.2.rev))

@[simp] theorem rest_flatMap (s : outer.State) :
    (outer.flatMap inner start).rest ⟨none, s, none⟩ =
      (outer.rest s).flatMap fun a => inner.rest (start a) := by
  simp [flatMap, flatRest]

end FlatMap

end DoubleEnded

end ClientAddr
