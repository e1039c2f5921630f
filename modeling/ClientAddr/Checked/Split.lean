import ClientAddr.Model.Headers
import ClientAddr.Text.Utf8

/-! # The splitter over bytes

The source keeps its place in a string as a byte offset, and a slice off a
character boundary would panic. The splitter over bytes checks every slice. It
follows the splitter over characters call by call, and no check fails.
-/

namespace ClientAddr

open Text

/-- What could keep a call from returning. -/
inductive Fault | slice | index | endless
  deriving DecidableEq, Repr

/-- A result, unless a check fails on the way. -/
abbrev Checked (α : Type) := Except Fault α

namespace Checked

@[simp] theorem ok_bind {α β : Type} (x : α) (f : α → Checked β) : (Except.ok x >>= f) = f x := rfl

@[simp] theorem pure_eq_ok {α : Type} (x : α) : (pure x : Checked α) = .ok x := rfl

def sliceFrom (t : Text) (start : ℕ) : Checked Text :=
  match splitAtByte t start with
  | some (_, rest) => .ok rest
  | none => .error .slice

def sliceTo (t : Text) (stop : ℕ) : Checked Text :=
  match splitAtByte t stop with
  | some (item, _) => .ok item
  | none => .error .slice

def slice (t : Text) (start stop : ℕ) : Checked Text :=
  match byteSlice t start stop with
  | some item => .ok item
  | none => .error .slice

variable {a b t p r : Text} {d : Char}

@[simp] theorem sliceFrom_append (a b : Text) : sliceFrom (a ++ b) (byteLen a) = .ok b := by
  simp [sliceFrom]

@[simp] theorem sliceTo_append (a b : Text) : sliceTo (a ++ b) (byteLen a) = .ok a := by
  simp [sliceTo]

@[simp] theorem slice_append (a t b : Text) :
    slice (a ++ t ++ b) (byteLen a) (byteLen a + byteLen t) = .ok t := by
  simp only [slice, byteSlice_append]

/-- Split by a delimiter outside quoted strings, with the place kept as a byte offset. -/
structure SplitQuoted where
  input : Text
  delimiter : Char
  start : Option ℕ

namespace SplitQuoted

def new (input : Text) (delimiter : Char) : SplitQuoted := ⟨input, delimiter, some 0⟩

def find (delimiter : Char) (inQuotes escaped : Bool) : List (ℕ × Char) → Option (ℕ × Char)
  | [] => none
  | (offset, ch) :: rest =>
    if escaped then find delimiter inQuotes false rest
    else if inQuotes ∧ ch = '\\' then find delimiter inQuotes true rest
    else if ch = '"' then find delimiter (!inQuotes) false rest
    else if ch = delimiter ∧ ¬ inQuotes then some (offset, ch)
    else find delimiter inQuotes false rest

def next (s : SplitQuoted) : Checked (Option (Text × SplitQuoted)) :=
  match s.start with
  | none => .ok none
  | some start => do
    let rest ← sliceFrom s.input start
    match find s.delimiter false false (charIndices 0 rest) with
    | some (offset, ch) =>
      let stop := start + offset
      let item ← slice s.input start stop
      return some (trim item, { s with start := some (stop + ch.utf8Size) })
    | none =>
      let item ← sliceFrom s.input start
      return some (trim item, { s with start := none })

/-- The items that up to `fuel` calls of `next` return. -/
def run : ℕ → SplitQuoted → Checked (List Text)
  | 0, _ => .ok []
  | fuel + 1, s => do
    match ← s.next with
    | none => return []
    | some (item, s) => return item :: (← run fuel s)

theorem find_charIndices (n o : ℕ) (q e : Bool) (t : Text) :
    (ClientAddr.SplitQuoted.find d n q e t = none ∧ find d q e (charIndices o t) = none) ∨
      ∃ p r, t = p ++ d :: r ∧ ClientAddr.SplitQuoted.find d n q e t = some (n + p.length) ∧
        find d q e (charIndices o t) = some (o + byteLen p, d) := by
  induction t generalizing n o q e with
  | nil => exact Or.inl ⟨rfl, rfl⟩
  | cons c t ih =>
    have later : ∀ q e, (ClientAddr.SplitQuoted.find d (n + 1) q e t = none ∧
          find d q e (charIndices (o + c.utf8Size) t) = none) ∨
        ∃ p r, c :: t = p ++ d :: r ∧
          ClientAddr.SplitQuoted.find d (n + 1) q e t = some (n + p.length) ∧
          find d q e (charIndices (o + c.utf8Size) t) = some (o + byteLen p, d) := by
      intro q e
      rcases ih (n + 1) (o + c.utf8Size) q e with h | ⟨p, r, rfl, hn, ho⟩
      · exact Or.inl h
      · refine Or.inr ⟨c :: p, r, rfl, ?_, ?_⟩
        · rw [hn, List.length_cons, add_assoc, add_comm 1]
        · rw [ho, byteLen_cons, add_assoc]
    rw [charIndices, ClientAddr.SplitQuoted.find, find]
    split_ifs with he hb hq hd
    · exact later q false
    · exact later q true
    · exact later (!q) false
    · exact Or.inr ⟨[], t, by simp [hd.1], by simp, by simp [hd.1]⟩
    · exact later q false

/-- The two splitters stand at one place of one text. -/
inductive Follows : SplitQuoted → ClientAddr.SplitQuoted → Prop
  | live (seen rest : Text) (d : Char) :
    Follows ⟨seen ++ rest, d, some (byteLen seen)⟩ ⟨seen ++ rest, d, some seen.length⟩
  | done (input : Text) (d : Char) : Follows ⟨input, d, none⟩ ⟨input, d, none⟩

theorem follows_new (t : Text) (d : Char) : Follows (new t d) (.new t d) := .live [] t d

theorem Follows.next {b : SplitQuoted} {s : ClientAddr.SplitQuoted} (h : Follows b s) :
    (s.next = none ∧ b.next = .ok none) ∨
      ∃ item b' s', s.next = some (item, s') ∧ b.next = .ok (some (item, b')) ∧
        Follows b' s' := by
  cases h with
  | done input d => exact Or.inl ⟨rfl, rfl⟩
  | live seen rest d =>
    refine Or.inr ?_
    rcases find_charIndices (d := d) 0 0 false false rest with ⟨hn, ho⟩ | ⟨p, r, rfl, hn, ho⟩
    · refine ⟨trim rest, ⟨seen ++ rest, d, none⟩, ⟨seen ++ rest, d, none⟩, ?_, ?_, .done _ _⟩
      · simp [ClientAddr.SplitQuoted.next, hn]
      · simp [SplitQuoted.next, ho]
    · have happ : seen ++ (p ++ d :: r) = (seen ++ p ++ [d]) ++ r := by simp
      refine ⟨trim p, ⟨(seen ++ p ++ [d]) ++ r, d, some (byteLen (seen ++ p ++ [d]))⟩,
        ⟨(seen ++ p ++ [d]) ++ r, d, some (seen ++ p ++ [d]).length⟩, ?_, ?_, .live _ _ _⟩
      · simp [ClientAddr.SplitQuoted.next, hn]
        omega
      · have hslice : slice (seen ++ (p ++ d :: r)) (byteLen seen) (byteLen seen + byteLen p) =
            .ok p := by
          rw [← List.append_assoc]
          exact slice_append seen p (d :: r)
        simp [SplitQuoted.next, ho, hslice]
        omega

/-- Over bytes no check fails, and every call returns what it returns over characters. -/
theorem Follows.run_eq {b : SplitQuoted} {s : ClientAddr.SplitQuoted} (h : Follows b s) (n : ℕ) :
    b.run n = .ok (s.run n) := by
  induction n generalizing b s with
  | zero => rfl
  | succ n ih =>
    rcases h.next with ⟨hs, hb⟩ | ⟨item, b', s', hs, hb, h'⟩
    · simp [run, ClientAddr.SplitQuoted.run, hs, hb]
    · simp [run, ClientAddr.SplitQuoted.run, hs, hb, ih h']

/-- The iterator returns these items, one at each call, and ends. -/
inductive Serves : SplitQuoted → List Text → Prop
  | nil {b : SplitQuoted} : b.next = .ok none → Serves b []
  | cons {b b' : SplitQuoted} {item : Text} {items : List Text} :
    b.next = .ok (some (item, b')) → Serves b' items → Serves b (item :: items)

/-- A bound on the calls that still return an item. -/
def remaining (s : ClientAddr.SplitQuoted) : ℕ :=
  match s.start with
  | none => 0
  | some start => s.input.length - start + 1

theorem remaining_lt {s s' : ClientAddr.SplitQuoted} {item : Text}
    (h : s.next = some (item, s')) : remaining s' < remaining s := by
  obtain ⟨input, d, start⟩ := s
  cases start with
  | none => cases h
  | some start =>
    simp only [ClientAddr.SplitQuoted.next] at h
    rcases find_charIndices (d := d) 0 0 false false (input.drop start) with
      ⟨hn, -⟩ | ⟨p, r, hp, hn, -⟩
    · simp only [hn, Option.some.injEq, Prod.mk.injEq] at h
      rw [← h.2]
      exact Nat.succ_pos _
    · simp only [hn, Option.some.injEq, Prod.mk.injEq] at h
      have hlen := congrArg List.length hp
      simp only [List.length_drop, List.length_append, List.length_cons] at hlen
      rw [← h.2]
      simp only [remaining]
      omega

theorem Follows.serves {b : SplitQuoted} {s : ClientAddr.SplitQuoted} (h : Follows b s) {n : ℕ}
    (hn : remaining s ≤ n) : Serves b (s.run n) := by
  induction n generalizing b s with
  | zero =>
    cases h with
    | live seen rest d => exact absurd hn (Nat.not_succ_le_zero _)
    | done input d => exact .nil rfl
  | succ n ih =>
    rcases h.next with ⟨hs, hb⟩ | ⟨item, b', s', hs, hb, h'⟩
    · simpa only [ClientAddr.SplitQuoted.run, hs] using Serves.nil hb
    · have hlt := remaining_lt hs
      simpa only [ClientAddr.SplitQuoted.run, hs] using Serves.cons hb (ih h' (by omega))

theorem serves_new (t : Text) (d : Char) :
    Serves (new t d) (ClientAddr.SplitQuoted.new t d).items :=
  (follows_new t d).serves le_rfl

/-- Splitting over bytes never fails, ends, and gives the items of the splitter over characters. -/
theorem split_over_bytes (t : Text) (d : Char) :
    (∀ n, (new t d).run n = .ok ((ClientAddr.SplitQuoted.new t d).run n)) ∧
      Serves (new t d) (ClientAddr.SplitQuoted.new t d).items :=
  ⟨(follows_new t d).run_eq, serves_new t d⟩

end SplitQuoted

end Checked

end ClientAddr
