/-
# `countBattleships` of `cpp/leetcode/419.BattleshipsInABoard.cpp`

The row pass counts the horizontal runs of at least two `x` and erases them; the column
pass counts the vertical runs on what is left.  Both passes follow a run with the same
three-valued flag, `runFlag`.

`count` and the length of the first row are `int`s in the source.  A count above `INT_MAX` is
undefined, and the length is narrowed, so that the column pass does not see the columns of a
board of width `2 ^ 31`.

* `rowPass_eq` : what the row pass erases and what it counts in one row.
* `countBattleships_eq` : the board afterwards, and the result as two sums over the board.
-/
import Mathlib.Algebra.BigOperators.Group.Finset.Basic
import Mathlib.Data.List.GetD
import Mathlib.Data.Nat.Count

namespace Battleships

/-! ## The code -/

/-- A `vector< vector<char> >`. -/
abbrev Grid := List (List Char)

/-- `INT_MAX`. -/
def intMax : ℕ := 2147483647

/-- `++count`, which is undefined at `INT_MAX`. -/
def increment (count : ℕ) : Option ℕ :=
  if count < intMax then some (count + 1) else none

/-- `int len = size`, the narrowing of a `size_t`. -/
def toInt (size : ℕ) : ℤ := (size : ℤ).bmod (2 ^ 32)

/-- The variables of the row pass; `pre` is the column of `pre_coit`. -/
structure RowState where
  row : List Char
  flag : ℕ
  pre : ℕ
  count : ℕ

/-- The body of the inner loop of the row pass, with `coit` at column `j`. -/
def rowStep (s : RowState) (j : ℕ) : Option RowState :=
  if s.row.getD j '.' = 'x' then
    if s.flag = 0 then some { s with flag := 1, pre := j }
    else if s.flag = 1 then do
      let count ← increment s.count
      return { s with row := (s.row.set s.pre '.').set j '.', flag := 2, count := count }
    else if s.flag = 2 then some { s with row := s.row.set j '.' }
    else some s
  else some { s with flag := 0 }

/-- The row pass on one row. -/
def rowPass (row : List Char) (count : ℕ) : Option RowState :=
  (List.range row.length).foldlM rowStep ⟨row, 0, 0, count⟩

/-- The row pass. -/
def rowsPass : Grid → ℕ → Option (Grid × ℕ)
  | [], count => some ([], count)
  | row :: rows, count => do
    let s ← rowPass row count
    let rest ← rowsPass rows s.count
    return (s.row :: rest.1, rest.2)

/-- The body of the inner loop of the column pass, on `flag` and `count`, with `it` at row
`i`; `none` is also an access behind the end of a row. -/
def columnStep (board : Grid) (offset : ℕ) (s : ℕ × ℕ) (i : ℕ) : Option (ℕ × ℕ) := do
  let row ← board[i]?
  let c ← row[offset]?
  if c = 'x' then
    if s.1 = 0 then do
      let count ← increment s.2
      return (1, count)
    else if s.1 = 1 then return (2, s.2)
    else return s
  else return (0, s.2)

/-- The column pass on one column. -/
def columnPass (board : Grid) (count offset : ℕ) : Option ℕ := do
  let s ← (List.range board.length).foldlM (columnStep board offset) (0, count)
  return s.2

/-- The column pass; `none` for an empty board, whose `begin()` cannot be dereferenced. -/
def columnsPass : Grid → ℕ → Option ℕ
  | [], _ => none
  | firstRow :: rows, count =>
    let len := toInt firstRow.length
    (List.range len.toNat).foldlM (columnPass (firstRow :: rows)) count

/-- `countBattleships(board)`: the board afterwards and the result; `none` is undefined. -/
def countBattleships (board : Grid) : Option (Grid × ℕ) := do
  let (board, count) ← rowsPass board 0
  let count ← columnsPass board count
  return (board, count)

/-! ## Loops over positions -/

/-- An invariant of a loop that can fail, also of the failure. -/
theorem foldlM_range_rule {σ : Type*} {f : σ → ℕ → Option σ} {I : ℕ → Option σ → Prop} {s : σ}
    (n : ℕ) (hstep : ∀ i s, i < n → I i (some s) → I (i + 1) (f s i))
    (hnone : ∀ i, i < n → I i none → I (i + 1) none) (h : I 0 (some s)) :
    I n ((List.range n).foldlM f s) := by
  induction n with
  | zero => exact h
  | succ n ih =>
    have hn := ih (fun i s hi => hstep i s (Nat.lt_succ_of_lt hi))
      fun i hi => hnone i (Nat.lt_succ_of_lt hi)
    rw [List.range_succ, List.foldlM_append]
    cases hfold : (List.range n).foldlM f s with
    | none =>
      rw [hfold] at hn
      exact hnone n (Nat.lt_succ_self n) hn
    | some t =>
      rw [hfold] at hn
      have ht := hstep n t (Nat.lt_succ_self n) hn
      show I (n + 1) ((f t n).bind some)
      rwa [Option.bind_fun_some]

/-- A value whose count is an `int`. -/
def bounded {σ : Type} (count : ℕ) (s : σ) : Option σ :=
  if count ≤ intMax then some s else none

section Bounded

variable {σ τ : Type} {count : ℕ} {s : σ}

theorem bounded_of_le (h : count ≤ intMax) : bounded count s = some s := if_pos h

theorem bounded_of_not_le (h : ¬ count ≤ intMax) : bounded count s = none := if_neg h

/-- What follows a bounded count is bounded. -/
theorem bounded_bind (f : σ → τ) :
    (bounded count s >>= fun s => some (f s)) = bounded count (f s) := by
  by_cases h : count ≤ intMax
  · rw [bounded_of_le h, bounded_of_le h]
    rfl
  · rw [bounded_of_not_le h, bounded_of_not_le h]
    rfl

theorem bounded_eq_some_iff {t : σ} : bounded count s = some t ↔ count ≤ intMax ∧ s = t := by
  unfold bounded
  rw [Option.ite_none_right_eq_some, Option.some.injEq]

end Bounded

/-- A loop that goes through the states `I`, until a count `c` is no `int`. -/
theorem foldlM_range_eq {σ : Type} {c : σ → ℕ} {f : σ → ℕ → Option σ} {I : ℕ → σ} (n : ℕ)
    (hstep : ∀ i, i < n → c (I i) ≤ intMax → f (I i) i = bounded (c (I (i + 1))) (I (i + 1)))
    (hmono : ∀ i, i < n → c (I i) ≤ c (I (i + 1))) (h : c (I 0) ≤ intMax) :
    (List.range n).foldlM f (I 0) = bounded (c (I n)) (I n) := by
  apply foldlM_range_rule (I := fun i o => o = bounded (c (I i)) (I i)) n
  · intro i s hi hs
    by_cases hcount : c (I i) ≤ intMax
    · rw [bounded_of_le hcount] at hs
      rw [Option.some.inj hs, hstep i hi hcount]
    · rw [bounded_of_not_le hcount] at hs
      cases hs
  · intro i hi hs
    by_cases hcount : c (I i) ≤ intMax
    · rw [bounded_of_le hcount] at hs
      cases hs
    · rw [bounded_of_not_le fun h => hcount (Nat.le_trans (hmono i hi) h)]
  · exact (bounded_of_le h).symm

/-! ## Runs -/

section Runs

variable (x : ℕ → Prop) [DecidablePred x]

/-- The position starts a run. -/
def Starts (k : ℕ) : Prop := x k ∧ (0 < k → ¬ x (k - 1))

/-- The position starts a run of at least two. -/
def StartsLong (k : ℕ) : Prop := Starts x k ∧ x (k + 1)

/-- The position is in a run of at least two. -/
def InLong (k : ℕ) : Prop := x k ∧ (x (k + 1) ∨ 0 < k ∧ x (k - 1))

instance : DecidablePred (Starts x) := fun _ => inferInstanceAs (Decidable (_ ∧ _))

instance : DecidablePred (StartsLong x) := fun _ => inferInstanceAs (Decidable (_ ∧ _))

instance : DecidablePred (InLong x) := fun _ => inferInstanceAs (Decidable (_ ∧ _))

/-- The flag of both passes behind the first `j` positions. -/
def runFlag : ℕ → ℕ
  | 0 => 0
  | j + 1 => if x j then if runFlag j = 0 then 1 else 2 else 0

variable {x} {j : ℕ}

/-- The flag is zero outside of a run. -/
theorem runFlag_eq_zero_iff : runFlag x j = 0 ↔ (0 < j → ¬ x (j - 1)) := by
  cases j with
  | zero => exact iff_of_true rfl fun h => absurd h (lt_irrefl 0)
  | succ j =>
    rw [runFlag, Nat.add_sub_cancel]
    by_cases hx : x j
    · rw [if_pos hx]
      refine iff_of_false ?_ fun h => h (Nat.succ_pos j) hx
      split_ifs <;> decide
    · rw [if_neg hx]
      exact iff_of_true rfl fun _ => hx

/-- The flag is one behind the first cell of a run. -/
theorem runFlag_eq_one_iff : runFlag x j = 1 ↔ 0 < j ∧ Starts x (j - 1) := by
  cases j with
  | zero => exact iff_of_false Nat.zero_ne_one fun h => absurd h.1 (lt_irrefl 0)
  | succ j =>
    rw [runFlag, Nat.add_sub_cancel, Starts, ← runFlag_eq_zero_iff]
    by_cases hx : x j
    · rw [if_pos hx]
      by_cases h0 : runFlag x j = 0
      · rw [if_pos h0]
        exact iff_of_true rfl ⟨Nat.succ_pos j, hx, h0⟩
      · rw [if_neg h0]
        exact iff_of_false (by decide) fun h => h0 h.2.2
    · rw [if_neg hx]
      exact iff_of_false (by decide) fun h => hx h.2.1

/-- The flag has three values. -/
theorem runFlag_cases (x : ℕ → Prop) [DecidablePred x] (j : ℕ) :
    runFlag x j = 0 ∨ runFlag x j = 1 ∨ runFlag x j = 2 := by
  cases j with
  | zero => exact Or.inl rfl
  | succ j =>
    rw [runFlag]
    split_ifs
    · exact Or.inr (Or.inl rfl)
    · exact Or.inr (Or.inr rfl)
    · exact Or.inl rfl

/-- A position starts a run when the flag is `0` there. -/
theorem starts_iff : Starts x j ↔ x j ∧ runFlag x j = 0 := by
  rw [runFlag_eq_zero_iff]
  rfl

end Runs

/-! ## The row pass -/

/-- The cell of a row at a column holds an `x`. -/
def IsX (row : List Char) (k : ℕ) : Prop := row.getD k '.' = 'x'

instance (row : List Char) : DecidablePred (IsX row) :=
  fun k => inferInstanceAs (Decidable (row.getD k '.' = 'x'))

/-- The cells that the row pass has erased when it comes to column `j`. -/
def Erased (x : ℕ → Prop) (j k : ℕ) : Prop :=
  k < j ∧ x k ∧ (k + 1 < j ∧ x (k + 1) ∨ 0 < k ∧ x (k - 1))

instance (x : ℕ → Prop) [DecidablePred x] (j : ℕ) : DecidablePred (Erased x j) :=
  fun _ => inferInstanceAs (Decidable (_ ∧ _))

/-- The row pass on `row` has come to column `j`. -/
structure RowInv (row : List Char) (count j : ℕ) (s : RowState) : Prop where
  length_eq : s.row.length = row.length
  cell_eq : ∀ k, s.row.getD k '.' = if Erased (IsX row) j k then '.' else row.getD k '.'
  flag_eq : s.flag = runFlag (IsX row) j
  pre_eq : s.flag = 1 → s.pre + 1 = j
  count_eq : s.count = count + Nat.count (StartsLong (IsX row)) (j - 1)

/-- The row pass has come to column `j`, or has counted too many runs before it. -/
def RowOutcome (row : List Char) (count j : ℕ) : Option RowState → Prop
  | some s => RowInv row count j s ∧ s.count ≤ intMax
  | none => intMax < count + Nat.count (StartsLong (IsX row)) (j - 1)

/-- The row without its runs of at least two. -/
def eraseLong (row : List Char) : List Char :=
  (List.range row.length).map fun k => if InLong (IsX row) k then '.' else row.getD k '.'

variable {row : List Char} {board : Grid} {count i j k w : ℕ}

/-- A ship is on the board. -/
theorem isX_lt (h : IsX row k) : k < row.length := by
  by_contra hk
  unfold IsX at h
  rw [List.getD_eq_default _ _ (not_lt.mp hk)] at h
  exact absurd h (by decide)

/-- The invariant holds in front of a row. -/
theorem rowInv_start (row : List Char) (count : ℕ) : RowInv row count 0 ⟨row, 0, 0, count⟩ := by
  refine ⟨rfl, ?_, rfl, fun h => absurd h Nat.zero_ne_one, rfl⟩
  intro k
  rw [if_neg]
  rintro ⟨hk, -⟩
  exact absurd hk (Nat.not_lt_zero k)

/-- The runs counted so far, one column later. -/
theorem count_startsLong_succ (x : ℕ → Prop) [DecidablePred x] (j : ℕ) :
    Nat.count (StartsLong x) (j + 1 - 1)
      = Nat.count (StartsLong x) (j - 1) + if runFlag x j = 1 ∧ x j then 1 else 0 := by
  cases j with
  | zero => rfl
  | succ j =>
    have hiff : runFlag x (j + 1) = 1 ∧ x (j + 1) ↔ StartsLong x j := by
      rw [runFlag_eq_one_iff, Nat.add_sub_cancel]
      exact ⟨fun h => ⟨h.1.2, h.2⟩, fun h => ⟨⟨Nat.succ_pos j, h.1⟩, h.2⟩⟩
    rw [Nat.add_sub_cancel, Nat.add_sub_cancel, Nat.count_succ]
    congr 1
    exact if_congr hiff.symm rfl rfl

/-- The cells erased one column later. -/
theorem erased_succ_iff (x : ℕ → Prop) (j k : ℕ) :
    Erased x (j + 1) k ↔
      Erased x j k ∨ x j ∧ (k = j ∧ 0 < j ∧ x (j - 1) ∨ k + 1 = j ∧ x k) := by
  unfold Erased
  constructor
  · rintro ⟨h1, h2, ⟨h3, h4⟩ | h3⟩
    · rcases Nat.eq_or_lt_of_le (Nat.le_of_lt_succ h3) with heq | hlt
      · exact Or.inr ⟨heq ▸ h4, Or.inr ⟨heq, h2⟩⟩
      · exact Or.inl ⟨by omega, h2, Or.inl ⟨hlt, h4⟩⟩
    · rcases Nat.eq_or_lt_of_le (Nat.le_of_lt_succ h1) with rfl | hlt
      · exact Or.inr ⟨h2, Or.inl ⟨rfl, h3⟩⟩
      · exact Or.inl ⟨hlt, h2, Or.inr h3⟩
  · rintro (⟨h1, h2, h3⟩ | ⟨h1, ⟨rfl, h2, h3⟩ | ⟨rfl, h2⟩⟩)
    · refine ⟨by omega, h2, ?_⟩
      rcases h3 with h3 | h3
      · exact Or.inl ⟨by omega, h3.2⟩
      · exact Or.inr h3
    · exact ⟨Nat.lt_succ_self k, h1, Or.inr ⟨h2, h3⟩⟩
    · exact ⟨by omega, h2, Or.inl ⟨by omega, h1⟩⟩

/-- Writing a dot, at a column of the row or behind it. -/
theorem getD_set_dot (row : List Char) (p k : ℕ) :
    (row.set p '.').getD k '.' = if k = p then '.' else row.getD k '.' := by
  rw [List.getD_eq_getElem?_getD, List.getElem?_set, List.getD_eq_getElem?_getD]
  by_cases h : k = p
  · rw [if_pos h, if_pos h.symm]
    split_ifs <;> rfl
  · rw [if_neg h, if_neg (Ne.symm h)]

/-- Water ends the run. -/
theorem rowInv_water {s : RowState} (h : RowInv row count j s) (hx : ¬ IsX row j) :
    RowInv row count (j + 1) { s with flag := 0 } := by
  refine ⟨h.length_eq, ?_, ?_, fun h => absurd h Nat.zero_ne_one, ?_⟩
  · intro k
    rw [h.cell_eq]
    refine if_congr ?_ rfl rfl
    rw [erased_succ_iff]
    exact ⟨Or.inl, fun h' => h'.resolve_right fun h'' => hx h''.1⟩
  · rw [runFlag, if_neg hx]
  · rw [count_startsLong_succ, if_neg fun h' => hx h'.2]
    exact h.count_eq

/-- The first cell of a run is kept for now. -/
theorem rowInv_first {s : RowState} (h : RowInv row count j s) (hx : IsX row j)
    (hflag : runFlag (IsX row) j = 0) :
    RowInv row count (j + 1) { s with flag := 1, pre := j } := by
  refine ⟨h.length_eq, ?_, ?_, fun _ => rfl, ?_⟩
  · intro k
    rw [h.cell_eq]
    refine if_congr ?_ rfl rfl
    rw [erased_succ_iff]
    refine ⟨Or.inl, fun h' => h'.resolve_right ?_⟩
    have hprev := runFlag_eq_zero_iff.mp hflag
    rintro ⟨-, ⟨-, hj, hx'⟩ | ⟨rfl, hx'⟩⟩
    · exact hprev hj hx'
    · exact hprev (Nat.succ_pos k) hx'
  · rw [runFlag, if_pos hx, if_pos hflag]
  · rw [count_startsLong_succ, hflag, if_neg fun h' => Nat.zero_ne_one h'.1]
    exact h.count_eq

/-- The second cell of a run: the run is counted, and both cells are erased. -/
theorem rowInv_second {s : RowState} (h : RowInv row count j s) (hx : IsX row j)
    (hflag : runFlag (IsX row) j = 1) :
    RowInv row count (j + 1)
      { s with row := (s.row.set s.pre '.').set j '.', flag := 2, count := s.count + 1 } := by
  obtain ⟨hj, hstart⟩ := runFlag_eq_one_iff.mp hflag
  have hpre := h.pre_eq (h.flag_eq.trans hflag)
  refine ⟨?_, ?_, ?_, fun h => absurd h (Nat.succ_ne_self 1), ?_⟩
  · rw [List.length_set, List.length_set]
    exact h.length_eq
  · intro k
    have hiff : Erased (IsX row) (j + 1) k ↔ k = j ∨ k = s.pre ∨ Erased (IsX row) j k := by
      rw [erased_succ_iff]
      constructor
      · rintro (he | ⟨-, ⟨hk, -⟩ | ⟨hk, -⟩⟩)
        · exact Or.inr (Or.inr he)
        · exact Or.inl hk
        · exact Or.inr (Or.inl (by omega))
      · rintro (hk | hk | he)
        · exact Or.inr ⟨hx, Or.inl ⟨hk, hj, hstart.1⟩⟩
        · refine Or.inr ⟨hx, Or.inr ⟨by omega, ?_⟩⟩
          rw [show k = j - 1 by omega]
          exact hstart.1
        · exact Or.inl he
    rw [getD_set_dot, getD_set_dot, h.cell_eq, if_congr hiff rfl rfl, ite_or, ite_or]
  · rw [runFlag, if_pos hx, hflag, if_neg (by decide)]
  · rw [count_startsLong_succ, if_pos ⟨hflag, hx⟩, ← Nat.add_assoc, ← h.count_eq]

/-- Every further cell of a run is erased. -/
theorem rowInv_more {s : RowState} (h : RowInv row count j s) (hx : IsX row j)
    (hflag : runFlag (IsX row) j = 2) :
    RowInv row count (j + 1) { s with row := s.row.set j '.' } := by
  have hne : runFlag (IsX row) j ≠ 1 := by omega
  obtain ⟨hj, hprev⟩ : 0 < j ∧ IsX row (j - 1) := by
    by_contra hno
    have h0 := runFlag_eq_zero_iff.mpr fun hj hx' => hno ⟨hj, hx'⟩
    omega
  refine ⟨?_, ?_, ?_, ?_, ?_⟩
  · rw [List.length_set]
    exact h.length_eq
  · intro k
    have hiff : Erased (IsX row) (j + 1) k ↔ k = j ∨ Erased (IsX row) j k := by
      rw [erased_succ_iff]
      constructor
      · rintro (he | ⟨-, ⟨hk, -⟩ | ⟨hk, hxk⟩⟩)
        · exact Or.inr he
        · exact Or.inl hk
        · -- the cell before is not the first of the run, so it is erased already
          refine Or.inr ⟨by omega, hxk, Or.inr ?_⟩
          by_contra hno
          apply hne
          rw [runFlag_eq_one_iff, ← hk]
          exact ⟨Nat.succ_pos k, hxk, fun hk0 hx' => hno ⟨hk0, hx'⟩⟩
      · rintro (hk | he)
        · exact Or.inr ⟨hx, Or.inl ⟨hk, hj, hprev⟩⟩
        · exact Or.inl he
    rw [getD_set_dot, h.cell_eq, if_congr hiff rfl rfl, ite_or]
  · rw [h.flag_eq, runFlag, if_pos hx, hflag, if_neg (by decide)]
  · intro hs
    exact absurd (h.flag_eq.symm.trans hs) hne
  · rw [count_startsLong_succ, if_neg fun h' => hne h'.1]
    exact h.count_eq

/-- One cell of a row keeps the invariant, or overflows the count. -/
theorem rowStep_outcome {s : RowState} (h : RowInv row count j s) (hcount : s.count ≤ intMax) :
    RowOutcome row count (j + 1) (rowStep s j) := by
  have hcell : s.row.getD j '.' = row.getD j '.' := by
    rw [h.cell_eq, if_neg]
    rintro ⟨hlt, -⟩
    exact lt_irrefl j hlt
  unfold rowStep
  rw [hcell]
  by_cases hx : row.getD j '.' = 'x'
  · rw [if_pos hx]
    rcases runFlag_cases (IsX row) j with hflag | hflag | hflag
    · rw [if_pos (h.flag_eq.trans hflag)]
      exact ⟨rowInv_first h hx hflag, hcount⟩
    · have hs := h.flag_eq.trans hflag
      have hnext := rowInv_second h hx hflag
      rw [if_neg (by omega), if_pos hs]
      unfold increment
      by_cases hlt : s.count < intMax
      · rw [if_pos hlt]
        exact ⟨hnext, hlt⟩
      · -- the run is one too many
        rw [if_neg hlt]
        exact Nat.lt_of_lt_of_eq (Nat.lt_succ_of_le (not_lt.mp hlt)) hnext.count_eq
    · have hs := h.flag_eq.trans hflag
      rw [if_neg (by omega), if_neg (by omega), if_pos hs]
      exact ⟨rowInv_more h hx hflag, hcount⟩
  · rw [if_neg hx]
    exact ⟨rowInv_water h hx, hcount⟩

/-- Behind an overflow nothing follows. -/
theorem rowOutcome_none (h : RowOutcome row count j none) : RowOutcome row count (j + 1) none :=
  Nat.lt_of_lt_of_le h (Nat.add_le_add_left (Nat.count_monotone _ (Nat.sub_le_sub_right
    (Nat.le_succ j) 1)) count)

/-- No long run starts in the last column. -/
theorem count_startsLong_pred (row : List Char) :
    Nat.count (StartsLong (IsX row)) (row.length - 1)
      = Nat.count (StartsLong (IsX row)) row.length := by
  cases hlen : row.length with
  | zero => rfl
  | succ n =>
    have hno : ¬ StartsLong (IsX row) n := by
      intro hlong
      have hlt := isX_lt hlong.2
      omega
    rw [Nat.add_sub_cancel, Nat.count_succ, if_neg hno, Nat.add_zero]

theorem length_eraseLong (row : List Char) : (eraseLong row).length = row.length := by
  unfold eraseLong
  rw [List.length_map, List.length_range]

/-- The cells of a row without its long runs. -/
theorem getD_eraseLong (row : List Char) (k : ℕ) :
    (eraseLong row).getD k '.' = if InLong (IsX row) k then '.' else row.getD k '.' := by
  by_cases hk : k < row.length
  · rw [List.getD_eq_getElem _ _ (Nat.lt_of_lt_of_eq hk (length_eraseLong row).symm)]
    unfold eraseLong
    rw [List.getElem_map, List.getElem_range]
  · have hle := not_lt.mp hk
    rw [List.getD_eq_default _ _ (le_of_eq_of_le (length_eraseLong row) hle),
      List.getD_eq_default _ _ hle, ite_self]

/-- When the row pass has come to the end of a row. -/
theorem RowInv.row_eq {s : RowState} (h : RowInv row count row.length s) :
    s.row = eraseLong row := by
  apply List.ext_getElem (h.length_eq.trans (length_eraseLong row).symm)
  intro k hs hrow
  rw [← List.getD_eq_getElem _ '.' hs, ← List.getD_eq_getElem _ '.' hrow, h.cell_eq,
    getD_eraseLong]
  refine if_congr ?_ rfl rfl
  unfold Erased InLong
  constructor
  · rintro ⟨-, h1, h2⟩
    exact ⟨h1, h2.imp_left And.right⟩
  · rintro ⟨h1, h2⟩
    exact ⟨isX_lt h1, h1, h2.imp_left fun hx => ⟨isX_lt hx, hx⟩⟩

/-- **The row pass** erases the runs of at least two and counts each of them once. -/
theorem rowPass_eq (row : List Char) (hcount : count ≤ intMax) :
    (rowPass row count).map (fun s => (s.row, s.count))
      = bounded (count + Nat.count (StartsLong (IsX row)) row.length)
        (eraseLong row, count + Nat.count (StartsLong (IsX row)) row.length) := by
  have h : RowOutcome row count row.length (rowPass row count) :=
    foldlM_range_rule row.length (fun j s _ hs => rowStep_outcome hs.1 hs.2)
      (fun j _ => rowOutcome_none) ⟨rowInv_start row count, hcount⟩
  rw [← count_startsLong_pred]
  cases hs : rowPass row count with
  | none =>
    rw [hs] at h
    exact (bounded_of_not_le (not_le.mpr h)).symm
  | some s =>
    rw [hs] at h
    rw [bounded_of_le (le_of_eq_of_le h.1.count_eq.symm h.2)]
    show some (s.row, s.count) = _
    rw [h.1.row_eq, h.1.count_eq]

/-! ## The whole board -/

/-- The cell holds an `x`. -/
def XAt (board : Grid) (i j : ℕ) : Prop := IsX (board.getD i []) j

instance (board : Grid) (i : ℕ) : DecidablePred (XAt board i) :=
  inferInstanceAs (DecidablePred (IsX (board.getD i [])))

/-- The cells of a column that hold an `x`. -/
def ColumnX (board : Grid) (j i : ℕ) : Prop := XAt board i j

instance (board : Grid) (j : ℕ) : DecidablePred (ColumnX board j) :=
  fun i => inferInstanceAs (Decidable (XAt board i j))

/-- All rows have length `w`. -/
def Rectangular (board : Grid) (w : ℕ) : Prop := ∀ i < board.length, (board.getD i []).length = w

theorem xAt_lt (h : XAt board i j) : i < board.length := by
  by_contra hi
  unfold XAt at h
  rw [List.getD_eq_default _ _ (not_lt.mp hi)] at h
  exact absurd (isX_lt h) (Nat.not_lt_zero j)

/-- The cell of a board. -/
def cellAt (board : Grid) (i j : ℕ) : Char := (board.getD i []).getD j '.'

/-- The board without the runs of at least two of its rows. -/
def erase (board : Grid) : Grid := board.map eraseLong

/-- The runs of at least two in the rows. -/
def rowRuns (board : Grid) : ℕ :=
  ∑ i ∈ Finset.range board.length, Nat.count (StartsLong (XAt board i)) (board.getD i []).length

theorem length_erase (board : Grid) : (erase board).length = board.length :=
  List.length_map eraseLong

theorem getD_erase (board : Grid) (i : ℕ) :
    (erase board).getD i [] = eraseLong (board.getD i []) :=
  List.getD_map board [] eraseLong

/-- The cells of a board without its long runs. -/
theorem cellAt_erase (board : Grid) (i j : ℕ) :
    cellAt (erase board) i j = if InLong (XAt board i) j then '.' else cellAt board i j := by
  unfold cellAt
  rw [getD_erase]
  exact getD_eraseLong _ j

/-- The ships of a board without its long runs. -/
theorem erase_xAt (board : Grid) (i j : ℕ) :
    XAt (erase board) i j ↔ XAt board i j ∧ ¬ InLong (XAt board i) j := by
  show cellAt (erase board) i j = 'x' ↔ _
  rw [cellAt_erase]
  by_cases h : InLong (XAt board i) j
  · rw [if_pos h]
    exact iff_of_false (by decide) fun h' => h'.2 h
  · rw [if_neg h]
    exact ⟨fun hx => ⟨hx, h⟩, And.left⟩

theorem rectangular_erase (h : Rectangular board w) : Rectangular (erase board) w := by
  intro i hi
  rw [getD_erase, length_eraseLong]
  exact h i (Nat.lt_of_lt_of_eq hi (length_erase board))

/-- The long runs of the first row and of the others. -/
theorem rowRuns_cons (row : List Char) (rows : Grid) :
    rowRuns (row :: rows) = Nat.count (StartsLong (IsX row)) row.length + rowRuns rows := by
  unfold rowRuns
  rw [List.length_cons, Finset.sum_range_succ', Nat.add_comm]
  rfl

/-- **The row pass on a board.** -/
theorem rowsPass_eq (board : Grid) (hcount : count ≤ intMax) :
    rowsPass board count
      = bounded (count + rowRuns board) (erase board, count + rowRuns board) := by
  induction board generalizing count with
  | nil => exact (bounded_of_le hcount).symm
  | cons row rows ih =>
    have hrow := rowPass_eq row hcount
    rw [rowRuns_cons, ← Nat.add_assoc]
    unfold rowsPass
    by_cases hle : count + Nat.count (StartsLong (IsX row)) row.length ≤ intMax
    · rw [bounded_of_le hle] at hrow
      obtain ⟨s, hs, heq⟩ := Option.map_eq_some_iff.mp hrow
      obtain ⟨hrow, hcount⟩ := Prod.mk.inj heq
      rw [hs]
      show (rowsPass rows s.count >>= fun rest => some (s.row :: rest.1, rest.2)) = _
      rw [ih (hcount ▸ hle), hcount, hrow]
      exact bounded_bind _
    · have hno : ¬ count + Nat.count (StartsLong (IsX row)) row.length + rowRuns rows ≤ intMax :=
        fun h => hle (Nat.le_trans (Nat.le_add_right _ _) h)
      rw [bounded_of_not_le hle] at hrow
      rw [Option.map_eq_none_iff.mp hrow, bounded_of_not_le hno]
      rfl

/-- One cell of a column counts if a run starts there. -/
theorem columnStep_eq {offset : ℕ} (hrect : Rectangular board w) (hi : i < board.length)
    (hoffset : offset < w)
    (hcount : count + Nat.count (Starts (ColumnX board offset)) i ≤ intMax) :
    columnStep board offset
        (runFlag (ColumnX board offset) i, count + Nat.count (Starts (ColumnX board offset)) i) i
      = bounded (count + Nat.count (Starts (ColumnX board offset)) (i + 1))
          (runFlag (ColumnX board offset) (i + 1),
            count + Nat.count (Starts (ColumnX board offset)) (i + 1)) := by
  have hlen := hrect i hi
  rw [List.getD_eq_getElem _ _ hi] at hlen
  have hcol : offset < board[i].length := by omega
  have hx : ColumnX board offset i ↔ board[i][offset] = 'x' := by
    show (board.getD i []).getD offset '.' = 'x' ↔ _
    rw [List.getD_eq_getElem _ _ hi, List.getD_eq_getElem _ _ hcol]
  unfold columnStep
  rw [List.getElem?_eq_getElem hi]
  show (board[i][offset]? >>= fun c => _) = _
  rw [List.getElem?_eq_getElem hcol]
  show (if board[i][offset] = 'x' then _ else _) = _
  rw [runFlag, Nat.count_succ, if_congr starts_iff rfl rfl]
  by_cases h : ColumnX board offset i
  · rw [if_pos (hx.mp h), if_pos h]
    rcases runFlag_cases (ColumnX board offset) i with hf | hf | hf
    · -- a new run is counted
      rw [if_pos hf, if_pos hf, if_pos ⟨h, hf⟩]
      unfold increment
      dsimp only
      by_cases hlt : count + Nat.count (Starts (ColumnX board offset)) i < intMax
      · rw [if_pos hlt]
        exact (bounded_of_le hlt).symm
      · rw [if_neg hlt]
        exact (bounded_of_not_le hlt).symm
    · have hne : ¬ runFlag (ColumnX board offset) i = 0 := by omega
      rw [if_neg hne, if_pos hf, if_neg hne, if_neg fun h' => hne h'.2]
      exact (bounded_of_le hcount).symm
    · have hne : ¬ runFlag (ColumnX board offset) i = 0 := by omega
      have hne' : ¬ runFlag (ColumnX board offset) i = 1 := by omega
      rw [if_neg hne, if_neg hne', if_neg hne, if_neg fun h' => hne h'.2, hf]
      exact (bounded_of_le hcount).symm
  · rw [if_neg (fun h' => h (hx.mpr h')), if_neg h, if_neg fun h' => h h'.1]
    exact (bounded_of_le hcount).symm

/-- A column adds the runs that start in it. -/
theorem columnPass_eq {offset : ℕ} (hrect : Rectangular board w) (hoffset : offset < w)
    (hcount : count ≤ intMax) :
    columnPass board count offset
      = bounded (count + Nat.count (Starts (ColumnX board offset)) board.length)
        (count + Nat.count (Starts (ColumnX board offset)) board.length) := by
  have hfold := foldlM_range_eq (c := Prod.snd) (I := fun i => (runFlag (ColumnX board offset) i,
      count + Nat.count (Starts (ColumnX board offset)) i)) board.length
    (fun i hi hle => columnStep_eq hrect hi hoffset hle)
    (fun i _ => Nat.add_le_add_left (Nat.count_monotone _ (Nat.le_succ i)) count) hcount
  unfold columnPass
  exact (congrArg (fun o => o >>= _) hfold).trans (bounded_bind Prod.snd)

/-- The narrowed length is not above the length. -/
theorem toInt_toNat_le (w : ℕ) : (toInt w).toNat ≤ w := by
  unfold toInt
  rw [Int.bmod_def]
  split_ifs <;> omega

/-- A length that is an `int` is not changed. -/
theorem toInt_of_le (h : w ≤ intMax) : toInt w = w := by
  unfold intMax at h
  unfold toInt
  rw [Int.bmod_def]
  split_ifs <;> omega

/-- The runs in the columns that the column pass looks at. -/
def columnRuns (board : Grid) (w : ℕ) : ℕ :=
  ∑ j ∈ Finset.range (toInt w).toNat, Nat.count (Starts (ColumnX board j)) board.length

/-- The column pass adds the runs of all columns. -/
theorem columnsPass_eq (hne : board ≠ []) (hrect : Rectangular board w) (hcount : count ≤ intMax) :
    columnsPass board count
      = bounded (count + columnRuns board w) (count + columnRuns board w) := by
  cases board with
  | nil => exact absurd rfl hne
  | cons firstRow rows =>
    have hw : firstRow.length = w := hrect 0 (Nat.succ_pos _)
    have hmono (m : ℕ) (f : ℕ → ℕ) : count + ∑ j ∈ Finset.range m, f j
        ≤ count + ∑ j ∈ Finset.range (m + 1), f j := by
      rw [Finset.sum_range_succ, ← Nat.add_assoc]
      exact Nat.le_add_right _ _
    unfold columnsPass
    dsimp only
    rw [hw]
    refine foldlM_range_eq (c := fun count => count) (I := fun m => count + ∑ j ∈ Finset.range m,
      Nat.count (Starts (ColumnX (firstRow :: rows) j)) (firstRow :: rows).length)
      (toInt w).toNat ?_ (fun m _ => hmono m _) hcount
    intro m hm hle
    have hmw := Nat.lt_of_lt_of_le hm (toInt_toNat_le w)
    rw [columnPass_eq hrect hmw hle, Finset.sum_range_succ, Nat.add_assoc]

/-- **The result** on a rectangular board that is not empty: the long runs of the rows and the
runs of the columns of what is left, when there are at most `INT_MAX` of them. -/
theorem countBattleships_eq (hne : board ≠ []) (hrect : Rectangular board w) :
    countBattleships board = bounded (rowRuns board + columnRuns (erase board) w)
      (erase board, rowRuns board + columnRuns (erase board) w) := by
  have hrows := rowsPass_eq board (Nat.zero_le intMax)
  rw [Nat.zero_add] at hrows
  have hcons : erase board ≠ [] := fun h => hne (List.map_eq_nil_iff.mp h)
  unfold countBattleships
  rw [hrows]
  by_cases hle : rowRuns board ≤ intMax
  · have hcolumns := columnsPass_eq hcons (rectangular_erase hrect) hle
    rw [bounded_of_le hle, Option.bind_eq_bind, Option.bind_some]
    dsimp only
    rw [hcolumns]
    exact bounded_bind fun count => (erase board, count)
  · have hno : ¬ rowRuns board + columnRuns (erase board) w ≤ intMax :=
      fun h => hle (Nat.le_trans (Nat.le_add_right _ _) h)
    rw [bounded_of_not_le hle, bounded_of_not_le hno]
    rfl

end Battleships
