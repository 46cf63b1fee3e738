/-
# Arrays of `int` under checked access

An array is a list; an index is an `int`.  An access outside of the array, an `int` result
out of range and a loop that does not end are `Fault`s, so that a run that returns an
array has made none of them.

* `cell arr` : the contents as a family over the positions;
* `forDown`, `forUp` : the counting loops, with one invariant rule each.
-/
import Pungoo.Failing
import Pungoo.Shuffle
import Mathlib.Algebra.Group.Nat.Defs
import Mathlib.Data.Int.Notation
import Mathlib.Data.List.GetD
import Mathlib.Logic.Function.Basic

namespace IntArray

open Shuffle Failing

/-- What a run must not do. -/
inductive Fault
  | badAccess
  | overflow
  | outOfFuel
  deriving DecidableEq, Repr

/-- `INT_MAX`. -/
def intMax : ℤ := 2147483647

/-- `INT_MIN`. -/
def intMin : ℤ := -2147483648

/-- The result of an `int` operation. -/
def checked (x : ℤ) : Except Fault ℤ :=
  if intMin ≤ x ∧ x ≤ intMax then .ok x else .error .overflow

/-- `arr[i]`. -/
def read (arr : List ℤ) (i : ℤ) : Except Fault ℤ :=
  if 0 ≤ i ∧ i < arr.length then .ok (arr.getD i.toNat 0) else .error .badAccess

/-- `arr[i] = x`. -/
def write (arr : List ℤ) (i x : ℤ) : Except Fault (List ℤ) :=
  if 0 ≤ i ∧ i < arr.length then .ok (arr.set i.toNat x) else .error .badAccess

/-! ## Successful accesses -/

/-- The contents of the array. -/
def cell (arr : List ℤ) (k : ℕ) : ℤ := arr.getD k 0

/-- The array with the contents of two positions exchanged. -/
def exchange (arr : List ℤ) (i j : ℕ) : List ℤ := (arr.set i (cell arr j)).set j (cell arr i)

variable {arr : List ℤ} {i j k : ℕ} {x : ℤ} {σ : Type}

/-- A result above `INT_MAX` is undefined. -/
theorem checked_above (h : intMax < x) : checked x = .error .overflow :=
  if_neg fun hx => absurd hx.2 (not_le.mpr h)

/-- A result that is an `int` is what it is. -/
theorem checked_nonneg (h0 : 0 ≤ x) (hmax : x ≤ intMax) : checked x = .ok x :=
  if_pos ⟨(show intMin ≤ 0 by decide).trans h0, hmax⟩

/-- A read inside the array. -/
theorem read_eq (h : k < arr.length) : read arr k = .ok (cell arr k) := by
  unfold read
  rw [if_pos ⟨Int.natCast_nonneg k, by exact_mod_cast h⟩, Int.toNat_natCast, cell]

/-- A write inside the array. -/
theorem write_eq (h : k < arr.length) : write arr k x = .ok (arr.set k x) := by
  unfold write
  rw [if_pos ⟨Int.natCast_nonneg k, by exact_mod_cast h⟩, Int.toNat_natCast]

/-- A write changes one cell. -/
theorem cell_set (h : k < arr.length) : cell (arr.set k x) = Function.update (cell arr) k x := by
  funext m
  unfold cell
  rw [List.getD_eq_getElem?_getD, List.getElem?_set, Function.update_apply]
  by_cases hm : m = k
  · rw [if_pos hm.symm, if_pos hm, if_pos h]
    rfl
  · rw [if_neg (Ne.symm hm), if_neg hm, List.getD_eq_getElem?_getD]

@[simp] theorem length_exchange (arr : List ℤ) (i j : ℕ) :
    (exchange arr i j).length = arr.length := by
  unfold exchange
  rw [List.length_set, List.length_set]

/-- An exchange swaps two cells. -/
theorem cell_exchange (hi : i < arr.length) (hj : j < arr.length) :
    cell (exchange arr i j) = cell arr ∘ Equiv.swap i j := by
  unfold exchange
  rw [cell_set (by rw [List.length_set]; exact hj), cell_set hi]
  funext k
  rw [Function.update_apply, Function.update_apply]
  show _ = cell arr (Equiv.swap i j k)
  by_cases hkj : k = j
  · rw [if_pos hkj, hkj, Equiv.swap_apply_right]
  · rw [if_neg hkj]
    by_cases hki : k = i
    · rw [if_pos hki, hki, Equiv.swap_apply_left]
    · rw [if_neg hki, Equiv.swap_apply_of_ne_of_ne hki hkj]

theorem cell_exchange_left (hi : i < arr.length) (hj : j < arr.length) :
    cell (exchange arr i j) i = cell arr j := by
  rw [cell_exchange hi hj]
  exact congrArg (cell arr) (Equiv.swap_apply_left i j)

theorem cell_exchange_right (hi : i < arr.length) (hj : j < arr.length) :
    cell (exchange arr i j) j = cell arr i := by
  rw [cell_exchange hi hj]
  exact congrArg (cell arr) (Equiv.swap_apply_right i j)

theorem cell_exchange_other (hi : i < arr.length) (hj : j < arr.length) (hki : k ≠ i)
    (hkj : k ≠ j) : cell (exchange arr i j) k = cell arr k := by
  rw [cell_exchange hi hj]
  exact congrArg (cell arr) (Equiv.swap_apply_of_ne_of_ne hki hkj)

/-- Arrays shuffled within their length are permutations of each other. -/
theorem perm_of_shuffled {arr' : List ℤ} (hlen : arr'.length = arr.length)
    (h : Shuffled {k | k < arr.length} (cell arr) (cell arr')) : arr'.Perm arr :=
  Shuffled.perm hlen h

/-- An order of the contents is an order of the list. -/
theorem pairwise_of_cell {r : ℤ → ℤ → Prop}
    (h : ∀ i j, i < j → j < arr.length → r (cell arr i) (cell arr j)) : arr.Pairwise r := by
  rw [List.pairwise_iff_getElem]
  intro i j hi hj hij
  have hcell := h i j hij hj
  unfold cell at hcell
  rw [List.getD_eq_getElem _ _ hi, List.getD_eq_getElem _ _ hj] at hcell
  exact hcell

/-! ## Counting loops -/

/-- `count` passes of `for (int i = start; ...; --i)`. -/
def descend (body : ℤ → σ → Except Fault σ) : ℕ → ℤ → σ → Except Fault σ
  | 0, _, s => .ok s
  | count + 1, i, s => do
    let s ← body i s
    descend body count (i - 1) s

/-- `for (int i = start; i > stop; --i)`. -/
def forDown (start stop : ℤ) (body : ℤ → σ → Except Fault σ) (s : σ) : Except Fault σ :=
  descend body (start - stop).toNat start s

/-- `count` passes of `for (int i = start; ...; ++i)`. -/
def ascend (body : ℤ → σ → Except Fault σ) : ℕ → ℤ → σ → Except Fault σ
  | 0, _, s => .ok s
  | count + 1, i, s => do
    let s ← body i s
    ascend body count (i + 1) s

/-- `for (int i = start; i < stop; ++i)`. -/
def forUp (start stop : ℤ) (body : ℤ → σ → Except Fault σ) (s : σ) : Except Fault σ :=
  ascend body (stop - start).toNat start s

/-- What every round of a loop that counts down keeps, the loop keeps. -/
theorem descend_rule {I : ℤ → σ → Prop} {body : ℤ → σ → Except Fault σ} (count : ℕ) {i : ℤ}
    {s : σ} (hbody : ∀ m s, i - count < m → m ≤ i → I m s → ∃ t, body m s = .ok t ∧ I (m - 1) t)
    (h : I i s) : ∃ t, descend body count i s = .ok t ∧ I (i - count) t := by
  induction count generalizing i s with
  | zero => exact ⟨s, rfl, by simpa using h⟩
  | succ count ih =>
    obtain ⟨t, ht, hI⟩ := hbody i s (by omega) (le_refl i) h
    obtain ⟨t', ht', hI'⟩ := ih (fun m s h1 h2 => hbody m s (by omega) (by omega)) hI
    refine ⟨t', ?_, ?_⟩
    · rw [descend, ht, ok_bind, ht']
    · rw [show i - ((count + 1 : ℕ) : ℤ) = i - 1 - count by omega]
      exact hI'

/-- What every round of a loop that counts up keeps, the loop keeps. -/
theorem ascend_rule {I : ℤ → σ → Prop} {body : ℤ → σ → Except Fault σ} (count : ℕ) {i : ℤ}
    {s : σ} (hbody : ∀ m s, i ≤ m → m < i + count → I m s → ∃ t, body m s = .ok t ∧ I (m + 1) t)
    (h : I i s) : ∃ t, ascend body count i s = .ok t ∧ I (i + count) t := by
  induction count generalizing i s with
  | zero => exact ⟨s, rfl, by simpa using h⟩
  | succ count ih =>
    obtain ⟨t, ht, hI⟩ := hbody i s (le_refl i) (by omega) h
    obtain ⟨t', ht', hI'⟩ := ih (fun m s h1 h2 => hbody m s (by omega) (by omega)) hI
    refine ⟨t', ?_, ?_⟩
    · rw [ascend, ht, ok_bind, ht']
    · rw [show i + ((count + 1 : ℕ) : ℤ) = i + 1 + count by omega]
      exact hI'

/-- The invariant rule of `forDown`: the loop ends, at or below its bound. -/
theorem forDown_rule {I : ℤ → σ → Prop} {body : ℤ → σ → Except Fault σ} {start stop : ℤ} {s : σ}
    (hbody : ∀ i s, stop < i → i ≤ start → I i s → ∃ t, body i s = .ok t ∧ I (i - 1) t)
    (h : I start s) : ∃ t, forDown start stop body s = .ok t ∧ ∃ i ≤ stop, I i t := by
  obtain ⟨t, ht, hI⟩ := descend_rule (start - stop).toNat
    (fun i s h1 h2 => hbody i s (by omega) h2) h
  exact ⟨t, ht, _, by omega, hI⟩

/-- A loop that is entered makes a pass and goes on below it. -/
theorem forDown_eq {body : ℤ → σ → Except Fault σ} {start stop : ℤ} (h : stop < start) (s : σ) :
    forDown start stop body s = body start s >>= forDown (start - 1) stop body := by
  unfold forDown
  rw [show (start - stop).toNat = (start - 1 - stop).toNat + 1 by omega, descend]

/-- The invariant rule of `forUp`: the loop ends, at or above its bound. -/
theorem forUp_rule {I : ℤ → σ → Prop} {body : ℤ → σ → Except Fault σ} {start stop : ℤ} {s : σ}
    (hbody : ∀ i s, start ≤ i → i < stop → I i s → ∃ t, body i s = .ok t ∧ I (i + 1) t)
    (h : I start s) : ∃ t, forUp start stop body s = .ok t ∧ ∃ i ≥ stop, I i t := by
  obtain ⟨t, ht, hI⟩ := ascend_rule (stop - start).toNat
    (fun i s h1 h2 => hbody i s h1 (by omega)) h
  exact ⟨t, ht, _, by omega, hI⟩

end IntArray
