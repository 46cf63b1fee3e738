/-
# The quicksort of `cpp/sort/quicksort.cpp`

`partition` moves two pointers towards each other.  The pivot stays at the left end until
they meet and is put between the two parts then; equal elements go to the left part.  The
pointers and the pivot stay between the ends of the range, so what is computed from them is not
checked here (`partition_checked`).

* `partition_spec` : `partition` ends with the range split around the pivot, and never
  prints its `how ?`.
* `quicksort_ascending` : `quicksort` sorts every array.
-/
import Pungoo.IntArray

namespace Quicksort

open Shuffle IntArray Failing

/-! ## The code -/

/-- `while (i < j && arr[j] > number) --j;` -/
def lowerJ (arr : List ℤ) (number i : ℤ) : ℕ → ℤ → Except Fault ℤ
  | 0, _ => .error .outOfFuel
  | fuel + 1, j =>
    if i < j then do
      let aj ← read arr j
      if aj > number then lowerJ arr number i fuel (j - 1) else return j
    else
      return j

/-- `while (i < j && arr[i] <= number) ++i;` -/
def raiseI (arr : List ℤ) (number j : ℤ) : ℕ → ℤ → Except Fault ℤ
  | 0, _ => .error .outOfFuel
  | fuel + 1, i =>
    if i < j then do
      let ai ← read arr i
      if ai ≤ number then raiseI arr number j fuel (i + 1) else return i
    else
      return i

/-- The variables of `partition`; `how` counts the messages `how ?`. -/
structure State where
  arr : List ℤ
  i : ℤ
  j : ℤ
  pivot : ℤ
  how : ℕ
  deriving DecidableEq, Repr

/-- The body of the loop of `partition`. -/
def pass (number : ℤ) (s : State) : Except Fault State := do
  let j ← lowerJ s.arr number s.i ((s.j - s.i).toNat + 1) s.j
  let i ← raiseI s.arr number j ((j - s.i).toNat + 1) s.i
  if i < j then
    let temp ← read s.arr i
    let aj ← read s.arr j
    let arr ← write s.arr i aj
    let arr ← write arr j temp
    return ⟨arr, i, j, s.pivot, s.how⟩
  else if i = j then
    if i ≠ s.pivot then
      let ai ← read s.arr i
      let arr ← write s.arr s.pivot ai
      let arr ← write arr i number
      return ⟨arr, i, j, i, s.how⟩
    else
      return ⟨s.arr, i, j, s.pivot, s.how⟩
  else
    return ⟨s.arr, i, j, s.pivot, s.how + 1⟩

/-- `while (i < j)`. -/
def partitionLoop (number : ℤ) : ℕ → State → Except Fault State
  | 0, _ => .error .outOfFuel
  | fuel + 1, s =>
    if s.i < s.j then do
      let s ← pass number s
      partitionLoop number fuel s
    else
      return s

/-- `partition(arr, l, r)`, with all its variables at the end; it returns `pivot`. -/
def partition (arr : List ℤ) (l r : ℤ) : Except Fault State := do
  let number ← read arr l
  partitionLoop number ((r - l).toNat + 1) ⟨arr, l, r, l, 0⟩

/-- `sort(arr, l, r)`; `fuel` bounds the depth of the recursion. -/
def sort : ℕ → List ℤ → ℤ → ℤ → Except Fault (List ℤ)
  | 0, _, _, _ => .error .outOfFuel
  | fuel + 1, arr, l, r =>
    if l < r then do
      let s ← partition arr l r
      let arr ← sort fuel s.arr l (s.pivot - 1)
      sort fuel arr (s.pivot + 1) r
    else
      return arr

/-- `quicksort(arr, len)`. -/
def quicksort (arr : List ℤ) (len : ℤ) : Except Fault (List ℤ) :=
  sort (len.toNat + 1) arr 0 (len - 1)

/-! ## The inner loops -/

variable {arr arr₀ arr' : List ℤ} {number : ℤ} {l r m i j p : ℕ}

/-- `j` stops at `i`, or at the last element that is not larger. -/
theorem lowerJ_spec (fuel : ℕ) (hfuel : j < fuel + i) (hij : i ≤ j) (hj : j < arr.length) :
    ∃ j' : ℕ, lowerJ arr number i fuel j = .ok (j' : ℤ) ∧ i ≤ j' ∧ j' ≤ j ∧
      (∀ k, j' < k → k ≤ j → number < cell arr k) ∧ (j' = i ∨ cell arr j' ≤ number) := by
  induction fuel generalizing j with
  | zero => omega
  | succ fuel ih =>
    rcases Nat.eq_or_lt_of_le hij with rfl | hlt
    · refine ⟨i, ?_, le_refl i, le_refl i, fun k h1 h2 => by omega, Or.inl rfl⟩
      rw [lowerJ, if_neg (lt_irrefl _)]
      rfl
    · rw [lowerJ, if_pos (Int.ofNat_lt.mpr hlt), read_eq hj, ok_bind]
      by_cases h : cell arr j > number
      · rw [if_pos h, show (j : ℤ) - 1 = ((j - 1 : ℕ) : ℤ) by omega]
        obtain ⟨j', hrun, h1, h2, hlarge, hstop⟩ := ih (j := j - 1) (by omega) (by omega) (by omega)
        refine ⟨j', hrun, h1, by omega, ?_, hstop⟩
        intro k hk hkj
        rcases Nat.eq_or_lt_of_le hkj with rfl | hkj'
        · exact h
        · exact hlarge k hk (by omega)
      · rw [if_neg h]
        exact ⟨j, rfl, hij, le_refl j, fun k h1 h2 => by omega, Or.inr (not_lt.mp h)⟩

/-- `i` stops at `j`, or at the first larger element. -/
theorem raiseI_spec (fuel : ℕ) (hfuel : j < fuel + i) (hij : i ≤ j) (hj : j < arr.length) :
    ∃ i' : ℕ, raiseI arr number j fuel i = .ok (i' : ℤ) ∧ i ≤ i' ∧ i' ≤ j ∧
      (∀ k, i ≤ k → k < i' → cell arr k ≤ number) ∧ (i' = j ∨ number < cell arr i') := by
  induction fuel generalizing i with
  | zero => omega
  | succ fuel ih =>
    rcases Nat.eq_or_lt_of_le hij with rfl | hlt
    · refine ⟨i, ?_, le_refl i, le_refl i, fun k h1 h2 => by omega, Or.inl rfl⟩
      rw [raiseI, if_neg (lt_irrefl _)]
      rfl
    · rw [raiseI, if_pos (Int.ofNat_lt.mpr hlt), read_eq (by omega), ok_bind]
      by_cases h : cell arr i ≤ number
      · rw [if_pos h, show (i : ℤ) + 1 = ((i + 1 : ℕ) : ℤ) by omega]
        obtain ⟨i', hrun, h1, h2, hsmall, hstop⟩ := ih (i := i + 1) (by omega) (by omega)
        refine ⟨i', hrun, by omega, h2, ?_, hstop⟩
        intro k hk hki
        rcases Nat.eq_or_lt_of_le hk with rfl | hk'
        · exact h
        · exact hsmall k (by omega) hki
      · rw [if_neg h]
        exact ⟨i, rfl, le_refl i, hij, fun k h1 h2 => by omega, Or.inr (not_le.mp h)⟩

/-! ## The loop of `partition` -/

/-- Between the passes: the pivot is still at `l`, the elements up to `i` are not larger and
those behind `j` are larger. -/
structure Parting (arr₀ : List ℤ) (l r : ℕ) (arr : List ℤ) (i j : ℕ) : Prop where
  l_le : l ≤ i
  i_le : i ≤ j
  j_le : j ≤ r
  length_eq : arr.length = arr₀.length
  shuffled : Shuffled {k | l ≤ k ∧ k ≤ r} (cell arr₀) (cell arr)
  cell_l : cell arr l = cell arr₀ l
  small : ∀ k, l ≤ k → k ≤ i → cell arr k ≤ cell arr₀ l
  large : ∀ k, j < k → k ≤ r → cell arr₀ l < cell arr k

/-- The range is split around the pivot, which is now at `p`. -/
structure Parted (arr₀ : List ℤ) (l r : ℕ) (arr : List ℤ) (p : ℕ) : Prop where
  l_le : l ≤ p
  p_le : p ≤ r
  length_eq : arr.length = arr₀.length
  shuffled : Shuffled {k | l ≤ k ∧ k ≤ r} (cell arr₀) (cell arr)
  cell_p : cell arr p = cell arr₀ l
  small : ∀ k, l ≤ k → k < p → cell arr k ≤ cell arr p
  large : ∀ k, p < k → k ≤ r → cell arr p < cell arr k

theorem parting_start (hl : l < r) : Parting arr l r arr l r := by
  refine ⟨le_refl l, Nat.le_of_lt hl, le_refl r, rfl, Shuffled.refl _ _, rfl, ?_, ?_⟩
  · intro k h1 h2
    rw [Nat.le_antisymm h2 h1]
  · intro k h1 h2
    omega

/-- Where the inner loops of a pass stop. -/
structure Stopped (arr₀ : List ℤ) (l r : ℕ) (arr : List ℤ) (i j i' j' : ℕ) : Prop where
  i_le : i ≤ i'
  i_le_j : i' ≤ j'
  j_le : j' ≤ j
  progress : i' < j' → i < i'
  small : ∀ k, l ≤ k → k < i' → cell arr k ≤ cell arr₀ l
  large : ∀ k, j' < k → k ≤ r → cell arr₀ l < cell arr k
  cell_j : cell arr j' ≤ cell arr₀ l
  cell_i : i' < j' → cell arr₀ l < cell arr i'

theorem Parting.stopped (h : Parting arr₀ l r arr i j) (hr : r < arr₀.length) :
    ∃ i' j' : ℕ, lowerJ arr (cell arr₀ l) i (((j : ℤ) - i).toNat + 1) j = .ok (j' : ℤ) ∧
      raiseI arr (cell arr₀ l) j' (((j' : ℤ) - i).toNat + 1) i = .ok (i' : ℤ) ∧
      Stopped arr₀ l r arr i j i' j' := by
  have hi := h.i_le
  have hj := h.j_le
  have hlen := h.length_eq
  obtain ⟨j', hlow, hj1, hj2, hlarge, hjstop⟩ :=
    lowerJ_spec (((j : ℤ) - i).toNat + 1) (by omega) hi (show j < arr.length by omega)
  obtain ⟨i', hraise, hi1, hi2, hsmall, histop⟩ :=
    raiseI_spec (((j' : ℤ) - i).toNat + 1) (by omega) hj1 (show j' < arr.length by omega)
  refine ⟨i', j', hlow, hraise, hi1, hi2, hj2, ?_, ?_, ?_, ?_, ?_⟩
  · -- the element at `i` is not larger, so a pass that does not end goes beyond it
    intro hlt
    rcases Nat.eq_or_lt_of_le hi1 with rfl | hgt
    · have hci := h.small i h.l_le (le_refl i)
      rcases histop with heq | hlarge'
      · omega
      · omega
    · exact hgt
  · intro k h1 h2
    rcases Nat.le_total k i with hk | hk
    · exact h.small k h1 hk
    · exact hsmall k hk h2
  · intro k h1 h2
    rcases Nat.lt_or_ge j k with hk | hk
    · exact h.large k hk h2
    · exact hlarge k h1 hk
  · rcases hjstop with rfl | hle
    · exact h.small j' h.l_le (le_refl j')
    · exact hle
  · intro hlt
    exact histop.resolve_left (Nat.ne_of_lt hlt)

/-- A pass whose pointers have not met exchanges the two elements. -/
theorem Stopped.parting (hs : Stopped arr₀ l r arr i j m p) (hlt : m < p)
    (h : Parting arr₀ l r arr i j) (hr : r < arr₀.length) :
    Parting arr₀ l r (exchange arr m p) m p := by
  have hli := h.l_le
  have hjr := h.j_le
  have hij := hs.i_le
  have hpj := hs.j_le
  have hprog := hs.progress hlt
  have hm : m < arr.length := by
    rw [h.length_eq]
    omega
  have hp : p < arr.length := by
    rw [h.length_eq]
    omega
  refine ⟨by omega, hs.i_le_j, by omega, ?_, ?_, ?_, ?_, ?_⟩
  · rw [length_exchange]
    exact h.length_eq
  · rw [cell_exchange hm hp]
    apply h.shuffled.trans
    apply shuffled_swap
    · exact ⟨by omega, by omega⟩
    · exact ⟨by omega, by omega⟩
  · rw [cell_exchange_other hm hp (by omega) (by omega)]
    exact h.cell_l
  · intro k h1 h2
    rcases Nat.eq_or_lt_of_le h2 with rfl | hkm
    · rw [cell_exchange_left hm hp]
      exact hs.cell_j
    · rw [cell_exchange_other hm hp (by omega) (by omega)]
      exact hs.small k h1 hkm
  · intro k h1 h2
    rw [cell_exchange_other hm hp (by omega) (by omega)]
    exact hs.large k h1 h2

/-- When the pointers have met, the pivot goes between the two parts. -/
theorem Stopped.parted (hs : Stopped arr₀ l r arr i j p p)
    (h : Parting arr₀ l r arr i j) (hr : r < arr₀.length) :
    Parted arr₀ l r (exchange arr l p) p := by
  have hli := h.l_le
  have hjr := h.j_le
  have hij := hs.i_le
  have hpj := hs.j_le
  have hl : l < arr.length := by
    rw [h.length_eq]
    omega
  have hp : p < arr.length := by
    rw [h.length_eq]
    omega
  have hatp : cell (exchange arr l p) p = cell arr₀ l := by
    rw [cell_exchange_right hl hp]
    exact h.cell_l
  refine ⟨by omega, by omega, ?_, ?_, hatp, ?_, ?_⟩
  · rw [length_exchange]
    exact h.length_eq
  · rw [cell_exchange hl hp]
    apply h.shuffled.trans
    apply shuffled_swap
    · exact ⟨le_refl l, by omega⟩
    · exact ⟨by omega, by omega⟩
  · intro k h1 h2
    rw [hatp]
    rcases Nat.eq_or_lt_of_le h1 with rfl | hlk
    · rw [cell_exchange_left hl hp]
      exact hs.cell_j
    · rw [cell_exchange_other hl hp (by omega) (by omega)]
      exact hs.small k h1 h2
  · intro k h1 h2
    rw [hatp, cell_exchange_other hl hp (by omega) (by omega)]
    exact hs.large k h1 h2

/-- The pivot is already between the two parts. -/
theorem Stopped.parted_self (hs : Stopped arr₀ l r arr i j l l)
    (h : Parting arr₀ l r arr i j) : Parted arr₀ l r arr l := by
  have hli := h.l_le
  have hij := h.i_le
  have hjr := h.j_le
  refine ⟨le_refl l, by omega, h.length_eq, h.shuffled, h.cell_l, ?_, ?_⟩
  · intro k h1 h2
    omega
  · rw [h.cell_l]
    exact hs.large

/-- One pass: it goes on with closer pointers, or ends the loop with the range split. -/
theorem pass_spec (h : Parting arr₀ l r arr i j)
    (hr : r < arr₀.length) :
    (∃ (arr' : List ℤ) (m p : ℕ), pass (cell arr₀ l) ⟨arr, i, j, l, 0⟩ = .ok ⟨arr', m, p, l, 0⟩ ∧
      Parting arr₀ l r arr' m p ∧ m < p ∧ p - m < j - i) ∨
    (∃ (arr' : List ℤ) (p : ℕ), pass (cell arr₀ l) ⟨arr, i, j, l, 0⟩ = .ok ⟨arr', p, p, p, 0⟩ ∧
      Parted arr₀ l r arr' p) := by
  have hli := h.l_le
  have hjr := h.j_le
  have hlen := h.length_eq
  obtain ⟨m, p, hlow, hraise, hs⟩ := h.stopped hr
  have hi := hs.i_le
  have hj := hs.j_le
  unfold pass
  dsimp only
  rw [hlow, ok_bind, hraise, ok_bind]
  rcases Nat.eq_or_lt_of_le hs.i_le_j with rfl | hlt
  · rw [if_neg (lt_irrefl _), if_pos rfl]
    rcases eq_or_ne m l with rfl | hne
    · rw [if_neg (not_not.mpr rfl)]
      exact Or.inr ⟨arr, m, rfl, hs.parted_self h⟩
    · rw [if_pos (by exact_mod_cast hne), read_eq (by omega), ok_bind, write_eq (by omega),
        ok_bind, write_eq (by rw [List.length_set]; omega), ok_bind, ← h.cell_l]
      exact Or.inr ⟨exchange arr l m, m, rfl, hs.parted h hr⟩
  · rw [if_pos (Int.ofNat_lt.mpr hlt), read_eq (by omega), ok_bind, read_eq (by omega), ok_bind,
      write_eq (by omega), ok_bind, write_eq (by rw [List.length_set]; omega), ok_bind]
    have hprog := hs.progress hlt
    exact Or.inl ⟨exchange arr m p, m, p, rfl, hs.parting hlt h hr, hlt, by omega⟩

theorem partitionLoop_spec (fuel : ℕ) (hfuel : j < fuel + i) (hij : i < j)
    (h : Parting arr₀ l r arr i j) (hr : r < arr₀.length) :
    ∃ (arr' : List ℤ) (p : ℕ),
      partitionLoop (cell arr₀ l) fuel ⟨arr, i, j, l, 0⟩ = .ok ⟨arr', p, p, p, 0⟩ ∧
      Parted arr₀ l r arr' p := by
  induction fuel generalizing arr i j with
  | zero => omega
  | succ fuel ih =>
    rw [partitionLoop, if_pos (Int.ofNat_lt.mpr hij)]
    rcases pass_spec h hr with ⟨arr', m, p, hpass, h', hmp, hlt⟩ | ⟨arr', p, hpass, h'⟩
    · rw [hpass, ok_bind]
      exact ih (by omega) hmp h'
    · -- the pointers have met: the condition of the loop fails
      obtain ⟨fuel, rfl⟩ : ∃ f, fuel = f + 1 := ⟨fuel - 1, by omega⟩
      rw [hpass, ok_bind, partitionLoop, if_neg (lt_irrefl _)]
      exact ⟨arr', p, rfl, h'⟩

/-- **`partition`** terminates with the range split around the pivot. -/
theorem partition_spec (hl : l < r) (hr : r < arr.length) :
    ∃ (arr' : List ℤ) (p : ℕ), partition arr l r = .ok ⟨arr', p, p, p, 0⟩ ∧
      Parted arr l r arr' p := by
  unfold partition
  rw [read_eq (by omega), ok_bind]
  exact partitionLoop_spec _ (by omega) hl (parting_start hl) hr

/-! ## The recursion -/

/-- The range from `l` up to but not including `m` is sorted, and nothing else changed. -/
structure SortedRange (arr : List ℤ) (l m : ℕ) (arr' : List ℤ) : Prop where
  length_eq : arr'.length = arr.length
  shuffled : Shuffled {k | l ≤ k ∧ k < m} (cell arr) (cell arr')
  sorted : ∀ i j, l ≤ i → i ≤ j → j < m → cell arr' i ≤ cell arr' j

theorem sortedRange_short (hm : m ≤ l + 1) : SortedRange arr l m arr := by
  refine ⟨rfl, Shuffled.refl _ _, ?_⟩
  intro i j h1 h2 h3
  rw [show i = j by omega]

/-- A split range whose two parts get sorted is sorted. -/
theorem Parted.sortedRange {a b : List ℤ} (h : Parted arr l r a p) (hleft : SortedRange a l p b)
    (hright : SortedRange b (p + 1) (r + 1) arr') : SortedRange arr l (r + 1) arr' := by
  have hlp := h.l_le
  have hpr := h.p_le
  have hkeep : ∀ k, k ≤ p → cell arr' k = cell b k := by
    intro k hk
    apply hright.shuffled.eq_of_notMem
    rintro ⟨h1, -⟩
    omega
  have hpivot : cell arr' p = cell a p := by
    rw [hkeep p (le_refl p)]
    apply hleft.shuffled.eq_of_notMem
    rintro ⟨-, h2⟩
    omega
  have hsmall : ∀ k, l ≤ k → k ≤ p → cell arr' k ≤ cell a p := by
    intro k h1 h2
    rcases Nat.eq_or_lt_of_le h2 with rfl | hlt
    · exact Int.le_of_eq hpivot
    · rw [hkeep k h2]
      exact hleft.shuffled.forall_mem (P := fun x => x ≤ cell a p)
        (fun i hi => h.small i hi.1 hi.2) k ⟨h1, hlt⟩
  have hlarge : ∀ k, p < k → k ≤ r → cell a p ≤ cell arr' k := by
    intro k h1 h2
    refine hright.shuffled.forall_mem (P := fun x => cell a p ≤ x) ?_ k ⟨h1, by omega⟩
    rintro i ⟨hi1, hi2⟩
    have hsame : cell b i = cell a i := by
      apply hleft.shuffled.eq_of_notMem
      rintro ⟨-, h3⟩
      omega
    rw [hsame]
    exact Int.le_of_lt (h.large i (by omega) (by omega))
  refine ⟨?_, ?_, ?_⟩
  · rw [hright.length_eq, hleft.length_eq, h.length_eq]
  · have h1 : Shuffled {k | l ≤ k ∧ k < r + 1} (cell arr) (cell a) := by
      apply h.shuffled.mono
      rintro k ⟨hk1, hk2⟩
      exact ⟨hk1, by omega⟩
    have h2 : Shuffled {k | l ≤ k ∧ k < r + 1} (cell a) (cell b) := by
      apply hleft.shuffled.mono
      rintro k ⟨hk1, hk2⟩
      exact ⟨hk1, by omega⟩
    have h3 : Shuffled {k | l ≤ k ∧ k < r + 1} (cell b) (cell arr') := by
      apply hright.shuffled.mono
      rintro k ⟨hk1, hk2⟩
      exact ⟨by omega, hk2⟩
    exact (h1.trans h2).trans h3
  · intro i j hi hij hj
    rcases Nat.lt_or_ge p i with hpi | hip
    · exact hright.sorted i j hpi hij hj
    · rcases Nat.lt_or_ge p j with hpj | hjp
      · exact (hsmall i hi hip).trans (hlarge j hpj (by omega))
      · rcases Nat.eq_or_lt_of_le hjp with rfl | hlt
        · rw [hpivot]
          exact hsmall i hi hip
        · rw [hkeep i hip, hkeep j hjp]
          exact hleft.sorted i j hi hij hlt

/-- `sort` sorts its range; the recursion is not deeper than the range is long. -/
theorem sort_spec (fuel : ℕ) (hfuel : m < fuel + l) (hlm : l ≤ m) (hm : m ≤ arr.length) :
    ∃ arr', sort fuel arr l ((m : ℤ) - 1) = .ok arr' ∧ SortedRange arr l m arr' := by
  induction fuel generalizing arr l m with
  | zero => omega
  | succ fuel ih =>
    rw [sort]
    rcases Nat.lt_or_ge (l + 1) m with hlt | hge
    · obtain ⟨r, rfl⟩ : ∃ r, m = r + 1 := ⟨m - 1, by omega⟩
      rw [if_pos (by omega), show ((r + 1 : ℕ) : ℤ) - 1 = (r : ℤ) by omega]
      obtain ⟨a, p, hpart, h⟩ := partition_spec (show l < r by omega) (show r < arr.length by omega)
      have hlp := h.l_le
      have hpr := h.p_le
      have hlen := h.length_eq
      obtain ⟨b, hleft, hb⟩ := ih (by omega) hlp (show p ≤ a.length by omega)
      have hlenb := hb.length_eq
      have hrlen : r + 1 ≤ b.length := by omega
      obtain ⟨arr', hright, hc⟩ := ih (l := p + 1) (by omega) (by omega) hrlen
      refine ⟨arr', ?_, h.sortedRange hb hc⟩
      rw [show ((r + 1 : ℕ) : ℤ) - 1 = (r : ℤ) by omega] at hright
      rw [hpart, ok_bind, hleft, ok_bind]
      exact hright
    · rw [if_neg (by omega)]
      exact ⟨arr, rfl, sortedRange_short hge⟩

/-- **`quicksort` sorts.**  For every array the run ends without a fault, and the result is
the array in ascending order. -/
theorem quicksort_ascending (arr : List ℤ) :
    ∃ arr', quicksort arr arr.length = .ok arr' ∧ arr'.Pairwise (· ≤ ·) ∧ arr'.Perm arr := by
  obtain ⟨arr', hrun, h⟩ :=
    sort_spec (l := 0) (arr.length + 1) (by omega) (Nat.zero_le _) (le_refl arr.length)
  refine ⟨arr', hrun, ?_, ?_⟩
  · apply pairwise_of_cell
    intro i j hij hj
    exact h.sorted i j (Nat.zero_le i) (Nat.le_of_lt hij) (Nat.lt_of_lt_of_eq hj h.length_eq)
  · apply perm_of_shuffled h.length_eq
    apply h.shuffled.mono
    rintro k ⟨-, hk⟩
    exact hk

end Quicksort
