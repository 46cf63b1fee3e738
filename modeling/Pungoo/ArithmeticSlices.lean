/-
# `numberOfArithmeticSlices` of `cpp/problem/413.cpp`

One scan keeps the run of equal differences it is in: `first` is where the run starts and
`gap` its difference.  A run that ends adds its slices at once, by a closed formula; the
next run starts with its last element, and the last run is counted after the loop.

The result of every `int` operation goes through a parameter `int`, which is the exact
result (`exact`) or the checked one (`IntArray.checked`).

* `slices A m` : the slices of `A` that end before `m`.
* `Counted` : the invariant of the loop, in terms of `slices`.
-/
import Pungoo.IntArray
import Mathlib.Data.Finset.Card
import Mathlib.Data.Finset.Prod
import Mathlib.Order.Interval.Finset.Nat
import Mathlib.Tactic.Ring

namespace ArithmeticSlices

open IntArray Failing

/-! ## The code -/

/-- The variables of the loop. -/
structure State where
  i : ℤ
  flag : Bool
  gap : ℤ
  first : ℤ
  ret : ℤ
  deriving DecidableEq, Repr

/-- The results of `int` operations taken as exact. -/
def exact (x : ℤ) : Except Fault ℤ := .ok x

variable (int : ℤ → Except Fault ℤ)

/-- `A[i] - A[i-1]`. -/
def difference (A : List ℤ) (i : ℤ) : Except Fault ℤ := do
  let ai ← read A i
  let prev ← int (i - 1)
  let aprev ← read A prev
  int (ai - aprev)

/-- `ret += (num - 2) * (num - 1) / 2`. -/
def addSlices (ret num : ℤ) : Except Fault ℤ := do
  let two ← int (num - 2)
  let one ← int (num - 1)
  let product ← int (two * one)
  int (ret + product.tdiv 2)

/-- The body of the loop. -/
def step (A : List ℤ) (s : State) : Except Fault State :=
  if s.flag = false then do
    let gap ← difference int A s.i
    let first ← int (s.i - 1)
    let next ← int (s.i + 1)
    return { s with i := next, flag := true, gap := gap, first := first }
  else do
    let diff ← difference int A s.i
    if s.gap ≠ diff then
      let num ← int (s.i - s.first)
      if num ≥ 3 then
        let ret ← addSlices int s.ret num
        return { s with flag := false, ret := ret }
      else
        return { s with flag := false }
    else
      let next ← int (s.i + 1)
      return { s with i := next }

/-- `for (int i = 1; i < A.size(); )`. -/
def loop (A : List ℤ) : ℕ → State → Except Fault State
  | 0, _ => .error .outOfFuel
  | fuel + 1, s =>
    if s.i < A.length then do
      let s ← step int A s
      loop A fuel s
    else
      return s

/-- What follows the loop: the last run is counted. -/
def finish (A : List ℤ) (s : State) : Except Fault ℤ :=
  if s.flag = true then do
    let third ← int (s.first + 3)
    if third ≤ A.length then
      let num ← int (A.length - s.first)
      addSlices int s.ret num
    else
      return s.ret
  else
    return s.ret

/-- `numberOfArithmeticSlices(A)`.  Every element is looked at once or twice. -/
def numberOfArithmeticSlices (A : List ℤ) : Except Fault ℤ :=
  if A.length < 3 then
    return 0
  else do
    let s ← loop int A (2 * A.length) ⟨1, false, -1, 0, 0⟩
    finish int A s

/-! ## Slices -/

/-- The difference behind the `k`-th element. -/
def diff (A : List ℤ) (k : ℕ) : ℤ := cell A (k + 1) - cell A k

/-- All consecutive differences from `i` to `j` are equal. -/
def Arithmetic (A : List ℤ) (i j : ℕ) : Prop :=
  ∀ k ∈ Finset.Ico i j, ∀ k' ∈ Finset.Ico i j, diff A k = diff A k'

instance (A : List ℤ) (i j : ℕ) : Decidable (Arithmetic A i j) :=
  inferInstanceAs (Decidable (∀ k ∈ Finset.Ico i j, _))

/-- The slices with their last index below `m`, as pairs of the first and the last index. -/
def slices (A : List ℤ) (m : ℕ) : Finset (ℕ × ℕ) :=
  (Finset.range m ×ˢ Finset.range m).filter fun p => p.1 + 2 ≤ p.2 ∧ Arithmetic A p.1 p.2

/-- The differences from `first` to `i` are equal to `gap`, and the one before is not. -/
structure IsRun (A : List ℤ) (gap : ℤ) (first i : ℕ) : Prop where
  diff_eq : ∀ k, first ≤ k → k < i → diff A k = gap
  maximal : first = 0 ∨ diff A (first - 1) ≠ gap

variable {int} {A : List ℤ} {gap : ℤ} {first i m : ℕ}

/-- The slices that end before `m`. -/
theorem mem_slices {p : ℕ × ℕ} :
    p ∈ slices A m ↔ p.2 < m ∧ p.1 + 2 ≤ p.2 ∧ Arithmetic A p.1 p.2 := by
  unfold slices
  rw [Finset.mem_filter, Finset.mem_product, Finset.mem_range, Finset.mem_range]
  constructor
  · rintro ⟨⟨-, h1⟩, h2⟩
    exact ⟨h1, h2⟩
  · rintro ⟨h1, h2, h3⟩
    exact ⟨⟨by omega, h1⟩, h2, h3⟩

/-- In a run, the slices that end at its last element are those that start in it. -/
theorem arithmetic_iff (h : IsRun A gap first m) (hlt : first < m) {k : ℕ} :
    Arithmetic A k m ↔ first ≤ k := by
  constructor
  · intro harith
    by_contra hkf
    rcases h.maximal with h0 | hne
    · omega
    · -- a start before the run would bring in a different difference
      apply hne
      rw [harith (first - 1) (Finset.mem_Ico.mpr (by omega)) first (Finset.mem_Ico.mpr (by omega))]
      exact h.diff_eq first (le_refl first) hlt
  · intro hkf a ha b hb
    rw [Finset.mem_Ico] at ha hb
    rw [h.diff_eq a (by omega) ha.2, h.diff_eq b (by omega) hb.2]

/-- One more element of a run ends as many slices as the run has inner elements. -/
theorem card_slices_succ (h : IsRun A gap first m) (hlt : first < m) :
    (slices A (m + 1)).card = (slices A m).card + (m - 1 - first) := by
  have hunion : slices A (m + 1)
      = slices A m ∪ (Finset.Ico first (m - 1)).image fun k => (k, m) := by
    ext p
    rw [Finset.mem_union, mem_slices, mem_slices, Finset.mem_image]
    constructor
    · rintro ⟨h1, h2, h3⟩
      rcases Nat.eq_or_lt_of_le (Nat.le_of_lt_succ h1) with heq | hlt'
      · rw [heq] at h2 h3
        refine Or.inr ⟨p.1, ?_, ?_⟩
        · rw [Finset.mem_Ico]
          exact ⟨(arithmetic_iff h hlt).mp h3, by omega⟩
        · exact Prod.ext rfl heq.symm
      · exact Or.inl ⟨hlt', h2, h3⟩
    · rintro (⟨h1, h2⟩ | ⟨k, hk, rfl⟩)
      · exact ⟨by omega, h2⟩
      · rw [Finset.mem_Ico] at hk
        exact ⟨Nat.lt_succ_self m, by dsimp only; omega,
          (arithmetic_iff h hlt).mpr hk.1⟩
  have hdisj : Disjoint (slices A m) ((Finset.Ico first (m - 1)).image fun k => (k, m)) := by
    rw [Finset.disjoint_left]
    intro p hp hp'
    obtain ⟨k, -, rfl⟩ := Finset.mem_image.mp hp'
    exact absurd (mem_slices.mp hp).1 (lt_irrefl m)
  have hinj : Function.Injective fun k : ℕ => (k, m) := by
    intro a b hab
    exact (Prod.mk.inj hab).1
  rw [hunion, Finset.card_union_of_disjoint hdisj, Finset.card_image_of_injective _ hinj,
    Nat.card_Ico]

/-! ## The closed formula -/

/-- The number of slices within a run of `num` elements. -/
def inRun (num : ℕ) : ℕ := (num - 2) * (num - 1) / 2

/-- A run of `m + 2` numbers that grows by one has `m + 1` new slices. -/
theorem inRun_succ (m : ℕ) : inRun (m + 3) = inRun (m + 2) + (m + 1) := by
  have h := Nat.triangle_succ (m + 1)
  show (m + 1) * (m + 2) / 2 = m * (m + 1) / 2 + (m + 1)
  rw [Nat.mul_comm, Nat.mul_comm m]
  exact h

/-- The operation returns its exact result. -/
def Fine (int : ℤ → Except Fault ℤ) (x : ℤ) : Prop := int x = .ok x

theorem fine_exact (x : ℤ) : Fine exact x := rfl

theorem exact_bind {α : Type} (x : ℤ) (f : ℤ → Except Fault α) : (exact x >>= f) = f x := rfl

/-- What a finished run adds. -/
theorem addSlices_eq {ret : ℤ} {num : ℕ} (h : 2 ≤ num) (htwo : Fine int ((num : ℤ) - 2))
    (hone : Fine int ((num : ℤ) - 1)) :
    addSlices int ret num
      = int (((num - 2) * (num - 1) : ℕ) : ℤ) >>= fun product => int (ret + product.tdiv 2) := by
  have hcast : ((num : ℤ) - 2) * (num - 1) = (((num - 2) * (num - 1) : ℕ) : ℤ) := by
    rw [Nat.cast_mul, Nat.cast_sub h, Nat.cast_sub (by omega)]
    rfl
  unfold addSlices
  rw [htwo, ok_bind, hone, ok_bind, hcast]

/-- With the product in range, the formula adds the slices of a run. -/
theorem addSlices_fine {ret : ℤ} {num : ℕ} (h : 2 ≤ num) (htwo : Fine int ((num : ℤ) - 2))
    (hone : Fine int ((num : ℤ) - 1)) (hproduct : Fine int (((num - 2) * (num - 1) : ℕ) : ℤ)) :
    addSlices int ret num = int (ret + inRun num) := by
  rw [addSlices_eq h htwo hone, hproduct, ok_bind,
    Int.tdiv_eq_ediv_of_nonneg (Int.natCast_nonneg _)]
  rfl

/-! ## The loop -/

/-- No run is open at `i`: all slices before `i` are counted, and the next difference is
not the one before. -/
structure Fresh (A : List ℤ) (i : ℕ) (ret : ℤ) : Prop where
  pos : 1 ≤ i
  lt : i < A.length
  ret_eq : ret = (slices A i).card
  change : i = 1 ∨ diff A (i - 2) ≠ diff A (i - 1)

/-- The run from `first` is open at `i`: its slices are not counted yet. -/
structure Open (A : List ℤ) (i first : ℕ) (gap ret : ℤ) : Prop where
  first_le : first + 2 ≤ i
  le : i ≤ A.length
  run : IsRun A gap first (i - 1)
  ret_eq : ret + inRun (i - first) = (slices A i).card

/-- The difference of two neighbours. -/
theorem difference_eq (hpos : 1 ≤ i) (hi : i < A.length) (hprev : Fine int ((i : ℤ) - 1)) :
    difference int A i = int (diff A (i - 1)) := by
  unfold difference diff
  rw [read_eq hi, ok_bind, hprev, ok_bind, show (i : ℤ) - 1 = ((i - 1 : ℕ) : ℤ) by omega,
    read_eq (by omega), ok_bind, show i - 1 + 1 = i by omega]

/-- One number has no slice. -/
theorem slices_one : slices A 1 = ∅ := by
  rw [Finset.eq_empty_iff_forall_notMem]
  intro p hp
  have h := mem_slices.mp hp
  omega

theorem fresh_start (h : 2 ≤ A.length) : Fresh A 1 0 := by
  refine ⟨le_refl 1, h, ?_, Or.inl rfl⟩
  rw [slices_one]
  rfl

/-- A new run starts with the last element of the old one. -/
theorem Fresh.starts {ret : ℤ} (h : Fresh A i ret) :
    Open A (i + 1) (i - 1) (diff A (i - 1)) ret := by
  have hpos := h.pos
  have hlt := h.lt
  have hrun : IsRun A (diff A (i - 1)) (i - 1) i := by
    constructor
    · intro k h1 h2
      rw [show k = i - 1 by omega]
    · rcases h.change with h1 | h1
      · exact Or.inl (by omega)
      · exact Or.inr h1
  refine ⟨by omega, hlt, hrun, ?_⟩
  rw [card_slices_succ hrun (by omega), h.ret_eq, show i + 1 - (i - 1) = 2 by omega,
    show i - 1 - (i - 1) = 0 by omega]
  rfl

/-- The last difference of an open run. -/
theorem Open.last_eq {ret : ℤ} (h : Open A i first gap ret) : diff A (i - 2) = gap := by
  have hfirst := h.first_le
  exact h.run.diff_eq (i - 2) (by omega) (by omega)

/-- An equal difference makes an open run one element longer. -/
theorem Open.extends {ret : ℤ} (h : Open A i first gap ret) (hlt : i < A.length)
    (hgap : gap = diff A (i - 1)) : Open A (i + 1) first gap ret := by
  have hfirst := h.first_le
  have hrun : IsRun A gap first i := by
    refine ⟨?_, h.run.maximal⟩
    intro k h1 h2
    rcases Nat.lt_or_ge k (i - 1) with hk | hk
    · exact h.run.diff_eq k h1 hk
    · rw [show k = i - 1 by omega]
      exact hgap.symm
  refine ⟨by omega, hlt, hrun, ?_⟩
  obtain ⟨m, hm⟩ : ∃ m, i = first + m + 2 := ⟨i - first - 2, by omega⟩
  have hret := h.ret_eq
  rw [card_slices_succ hrun (by omega), show i + 1 - first = m + 3 by omega, inRun_succ,
    show m + 2 = i - first by omega]
  push_cast
  omega

/-- Another difference ends an open run, and its slices are counted. -/
theorem Open.ends {ret : ℤ} (h : Open A i first gap ret) (hlt : i < A.length)
    (hgap : gap ≠ diff A (i - 1)) : Fresh A i (ret + inRun (i - first)) := by
  have hfirst := h.first_le
  refine ⟨by omega, hlt, h.ret_eq, Or.inr ?_⟩
  rw [h.last_eq]
  exact hgap

/-- Two elements make no slice. -/
theorem inRun_two : inRun 2 = 0 := rfl

/-- A step that starts a run. -/
theorem step_fresh {ret : ℤ} (h : Fresh A i ret) (gap first : ℤ)
    (hprev : Fine int ((i : ℤ) - 1)) :
    step int A ⟨i, false, gap, first, ret⟩
      = int (diff A (i - 1)) >>= fun gap => int ((i + 1 : ℕ) : ℤ) >>= fun next =>
          .ok ⟨next, true, gap, ((i - 1 : ℕ) : ℤ), ret⟩ := by
  have hpos := h.pos
  rw [step, if_pos rfl, difference_eq hpos h.lt hprev,
    show ((i - 1 : ℕ) : ℤ) = (i : ℤ) - 1 by omega]
  dsimp only
  rw [hprev]
  rfl

/-- A step inside a run. -/
theorem step_open {ret : ℤ} (h : Open A i first gap ret) (hlt : i < A.length)
    (hprev : Fine int ((i : ℤ) - 1)) (hnum : Fine int ((i : ℤ) - first)) :
    step int A ⟨i, true, gap, first, ret⟩
      = int (diff A (i - 1)) >>= fun d =>
          if gap ≠ d then
            if i - first ≥ 3 then
              addSlices int ret ((i - first : ℕ) : ℤ) >>= fun ret => .ok ⟨i, false, gap, first, ret⟩
            else .ok ⟨i, false, gap, first, ret⟩
          else int ((i + 1 : ℕ) : ℤ) >>= fun next => .ok ⟨next, true, gap, first, ret⟩ := by
  have hfirst := h.first_le
  have hcast : (i : ℤ) - first = ((i - first : ℕ) : ℤ) := by omega
  have hthree : (((i - first : ℕ) : ℤ) ≥ 3) = (i - first ≥ 3) := by
    rw [eq_iff_iff]
    omega
  rw [step, if_neg (Bool.noConfusion ·), difference_eq (by omega) hlt hprev]
  dsimp only
  rw [hnum, hcast]
  simp only [ok_bind, hthree]
  rfl

/-- After the loop, a run of three elements or more is counted. -/
theorem finish_open {ret : ℤ} (h : Open A A.length first gap ret)
    (hthird : Fine int ((first : ℤ) + 3)) (hnum : Fine int ((A.length : ℤ) - first)) :
    finish int A ⟨A.length, true, gap, first, ret⟩ =
      if first + 3 ≤ A.length then addSlices int ret ((A.length - first : ℕ) : ℤ)
      else .ok ret := by
  have hfirst := h.first_le
  rw [finish, if_pos rfl]
  dsimp only
  rw [hthird, ok_bind]
  by_cases hlong : first + 3 ≤ A.length
  · rw [if_pos (by omega), if_pos hlong, hnum, ok_bind,
      show (A.length : ℤ) - first = ((A.length - first : ℕ) : ℤ) by omega]
  · rw [if_neg (by omega), if_neg hlong]
    rfl

/-! ## Exact operations -/

/-- With exact integers, the slices of a finished run are added. -/
theorem addSlices_exact (ret : ℤ) {num : ℕ} (h : 2 ≤ num) :
    addSlices exact ret num = .ok (ret + inRun num) :=
  addSlices_fine h (fine_exact _) (fine_exact _) (fine_exact _)

/-- The loop ends with the last run open. -/
theorem loop_spec (fuel : ℕ) (i : ℕ) :
    (∀ ret gap first, Fresh A i ret → 2 * (A.length - i) < fuel →
      ∃ (first' : ℕ) (gap' ret' : ℤ),
        loop exact A fuel ⟨i, false, gap, first, ret⟩ = .ok ⟨A.length, true, gap', first', ret'⟩ ∧
        Open A A.length first' gap' ret') ∧
    (∀ (first : ℕ) (gap ret : ℤ), Open A i first gap ret → 2 * (A.length - i) + 1 < fuel →
      ∃ (first' : ℕ) (gap' ret' : ℤ),
        loop exact A fuel ⟨i, true, gap, first, ret⟩ = .ok ⟨A.length, true, gap', first', ret'⟩ ∧
        Open A A.length first' gap' ret') := by
  induction fuel generalizing i with
  | zero => exact ⟨fun _ _ _ _ h => by omega, fun _ _ _ _ h => by omega⟩
  | succ fuel ih =>
    constructor
    · intro ret gap first h hfuel
      have hlt := h.lt
      obtain ⟨f, g, r, hrun, h'⟩ := (ih (i + 1)).2 _ _ _ h.starts (by omega)
      refine ⟨f, g, r, ?_, h'⟩
      rw [loop, if_pos (Int.ofNat_lt.mpr hlt), step_fresh h gap first (fine_exact _), exact_bind,
        exact_bind, ok_bind, hrun]
    · intro first gap ret h hfuel
      rcases Nat.eq_or_lt_of_le h.le with rfl | hlt
      · rw [loop, if_neg (lt_irrefl _)]
        exact ⟨first, gap, ret, rfl, h⟩
      · rw [loop, if_pos (Int.ofNat_lt.mpr hlt),
          step_open h hlt (fine_exact _) (fine_exact _), exact_bind]
        have hfirst := h.first_le
        by_cases hgap : gap = diff A (i - 1)
        · rw [if_neg (not_not.mpr hgap), exact_bind, ok_bind]
          exact (ih (i + 1)).2 first gap ret (h.extends hlt hgap) (by omega)
        · rw [if_pos hgap]
          have hends := h.ends hlt hgap
          by_cases hnum : i - first ≥ 3
          · rw [if_pos hnum, addSlices_exact ret (by omega), ok_bind, ok_bind]
            exact (ih i).1 _ gap first hends (by omega)
          · rw [show i - first = 2 by omega, inRun_two, Nat.cast_zero, add_zero] at hends
            rw [if_neg hnum, ok_bind]
            exact (ih i).1 ret gap first hends (by omega)

/-- Two numbers have no slice. -/
theorem slices_eq_empty (h : A.length < 3) : slices A A.length = ∅ := by
  rw [Finset.eq_empty_iff_forall_notMem]
  intro p hp
  have hmem := mem_slices.mp hp
  omega

/-- **Slices are counted exactly.**  With exact `int` operations, the result is the number of
pairs of indices, at least two apart, between which all consecutive differences are equal. -/
theorem numberOfArithmeticSlices_eq (A : List ℤ) :
    numberOfArithmeticSlices exact A = .ok ((slices A A.length).card : ℤ) := by
  unfold numberOfArithmeticSlices
  rcases Nat.lt_or_ge A.length 3 with hshort | hlong
  · rw [if_pos hshort, slices_eq_empty hshort]
    rfl
  · obtain ⟨first, gap, ret, hrun, h⟩ :=
      (loop_spec (A := A) (2 * A.length) 1).1 0 (-1) 0 (fresh_start (by omega)) (by omega)
    have hfirst := h.first_le
    rw [if_neg (by omega)]
    show (loop exact A (2 * A.length) ⟨((1 : ℕ) : ℤ), false, -1, 0, 0⟩ >>= finish exact A) = _
    rw [hrun, ok_bind, finish_open h (fine_exact _) (fine_exact _), ← h.ret_eq]
    by_cases hnum : first + 3 ≤ A.length
    · rw [if_pos hnum, addSlices_exact ret (by omega)]
    · rw [if_neg hnum, show A.length - first = 2 by omega, inRun_two, Nat.cast_zero, add_zero]

end ArithmeticSlices
