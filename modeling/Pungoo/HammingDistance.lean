/-
# `hammingDistance` of `cpp/leetcode/461.HammingDistance.cpp`

An `int` is its 32 bits, and `>>` repeats the sign bit.  The loop looks at the lowest bit
and shifts, 31 times, so the bit of the sign is the only one it never looks at.

* `differing x y` : the positions at which the bits differ;
* `loop_eq` : what any number of rounds counts, for words of any width.
-/
import Mathlib.Data.BitVec
import Mathlib.Data.Finset.Card
import Mathlib.Data.Finset.Range
import Mathlib.Data.Int.Notation

namespace HammingDistance

/-! ## The code -/

/-- The loop with `rounds` rounds to go. -/
def loop {w : ℕ} : ℕ → BitVec w → ℕ → ℕ
  | 0, _, count => count
  | rounds + 1, tmp, count =>
    loop rounds (tmp.sshiftRight 1) (if tmp &&& 1#w ≠ 0#w then count + 1 else count)

/-- `hammingDistance(x, y)`: the result and the numbers printed on the way. -/
def hammingDistance (x y : BitVec 32) : ℕ × List ℤ :=
  if x = y then (0, [])
  else
    let tmp := x ^^^ y
    (loop 31 tmp 0, [tmp.toInt])

/-! ## Bits -/

/-- The positions at which the bits of `x` and `y` differ. -/
def differing {w : ℕ} (x y : BitVec w) : Finset ℕ :=
  (Finset.range w).filter fun i => x.getLsbD i ≠ y.getLsbD i

/-- The positions below `rounds` at which `tmp` has a one. -/
def ones {w : ℕ} (tmp : BitVec w) (rounds : ℕ) : Finset ℕ :=
  (Finset.range rounds).filter fun i => tmp.getLsbD i = true

variable {w rounds : ℕ} {x y tmp : BitVec w}

theorem and_one_ne_zero (hw : 0 < w) (tmp : BitVec w) :
    tmp &&& 1#w ≠ 0#w ↔ tmp.getLsbD 0 = true := by
  constructor
  · intro h
    by_contra h0
    apply h
    apply BitVec.eq_of_getLsbD_eq
    intro i hi
    rw [BitVec.getLsbD_and, BitVec.getLsbD_one, BitVec.getLsbD_zero]
    rcases Nat.eq_zero_or_pos i with rfl | hpos
    · rw [Bool.not_eq_true] at h0
      rw [h0, Bool.false_and]
    · rw [decide_eq_false (by omega : ¬ i = 0), Bool.and_false, Bool.and_false]
  · intro h h0
    have hbit : (tmp &&& 1#w).getLsbD 0 = true := by
      rw [BitVec.getLsbD_and, h, BitVec.getLsbD_one, decide_eq_true hw]
      rfl
    rw [h0, BitVec.getLsbD_zero] at hbit
    exact absurd hbit Bool.false_ne_true

/-- The ones of a word are its lowest bit and the ones of the shifted word. -/
theorem card_ones_succ (h : rounds < w) (tmp : BitVec w) :
    (ones tmp (rounds + 1)).card
      = (if tmp.getLsbD 0 = true then 1 else 0) + (ones (tmp.sshiftRight 1) rounds).card := by
  unfold ones
  rw [Finset.range_add_one', Finset.filter_insert, Finset.filter_map, add_comm]
  have hshift : (Finset.range rounds).filter
        ((fun i => tmp.getLsbD i = true) ∘ ⇑(⟨fun i => i + 1, fun i j => Nat.succ.inj⟩ : ℕ ↪ ℕ))
      = (Finset.range rounds).filter fun i => (tmp.sshiftRight 1).getLsbD i = true := by
    apply Finset.filter_congr
    intro i hi
    rw [Finset.mem_range] at hi
    show tmp.getLsbD (i + 1) = true ↔ _
    rw [BitVec.getLsbD_sshiftRight, decide_eq_false (by omega : ¬ w ≤ i),
      if_pos (by omega : 1 + i < w), Nat.add_comm 1 i, Bool.not_false, Bool.true_and]
  rw [hshift]
  by_cases h0 : tmp.getLsbD 0 = true
  · rw [if_pos h0, if_pos h0, Finset.card_insert_of_notMem, Finset.card_map]
    intro hmem
    obtain ⟨i, -, hi⟩ := Finset.mem_map.mp hmem
    exact absurd hi (Nat.succ_ne_zero i)
  · rw [if_neg h0, if_neg h0, Finset.card_map, add_zero]

/-- The rounds count the ones at the positions they look at. -/
theorem loop_eq (h : rounds ≤ w) (tmp : BitVec w) (count : ℕ) :
    loop rounds tmp count = count + (ones tmp rounds).card := by
  induction rounds generalizing tmp count with
  | zero => rfl
  | succ rounds ih =>
    rw [loop, ih (by omega), card_ones_succ h]
    simp only [and_one_ne_zero (show 0 < w by omega)]
    split_ifs
    · omega
    · omega

/-! ## The distance -/

/-- The differing positions are the ones of `x ^ y`. -/
theorem differing_eq (x y : BitVec w) : differing x y = ones (x ^^^ y) w := by
  unfold differing ones
  apply Finset.filter_congr
  intro i _
  rw [BitVec.getLsbD_xor]
  simp

/-- Words without a differing position are equal. -/
theorem eq_of_differing (h : differing x y = ∅) : x = y := by
  apply BitVec.eq_of_getLsbD_eq
  intro i hi
  by_contra hne
  have hmem : i ∈ differing x y := Finset.mem_filter.mpr ⟨Finset.mem_range.mpr hi, hne⟩
  rw [h] at hmem
  exact absurd hmem (Finset.notMem_empty i)

/-- All ones of a word are those below its sign bit, and this bit. -/
theorem card_ones_width (tmp : BitVec (w + 1)) :
    (ones tmp (w + 1)).card = (ones tmp w).card + if tmp.msb = true then 1 else 0 := by
  unfold ones
  rw [Finset.range_add_one, Finset.filter_insert, BitVec.msb_eq_getLsbD_last, Nat.add_sub_cancel]
  split_ifs with h
  · apply Finset.card_insert_of_notMem
    simp
  · rw [add_zero]

/-- The result is the number of differing positions below the sign bit. -/
theorem hammingDistance_eq (x y : BitVec 32) :
    (hammingDistance x y).1 = (ones (x ^^^ y) 31).card := by
  unfold hammingDistance
  by_cases hxy : x = y
  · rw [if_pos hxy, hxy, BitVec.xor_self]
    simp [ones]
  · rw [if_neg hxy]
    show loop 31 (x ^^^ y) 0 = _
    rw [loop_eq (by omega), zero_add]

theorem msb_xor_iff (x y : BitVec w) :
    (x ^^^ y).msb = false ↔ (x.toInt < 0 ↔ y.toInt < 0) := by
  rw [BitVec.msb_xor, BitVec.msb_eq_toInt, BitVec.msb_eq_toInt]
  by_cases hx : x.toInt < 0 <;> by_cases hy : y.toInt < 0 <;> simp [hx, hy]

/-- **Distances of numbers with the same sign**: the result is the number of differing
positions, and zero for equal numbers only, exactly when both numbers are negative or none
of them is. -/
theorem hammingDistance_iff (x y : BitVec 32) :
    ((hammingDistance x y).1 = (differing x y).card ∧ ((hammingDistance x y).1 = 0 → x = y)) ↔
      (x.toInt < 0 ↔ y.toInt < 0) := by
  have hcard : (differing x y).card
      = (ones (x ^^^ y) 31).card + if (x ^^^ y).msb = true then 1 else 0 := by
    rw [differing_eq, card_ones_width]
  rw [hammingDistance_eq, ← msb_xor_iff]
  constructor
  · rintro ⟨hcount, -⟩
    by_contra hmsb
    rw [Bool.not_eq_false] at hmsb
    rw [hcard, if_pos hmsb] at hcount
    omega
  · intro hmsb
    rw [hmsb, if_neg Bool.false_ne_true, add_zero] at hcard
    refine ⟨hcard.symm, ?_⟩
    intro hzero
    rw [hzero, Finset.card_eq_zero] at hcard
    exact eq_of_differing hcard

/-- The smallest `int` and zero differ at the bit of the sign, and the result is zero. -/
theorem hammingDistance_intMin_zero :
    (hammingDistance (BitVec.intMin 32) 0).1 = 0 ∧ (differing (BitVec.intMin 32) 0).card = 1 := by
  decide +kernel

end HammingDistance
