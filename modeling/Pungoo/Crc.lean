/-
# Cyclic redundancy checks

A word is a polynomial over the field of two elements, its bits are the coefficients.  A cyclic
redundancy check shifts a message through a register, and what is left there is the remainder of
the message, times a power of `X`, by the generator.  A table of the remainders of all bytes gives
the same, a byte at a time.
-/
import Mathlib

namespace Crc

open Polynomial

/-! ## Words as polynomials -/

/-- The polynomial with the first `k` of the bits as coefficients. -/
noncomputable def ofBits (k : ℕ) (f : ℕ → Bool) : (ZMod 2)[X] :=
  ∑ i ∈ Finset.range k, if f i then X ^ i else 0

/-- The polynomial of a word. -/
noncomputable def poly {w : ℕ} (c : BitVec w) : (ZMod 2)[X] := ofBits w c.getLsbD

section Words

variable {w k m : ℕ} {f g : ℕ → Bool}

/-- A word is determined by its bits. -/
theorem ofBits_congr (h : ∀ i < k, f i = g i) : ofBits k f = ofBits k g := by
  unfold ofBits
  refine Finset.sum_congr rfl fun i hi => ?_
  rw [h i (Finset.mem_range.mp hi)]

theorem ofBits_zero : ofBits k (fun _ => false) = 0 := by
  simp [ofBits]

/-- The bits from `m` on are the coefficients of the powers from `X ^ m` on. -/
theorem ofBits_add (m k : ℕ) (f : ℕ → Bool) :
    ofBits (m + k) f = ofBits m f + X ^ m * ofBits k fun j => f (m + j) := by
  unfold ofBits
  rw [Finset.sum_range_add, Finset.mul_sum]
  congr 1
  refine Finset.sum_congr rfl fun j _ => ?_
  split
  · rw [pow_add]
  · rw [mul_zero]

/-- There is no sign, so `xor` adds. -/
theorem poly_xor (a b : BitVec w) : poly (a ^^^ b) = poly a + poly b := by
  unfold poly ofBits
  rw [← Finset.sum_add_distrib]
  refine Finset.sum_congr rfl fun i _ => ?_
  rw [BitVec.getLsbD_xor]
  cases a.getLsbD i <;> cases b.getLsbD i <;> simp [CharTwo.add_self_eq_zero]

@[simp] theorem poly_zero : poly (0#w) = 0 := by
  unfold poly
  rw [← ofBits_zero (k := w)]
  exact ofBits_congr fun i _ => BitVec.getLsbD_zero

/-- A word of `w` bits has a degree below `w`. -/
theorem degree_poly_lt (c : BitVec w) : (poly c).degree < w := by
  rw [degree_lt_iff_coeff_zero]
  intro i hi
  unfold poly ofBits
  rw [finsetSum_coeff]
  refine Finset.sum_eq_zero fun j hj => ?_
  have hne : i ≠ j := by
    have := Finset.mem_range.mp hj
    omega
  split
  · rw [coeff_X_pow, if_neg hne]
  · rw [coeff_zero]

/-- A shift to the left multiplies; the bits that leave the word are lost. -/
theorem poly_shiftLeft (h : w = m + k) (c : BitVec w) :
    poly (c <<< m) = X ^ m * ofBits k c.getLsbD := by
  have hlow : ofBits m (c <<< m).getLsbD = 0 := by
    rw [← ofBits_zero (k := m)]
    refine ofBits_congr fun i hi => ?_
    rw [BitVec.getLsbD_shiftLeft]
    simp [hi]
  have hhigh : ofBits k (fun j => (c <<< m).getLsbD (m + j)) = ofBits k c.getLsbD := by
    refine ofBits_congr fun j hj => ?_
    rw [BitVec.getLsbD_shiftLeft]
    simp [show m + j < w by omega]
  have hsplit : poly (c <<< m) = ofBits (m + k) (c <<< m).getLsbD := by
    unfold poly
    rw [← h]
  rw [hsplit, ofBits_add, hlow, hhigh, zero_add]

end Words

/-! ## The generator -/

/-- The generator with these coefficients below its leading one. -/
noncomputable def generator {w : ℕ} (g : BitVec w) : (ZMod 2)[X] := X ^ w + poly g

section Generator

variable {w : ℕ}

/-- The generator has a leading one that the word leaves out. -/
theorem monic_generator (g : BitVec w) : (generator g).Monic := monic_X_pow_add (degree_poly_lt g)

theorem degree_generator (g : BitVec w) : (generator g).degree = w := by
  have hlt : (poly g).degree < (X ^ w : (ZMod 2)[X]).degree := by
    rw [degree_X_pow]
    exact degree_poly_lt g
  rw [generator, degree_add_eq_left_of_degree_lt hlt, degree_X_pow]

/-- Modulo the generator. -/
noncomputable abbrev residue (g : BitVec w) : (ZMod 2)[X] →+* AdjoinRoot (generator g) :=
  AdjoinRoot.mk (generator g)

/-- The leading power is as good as the word of the generator. -/
theorem residue_pow (g : BitVec w) : residue g (X ^ w) = residue g (poly g) := by
  have hself := AdjoinRoot.mk_self (f := generator g)
  rw [generator, map_add] at hself
  have hneg := eq_neg_of_add_eq_zero_left hself
  rw [← map_neg, CharTwo.neg_eq] at hneg
  exact hneg

/-- A word that agrees with a polynomial modulo the generator is its remainder. -/
theorem poly_eq_modByMonic {g c : BitVec w} {p : (ZMod 2)[X]}
    (h : residue g (poly c) = residue g p) : poly c = p %ₘ generator g := by
  obtain ⟨q, hq⟩ := AdjoinRoot.mk_eq_mk.mp h.symm
  refine (div_modByMonic_unique q (poly c) (monic_generator g) ⟨?_, ?_⟩).2.symm
  · rw [← hq]
    ring
  · rw [degree_generator]
    exact degree_poly_lt c

end Generator

/-! ## The register -/

/-- A step of the division: the next bit of the message has been added at the top. -/
def shift {w : ℕ} (g c : BitVec w) : BitVec w := (c <<< 1) ^^^ if c.msb then g else 0#w

/-- Some steps. -/
def shifts {w : ℕ} (g : BitVec w) : ℕ → BitVec w → BitVec w
  | 0, c => c
  | k + 1, c => shifts g k (shift g c)

/-- The register after a byte, with a table. -/
def tableStep {n : ℕ} (table : BitVec 8 → BitVec (n + 8)) (c : BitVec (n + 8)) (b : BitVec 8) :
    BitVec (n + 8) :=
  (c <<< 8) ^^^ table ((c >>> n).setWidth 8 ^^^ b)

/-- A message: its first byte has the highest powers. -/
noncomputable def message (bs : List (BitVec 8)) : (ZMod 2)[X] :=
  bs.foldl (fun p b => X ^ 8 * p + poly b) 0

section Register

variable {w n : ℕ}

/-- A step of the register multiplies by `X`. -/
theorem residue_shift (g c : BitVec (w + 1)) :
    residue g (poly (shift g c)) = residue g (X * poly c) := by
  have htop : c.msb = c.getLsbD w := by simp [BitVec.msb_eq_getLsbD_last]
  have hsplit : poly c = ofBits w c.getLsbD + X ^ w * if c.msb then 1 else 0 := by
    unfold poly
    rw [ofBits_add w 1, htop]
    simp [ofBits]
  have hleft : poly (c <<< 1) = X * ofBits w c.getLsbD := by
    rw [poly_shiftLeft (Nat.add_comm w 1), pow_one]
  unfold shift
  rw [poly_xor, hleft, hsplit, mul_add, ← mul_assoc, ← pow_succ', map_add, map_add]
  congr 1
  cases c.msb with
  | false => simp
  | true => simp [residue_pow]

/-- `k` steps of the register multiply by `X ^ k`. -/
theorem residue_shifts (g : BitVec (w + 1)) (k : ℕ) (c : BitVec (w + 1)) :
    residue g (poly (shifts g k c)) = residue g (X ^ k * poly c) := by
  induction k generalizing c with
  | zero => rw [shifts, pow_zero, one_mul]
  | succ k ih =>
    rw [shifts, ih, map_mul, residue_shift, ← map_mul]
    refine congrArg (residue g) ?_
    ring

/-- A table of the remainders of all bytes: eight steps for each. -/
theorem residue_table (g : BitVec (n + 8)) (b : BitVec 8) :
    residue g (poly (shifts g 8 (b.setWidth (n + 8) <<< n))) =
      residue g (X ^ (n + 8) * poly b) := by
  have hbits : ofBits 8 (b.setWidth (n + 8)).getLsbD = poly b := by
    refine ofBits_congr fun i hi => ?_
    rw [BitVec.getLsbD_setWidth]
    simp [show i < n + 8 by omega]
  rw [residue_shifts, poly_shiftLeft rfl, hbits, ← mul_assoc, ← pow_add, Nat.add_comm 8 n]

/-- A byte is shifted in. -/
theorem residue_tableStep {g : BitVec (n + 8)} {table : BitVec 8 → BitVec (n + 8)}
    (htable : ∀ b, residue g (poly (table b)) = residue g (X ^ (n + 8) * poly b))
    (c : BitVec (n + 8)) (b : BitVec 8) :
    residue g (poly (tableStep table c b)) =
      residue g (X ^ 8 * poly c + X ^ (n + 8) * poly b) := by
  have hhigh : ofBits 8 (fun j => c.getLsbD (n + j)) = poly ((c >>> n).setWidth 8) := by
    refine ofBits_congr fun j hj => ?_
    simp [BitVec.getLsbD_ushiftRight, hj]
  have hsplit : poly c = ofBits n c.getLsbD + X ^ n * poly ((c >>> n).setWidth 8) := by
    rw [← hhigh, ← ofBits_add]
    rfl
  unfold tableStep
  rw [poly_xor, map_add, htable, poly_xor, poly_shiftLeft (Nat.add_comm n 8), hsplit, ← map_add]
  refine congrArg (residue g) ?_
  ring

/-- With a table of remainders, the register holds the remainder of the message. -/
theorem poly_foldl_tableStep {g : BitVec (n + 8)} {table : BitVec 8 → BitVec (n + 8)}
    (htable : ∀ b, residue g (poly (table b)) = residue g (X ^ (n + 8) * poly b))
    (bs : List (BitVec 8)) :
    poly (bs.foldl (tableStep table) 0#(n + 8)) = (X ^ (n + 8) * message bs) %ₘ generator g := by
  refine poly_eq_modByMonic ?_
  induction bs using List.reverseRecOn with
  | nil => rw [List.foldl_nil, poly_zero, message, List.foldl_nil, mul_zero]
  | append_singleton bs b ih =>
    have hmessage : message (bs ++ [b]) = X ^ 8 * message bs + poly b := by
      simp [message]
    rw [List.foldl_append, List.foldl_cons, List.foldl_nil, residue_tableStep htable, hmessage,
      map_add, map_mul, ih, ← map_mul, ← map_add]
    refine congrArg (residue g) ?_
    ring

end Register

end Crc
