/-
# Positional numerals and their mirror images

`Nat.digits b n` lists the digits of `n` in base `b` from the least significant
one on.  Two things are added to Mathlib's development of it:

* reading digits from the most significant one on, as a left fold does that reduces
  every step modulo some `M` (`foldl_horner_mod`);
* `mirror b n`, the number whose digits are those of `n` in the opposite order.
  It equals `n` exactly for the palindromes (`mirror_eq_self_iff`).
-/
import Mathlib.Data.Nat.Digits.Lemmas

namespace Numeral

/-! ## Reading from the most significant digit on -/

/-- A left fold reads the last digit as the least significant one; reducing after every
digit yields the remainder of the number read. -/
theorem foldl_horner_mod (b M : ℕ) (l : List ℕ) :
    l.foldl (fun acc d => (acc * b + d) % M) 0 = Nat.ofDigits b l.reverse % M := by
  induction l using List.reverseRecOn with
  | nil => rw [List.foldl_nil, List.reverse_nil, Nat.ofDigits_nil, Nat.zero_mod]
  | append_singleton l d ih =>
    rw [List.foldl_append, List.foldl_cons, List.foldl_nil, ih, List.reverse_append,
      List.reverse_singleton, List.singleton_append, Nat.ofDigits_cons,
      Nat.add_mod, Nat.mul_mod, Nat.mod_mod, ← Nat.mul_mod, ← Nat.add_mod]
    congr 1
    ring

/-- Leading zeros do not change the number read. -/
theorem ofDigits_reverse_replicate_zero (b k : ℕ) (l : List ℕ) :
    Nat.ofDigits b (List.replicate k 0 ++ l).reverse = Nat.ofDigits b l.reverse := by
  rw [List.reverse_append, List.reverse_replicate, Nat.ofDigits_append_replicate_zero]

/-! ## Mirror images -/

/-- The number whose base-`b` digits are those of `n` in the opposite order. -/
def mirror (b n : ℕ) : ℕ := Nat.ofDigits b (Nat.digits b n).reverse

theorem mirror_lt {b : ℕ} (hb : 1 < b) (n : ℕ) :
    mirror b n < b ^ (Nat.digits b n).length := by
  have h := Nat.ofDigits_lt_base_pow_length hb (l := (Nat.digits b n).reverse)
    (fun d hd => Nat.digits_lt_base hb (List.mem_reverse.mp hd))
  rwa [List.length_reverse] at h

/-- The mirror image keeps every bound that is a power of the base. -/
theorem mirror_lt_pow {b k n : ℕ} (hb : 1 < b) (hn : n < b ^ k) : mirror b n < b ^ k := by
  have hlen : (Nat.digits b n).length ≤ k := (Nat.digits_length_le_iff hb n).mpr hn
  exact (mirror_lt hb n).trans_le (Nat.pow_le_pow_right (by omega) hlen)

theorem mirror_pos {b n : ℕ} (hn : 0 < n) : 0 < mirror b n := by
  have hne : Nat.digits b n ≠ [] := Nat.digits_ne_nil_iff_ne_zero.mpr (by omega)
  have hlast := Nat.getLast_digit_ne_zero b (m := n) (by omega)
  rw [mirror, ← List.dropLast_append_getLast hne, List.reverse_append, List.reverse_singleton,
    List.singleton_append, Nat.ofDigits_cons]
  omega

/-- A number is its own mirror image exactly when its digits are a palindrome. -/
theorem mirror_eq_self_iff {b : ℕ} (hb : 1 < b) (n : ℕ) :
    mirror b n = n ↔ (Nat.digits b n).reverse = Nat.digits b n := by
  constructor
  · intro h
    refine Nat.ofDigits_inj_of_len_eq hb (by rw [List.length_reverse]) ?_ ?_ ?_
    · exact fun d hd => Nat.digits_lt_base hb (List.mem_reverse.mp hd)
    · exact fun d hd => Nat.digits_lt_base hb hd
    · rw [Nat.ofDigits_digits]
      exact h
  · intro h
    rw [mirror, h, Nat.ofDigits_digits]

end Numeral
