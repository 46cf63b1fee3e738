/-
# Loops that move a quantity in attempts

An attempt moves some amount, or nothing; after an attempt that moves nothing the loop goes
on only when it tolerates what happened, and only so often.  `returnsAll k retry` says that
the loop, at its attempt `k` and with `retry` empty attempts so far, ends with all of `len`
moved.

* `offered` : the amount of the attempts before one;
* `Steps.returnsAll_iff` : when the amounts suffice and few attempts are empty, all is
  moved exactly when every empty attempt is tolerated.
-/
import Mathlib.Algebra.BigOperators.Group.Finset.Basic
import Mathlib.Algebra.BigOperators.Intervals

namespace RetryLoop

/-- The amount of the attempts before the `k`-th. -/
def offered (amount : ℕ → ℕ) (k : ℕ) : ℕ := ∑ i ∈ Finset.range k, amount i

/-- The number of empty attempts before the `k`-th. -/
def empties (amount : ℕ → ℕ) (k : ℕ) : ℕ := ((Finset.range k).filter fun i => amount i = 0).card

/-- The steps of such a loop. -/
structure Steps (amount : ℕ → ℕ) (tolerated : ℕ → Prop) (len limit : ℕ)
    (returnsAll : ℕ → ℕ → Prop) : Prop where
  done : ∀ {k retry}, len ≤ offered amount k → returnsAll k retry
  fails : ∀ {k retry}, offered amount k < len → amount k = 0 → ¬ tolerated k →
    ¬ returnsAll k retry
  retries : ∀ {k retry}, offered amount k < len → amount k = 0 → tolerated k →
    retry + 1 < limit → (returnsAll k retry ↔ returnsAll (k + 1) (retry + 1))
  moves : ∀ {k retry}, offered amount k < len → 0 < amount k →
    (returnsAll k retry ↔ returnsAll (k + 1) retry)

variable {amount : ℕ → ℕ} {tolerated : ℕ → Prop} {len limit k K : ℕ} {returnsAll : ℕ → ℕ → Prop}

/-- One more round offers one more amount. -/
theorem offered_succ (amount : ℕ → ℕ) (k : ℕ) :
    offered amount (k + 1) = offered amount k + amount k :=
  Finset.sum_range_succ amount k

theorem offered_mono (amount : ℕ → ℕ) : Monotone (offered amount) := by
  apply monotone_nat_of_le_succ
  intro k
  rw [offered_succ]
  omega

/-- One more round counts if it is empty. -/
theorem empties_succ (amount : ℕ → ℕ) (k : ℕ) :
    empties amount (k + 1) = empties amount k + if amount k = 0 then 1 else 0 := by
  unfold empties
  rw [Finset.range_add_one, Finset.filter_insert]
  split_ifs with h
  · apply Finset.card_insert_of_notMem
    simp
  · rfl

theorem empties_mono (amount : ℕ → ℕ) : Monotone (empties amount) := by
  apply monotone_nat_of_le_succ
  intro k
  rw [empties_succ]
  omega

/-- From an attempt on, up to the one at which the amounts suffice. -/
theorem Steps.returnsAll_from (h : Steps amount tolerated len limit returnsAll)
    (hall : len ≤ offered amount K) (hfew : empties amount K < limit) (hk : k ≤ K) :
    returnsAll k (empties amount k) ↔
      ∀ i, k ≤ i → offered amount i < len → amount i = 0 → tolerated i := by
  induction hn : K - k generalizing k with
  | zero =>
    obtain rfl : k = K := by omega
    refine iff_of_true (h.done hall) ?_
    intro i hi hpending
    have hmono := offered_mono amount hi
    omega
  | succ n ih =>
    have hnext := ih (k := k + 1) (by omega) (by omega)
    -- the condition at `k` apart from the condition after it
    have hsplit : (∀ i, k ≤ i → offered amount i < len → amount i = 0 → tolerated i) ↔
        (offered amount k < len → amount k = 0 → tolerated k) ∧
          ∀ i, k + 1 ≤ i → offered amount i < len → amount i = 0 → tolerated i := by
      constructor
      · exact fun hi => ⟨hi k (le_refl k), fun i hki => hi i (by omega)⟩
      · rintro ⟨hfirst, hrest⟩ i hki
        rcases Nat.eq_or_lt_of_le hki with rfl | hlt
        · exact hfirst
        · exact hrest i hlt
    rcases Nat.lt_or_ge (offered amount k) len with hpending | hdone
    · rw [hsplit, ← hnext, empties_succ]
      rcases Nat.eq_zero_or_pos (amount k) with hzero | hpos
      · rw [if_pos hzero]
        have hmono := empties_mono amount (show k + 1 ≤ K by omega)
        rw [empties_succ, if_pos hzero] at hmono
        by_cases htol : tolerated k
        · rw [h.retries hpending hzero htol (by omega)]
          exact ⟨fun hr => ⟨fun _ _ => htol, hr⟩, fun hr => hr.2⟩
        · refine iff_of_false (h.fails hpending hzero htol) ?_
          exact fun hr => htol (hr.1 hpending hzero)
      · rw [if_neg (by omega), Nat.add_zero, h.moves hpending hpos]
        exact ⟨fun hr => ⟨fun _ hzero => absurd hzero (by omega), hr⟩, fun hr => hr.2⟩
    · refine iff_of_true (h.done hdone) ?_
      intro i hki hpending
      have hmono := offered_mono amount hki
      omega

/-- **All is moved** exactly when every empty attempt is tolerated. -/
theorem Steps.returnsAll_iff (h : Steps amount tolerated len limit returnsAll)
    (hcomplete : ∃ K, len ≤ offered amount K ∧ empties amount K < limit) :
    returnsAll 0 0 ↔ ∀ k, offered amount k < len → amount k = 0 → tolerated k := by
  obtain ⟨K, hall, hfew⟩ := hcomplete
  rw [show returnsAll 0 0 = returnsAll 0 (empties amount 0) from rfl,
    h.returnsAll_from hall hfew (Nat.zero_le K)]
  exact ⟨fun hi i => hi i (Nat.zero_le i), fun hi i _ => hi i⟩

end RetryLoop
