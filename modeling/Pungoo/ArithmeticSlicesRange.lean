/-
# When `numberOfArithmeticSlices` stays within `int`

The count may be an `int` although a value on the way to it is not: a difference of two
elements, the product `(num - 2) * (num - 1)` before it is halved, or an index.  A run of
46342 elements is the longest one whose product is an `int`.

* `FitsFrom A d first` : what the rest of a scan needs, from the difference `d` and the run
  from `first` on;
* `run_eq_ok_iff` : the scan ends with the count exactly when it has that.
-/
import Pungoo.ArithmeticSlices

namespace ArithmeticSlices

open IntArray Failing

/-! ## Operations that are checked -/

variable {A : List ℤ} {gap ret c x : ℤ} {d first i num : ℕ}

theorem fine_checked_iff : Fine checked x ↔ intMin ≤ x ∧ x ≤ intMax := by
  unfold Fine checked
  constructor
  · intro h
    by_contra hout
    rw [if_neg hout] at h
    exact absurd h (by simp)
  · exact fun h => if_pos h

theorem fine_index (h0 : 0 ≤ x) (hmax : x ≤ intMax) : Fine checked x := checked_nonneg h0 hmax

/-- A checked operation is followed by the rest when its result is in range. -/
theorem checked_bind_eq_ok {α : Type} {f : ℤ → Except Fault α} {a : α} :
    (checked x >>= f) = .ok a ↔ (intMin ≤ x ∧ x ≤ intMax) ∧ f x = .ok a := by
  by_cases h : intMin ≤ x ∧ x ≤ intMax
  · rw [fine_checked_iff.mpr h, ok_bind]
    exact ⟨fun ha => ⟨h, ha⟩, fun ha => ha.2⟩
  · have hover : checked x = .error .overflow := if_neg h
    rw [hover, error_bind]
    exact ⟨fun ha => absurd ha (by simp), fun ha => absurd ha.1 h⟩

/-- The product of a run of `num` elements is an `int` up to 46342 elements. -/
theorem product_le_iff : (((num - 2) * (num - 1) : ℕ) : ℤ) ≤ intMax ↔ num ≤ 46342 := by
  have hmax : intMax = ((2147483647 : ℕ) : ℤ) := rfl
  rw [hmax, Int.ofNat_le]
  constructor
  · intro h
    by_contra hlong
    have hmul : 46341 * 46342 ≤ (num - 2) * (num - 1) :=
      Nat.mul_le_mul (by omega) (by omega)
    omega
  · intro h
    have hmul : (num - 2) * (num - 1) ≤ 46340 * 46341 :=
      Nat.mul_le_mul (by omega) (by omega)
    omega

theorem addSlices_checked (h : 2 ≤ num) (hnum : (num : ℤ) ≤ intMax) (hret : 0 ≤ ret)
    (hsum : ret + inRun num ≤ intMax) :
    addSlices checked ret num = .ok x ↔ num ≤ 46342 ∧ ret + inRun num = x := by
  have htwo : Fine checked ((num : ℤ) - 2) := fine_index (by omega) (by omega)
  have hone : Fine checked ((num : ℤ) - 1) := fine_index (by omega) (by omega)
  constructor
  · intro hok
    have hproduct := hok
    rw [addSlices_eq h htwo hone, checked_bind_eq_ok] at hproduct
    have hle := product_le_iff.mp hproduct.1.2
    rw [addSlices_fine h htwo hone (fine_checked_iff.mpr hproduct.1),
      fine_index (by omega) hsum] at hok
    exact ⟨hle, Except.ok.inj hok⟩
  · rintro ⟨hle, rfl⟩
    have hproduct : Fine checked (((num - 2) * (num - 1) : ℕ) : ℤ) :=
      fine_index (by omega) (product_le_iff.mpr hle)
    rw [addSlices_fine h htwo hone hproduct]
    exact fine_index (by omega) hsum

/-! ## What a scan needs -/

/-- The length is an `int`, and so is the index that is compared with it at the end; from `d` on
all differences are `int`s; from `first` on no run has more than 46342 elements. -/
structure FitsFrom (A : List ℤ) (d first : ℕ) : Prop where
  length_le : (A.length : ℤ) ≤ intMax
  last : (A.length : ℤ) = intMax → diff A (A.length - 3) = diff A (A.length - 2)
  diffs : ∀ k, d ≤ k → k + 1 < A.length → intMin ≤ diff A k ∧ diff A k ≤ intMax
  runs : ∀ k, first ≤ k → k + 46342 < A.length → ¬ Arithmetic A k (k + 46342)

/-- The next difference is needed, and what is behind it. -/
theorem fitsFrom_succ (hd : d + 1 < A.length) :
    FitsFrom A d first ↔ (intMin ≤ diff A d ∧ diff A d ≤ intMax) ∧ FitsFrom A (d + 1) first := by
  constructor
  · intro h
    exact ⟨h.diffs d (le_refl d) hd, h.length_le, h.last, fun k hk => h.diffs k (by omega), h.runs⟩
  · rintro ⟨hdiff, h⟩
    refine ⟨h.length_le, h.last, ?_, h.runs⟩
    intro k hk hlt
    rcases Nat.eq_or_lt_of_le hk with rfl | hk
    · exact hdiff
    · exact h.diffs k hk hlt

/-- The differences of an open run are equal. -/
theorem Open.arithmetic {k m : ℕ} (h : Open A i first gap ret) (hk : first ≤ k)
    (hm : m ≤ i - 1) : Arithmetic A k m := by
  intro a ha b hb
  rw [Finset.mem_Ico] at ha hb
  rw [h.run.diff_eq a (by omega) (by omega), h.run.diff_eq b (by omega) (by omega)]

/-- A run that ends must not be too long; the runs within it are shorter. -/
theorem Open.fits_ends (h : Open A i first gap ret) (hlt : i < A.length)
    (hgap : gap ≠ diff A (i - 1)) :
    FitsFrom A d first ↔ i - first ≤ 46342 ∧ FitsFrom A d (i - 1) := by
  have hfirst := h.first_le
  constructor
  · intro hfits
    refine ⟨?_, hfits.length_le, hfits.last, hfits.diffs, fun k hk => hfits.runs k (by omega)⟩
    by_contra hlong
    exact hfits.runs first (le_refl first) (by omega) (h.arithmetic (le_refl first) (by omega))
  · rintro ⟨hnum, hfits⟩
    refine ⟨hfits.length_le, hfits.last, hfits.diffs, ?_⟩
    intro k hk hlen
    rcases Nat.lt_or_ge k (i - 1) with hin | hout
    · -- such a run would go over the end of this one
      intro harith
      apply hgap
      rw [← h.last_eq]
      exact harith _ (Finset.mem_Ico.mpr (by omega)) _ (Finset.mem_Ico.mpr (by omega))
    · exact hfits.runs k hout hlen

/-- What is needed after the loop, of an array with an `int` length. -/
theorem Open.fits_finish (h : Open A A.length first gap ret) (hn : (A.length : ℤ) ≤ intMax) :
    FitsFrom A (A.length - 1) first ↔
      (first : ℤ) + 3 ≤ intMax ∧ A.length - first ≤ 46342 := by
  have hfirst := h.first_le
  constructor
  · intro hfits
    refine ⟨?_, ?_⟩
    · by_contra hover
      -- then the last run consists of the last two elements
      have hlen : (A.length : ℤ) = intMax := by omega
      have hpos : first = A.length - 2 := by omega
      have hlong : 3 < A.length := by
        unfold intMax at hlen
        omega
      have hlast := hfits.last hlen
      rcases h.run.maximal with h0 | hne
      · omega
      · apply hne
        rw [hpos, show A.length - 2 - 1 = A.length - 3 by omega, hlast]
        exact h.last_eq
    · by_contra hlong
      exact hfits.runs first (le_refl first) (by omega) (h.arithmetic (le_refl first) (by omega))
  · rintro ⟨hthird, hnum⟩
    refine ⟨hn, ?_, fun k hk hlt => by omega, fun k hk hlt => by omega⟩
    intro hlen
    rw [h.run.diff_eq (A.length - 3) (by omega) (by omega),
      h.run.diff_eq (A.length - 2) (by omega) (by omega)]

/-! ## The scan -/

/-- The rest of the loop and what follows it. -/
def run (A : List ℤ) (fuel : ℕ) (s : State) : Except Fault ℤ :=
  loop checked A fuel s >>= finish checked A

variable {fuel : ℕ}

theorem run_succ {s : State} (hlt : s.i < A.length) :
    run A (fuel + 1) s = step checked A s >>= run A fuel := by
  unfold run
  rw [loop, if_pos hlt]
  cases step checked A s with
  | ok t => rfl
  | error e => rfl

theorem fine_prev (hpos : 1 ≤ i) (hmax : (i : ℤ) ≤ intMax) : Fine checked ((i : ℤ) - 1) :=
  fine_index (by omega) (by omega)

/-- The index after one that is an `int` is compared with the bound. -/
theorem next_inRange (i : ℕ) :
    (intMin ≤ ((i + 1 : ℕ) : ℤ) ∧ ((i + 1 : ℕ) : ℤ) ≤ intMax) ↔ ((i + 1 : ℕ) : ℤ) ≤ intMax := by
  have hmin : intMin ≤ 0 := by decide
  constructor
  · exact fun h => h.2
  · exact fun h => ⟨by omega, h⟩

theorem run_fresh (h : Fresh A i ret) (hmax : (i : ℤ) ≤ intMax) (gap first : ℤ) :
    run A (fuel + 1) ⟨i, false, gap, first, ret⟩ = .ok c ↔
      (intMin ≤ diff A (i - 1) ∧ diff A (i - 1) ≤ intMax) ∧ ((i + 1 : ℕ) : ℤ) ≤ intMax ∧
        run A fuel ⟨(i + 1 : ℕ), true, diff A (i - 1), (i - 1 : ℕ), ret⟩ = .ok c := by
  rw [run_succ (Int.ofNat_lt.mpr h.lt), step_fresh h gap first (fine_prev h.pos hmax), bind_assoc,
    checked_bind_eq_ok, bind_assoc, checked_bind_eq_ok, next_inRange, ok_bind]

theorem run_extends (h : Open A i first gap ret) (hlt : i < A.length) (hmax : (i : ℤ) ≤ intMax)
    (hgap : gap = diff A (i - 1)) :
    run A (fuel + 1) ⟨i, true, gap, first, ret⟩ = .ok c ↔
      (intMin ≤ diff A (i - 1) ∧ diff A (i - 1) ≤ intMax) ∧ ((i + 1 : ℕ) : ℤ) ≤ intMax ∧
        run A fuel ⟨(i + 1 : ℕ), true, gap, first, ret⟩ = .ok c := by
  have hfirst := h.first_le
  rw [run_succ (Int.ofNat_lt.mpr hlt), step_open h hlt (fine_prev (by omega) hmax)
    (fine_index (by omega) (by omega)), bind_assoc, checked_bind_eq_ok,
    if_neg (not_not.mpr hgap), bind_assoc, checked_bind_eq_ok, next_inRange, ok_bind]

theorem run_ends (h : Open A i first gap ret) (hlt : i < A.length) (hmax : (i : ℤ) ≤ intMax)
    (hret : 0 ≤ ret) (hsum : ret + inRun (i - first) ≤ intMax) (hgap : gap ≠ diff A (i - 1)) :
    run A (fuel + 1) ⟨i, true, gap, first, ret⟩ = .ok c ↔
      (intMin ≤ diff A (i - 1) ∧ diff A (i - 1) ≤ intMax) ∧ i - first ≤ 46342 ∧
        run A fuel ⟨i, false, gap, first, ret + inRun (i - first)⟩ = .ok c := by
  have hfirst := h.first_le
  rw [run_succ (Int.ofNat_lt.mpr hlt), step_open h hlt (fine_prev (by omega) hmax)
    (fine_index (by omega) (by omega)), bind_assoc, checked_bind_eq_ok, if_pos hgap]
  apply and_congr_right
  intro _
  by_cases hnum : i - first ≥ 3
  · have hadd : ∀ x, addSlices checked ret ((i - first : ℕ) : ℤ) = .ok x ↔
        i - first ≤ 46342 ∧ ret + inRun (i - first) = x := by
      intro x
      exact addSlices_checked (by omega) (by omega) hret hsum
    rw [if_pos hnum]
    cases hx : addSlices checked ret ((i - first : ℕ) : ℤ) with
    | ok x =>
      obtain ⟨hle, rfl⟩ := (hadd x).mp hx
      rw [ok_bind, ok_bind]
      exact ⟨fun hok => ⟨hle, hok⟩, fun hok => hok.2⟩
    | error e =>
      have hlong : ¬ i - first ≤ 46342 := by
        intro hle
        rw [(hadd _).mpr ⟨hle, rfl⟩] at hx
        exact absurd hx (by simp)
      rw [error_bind, error_bind]
      exact iff_of_false (by simp) fun hok => hlong hok.1
  · rw [if_neg hnum, ok_bind, show i - first = 2 by omega, inRun_two, Nat.cast_zero, add_zero]
    exact ⟨fun hok => ⟨by omega, hok⟩, fun hok => hok.2⟩

theorem run_finish (h : Open A A.length first gap ret) (hmax : (A.length : ℤ) ≤ intMax)
    (hret : 0 ≤ ret) (hsum : ret + inRun (A.length - first) ≤ intMax) :
    run A (fuel + 1) ⟨A.length, true, gap, first, ret⟩ = .ok (ret + inRun (A.length - first)) ↔
      (first : ℤ) + 3 ≤ intMax ∧ A.length - first ≤ 46342 := by
  have hfirst := h.first_le
  have hend : run A (fuel + 1) ⟨A.length, true, gap, first, ret⟩
      = finish checked A ⟨A.length, true, gap, first, ret⟩ := by
    unfold run
    rw [loop, if_neg (lt_irrefl _)]
    exact ok_bind _ _
  rw [hend]
  by_cases hthird : (first : ℤ) + 3 ≤ intMax
  · rw [finish_open h (fine_index (by omega) hthird) (fine_index (by omega) (by omega))]
    by_cases hlong : first + 3 ≤ A.length
    · rw [if_pos hlong, addSlices_checked (by omega) (by omega) hret hsum]
      exact ⟨fun hok => ⟨hthird, hok.1⟩, fun hok => ⟨hok.2, rfl⟩⟩
    · rw [if_neg hlong, show A.length - first = 2 by omega, inRun_two, Nat.cast_zero, add_zero]
      exact iff_of_true rfl ⟨hthird, by omega⟩
  · refine iff_of_false ?_ fun hok => hthird hok.1
    rw [finish, if_pos rfl, checked_bind_eq_ok]
    exact fun hok => hthird hok.1.2

theorem card_slices_mono {m m' : ℕ} (h : m ≤ m') : (slices A m).card ≤ (slices A m').card := by
  apply Finset.card_le_card
  intro p hp
  rw [mem_slices] at hp ⊢
  exact ⟨by omega, hp.2⟩

/-- What an open run adds is counted among all slices. -/
theorem Open.ret_le (h : Open A i first gap ret) :
    ret + inRun (i - first) ≤ (slices A A.length).card := by
  have hmono := card_slices_mono (A := A) h.le
  have hret := h.ret_eq
  omega

/-- The scan from a state between two elements. -/
theorem run_eq_ok_iff (hcard : ((slices A A.length).card : ℤ) ≤ intMax) (fuel i : ℕ)
    (hmax : (i : ℤ) ≤ intMax) :
    (∀ ret gap first, Fresh A i ret → 2 * (A.length - i) < fuel →
      (run A fuel ⟨i, false, gap, first, ret⟩ = .ok ((slices A A.length).card : ℤ) ↔
        FitsFrom A (i - 1) (i - 1))) ∧
    (∀ (first : ℕ) (gap ret : ℤ), Open A i first gap ret → 0 ≤ ret →
      2 * (A.length - i) + 1 < fuel →
      (run A fuel ⟨i, true, gap, first, ret⟩ = .ok ((slices A A.length).card : ℤ) ↔
        FitsFrom A (i - 1) first)) := by
  induction fuel generalizing i with
  | zero => exact ⟨fun _ _ _ _ h => by omega, fun _ _ _ _ _ h => by omega⟩
  | succ fuel ih =>
    -- going on to the next element, which needs an index
    have hgo : ∀ (first : ℕ) (gap ret : ℤ), Open A (i + 1) first gap ret → 0 ≤ ret →
        i < A.length → 2 * (A.length - i) < fuel + 1 →
        ((((i + 1 : ℕ) : ℤ) ≤ intMax ∧ run A fuel ⟨(i + 1 : ℕ), true, gap, first, ret⟩
          = .ok ((slices A A.length).card : ℤ)) ↔ FitsFrom A i first) := by
      intro first gap ret h hret hlt hfuel
      constructor
      · rintro ⟨hnext, hok⟩
        exact ((ih (i + 1) hnext).2 first gap ret h hret (by omega)).mp hok
      · intro hfits
        have hlen := hfits.length_le
        have hnext : ((i + 1 : ℕ) : ℤ) ≤ intMax := by omega
        exact ⟨hnext, ((ih (i + 1) hnext).2 first gap ret h hret (by omega)).mpr hfits⟩
    constructor
    · intro ret gap first h hfuel
      have hpos := h.pos
      have hlt := h.lt
      have hret : 0 ≤ ret := by
        rw [h.ret_eq]
        exact Int.natCast_nonneg _
      rw [run_fresh h hmax, hgo _ _ _ h.starts hret hlt (by omega),
        fitsFrom_succ (show i - 1 + 1 < A.length by omega), Nat.sub_add_cancel hpos]
    · intro first gap ret h hret hfuel
      have hfirst := h.first_le
      have hsum := h.ret_le
      rcases Nat.eq_or_lt_of_le h.le with rfl | hlt
      · rw [← h.ret_eq, run_finish h hmax hret (by omega), h.fits_finish hmax]
      · have hsucc : i - 1 + 1 = i := by omega
        by_cases hgap : gap = diff A (i - 1)
        · rw [run_extends h hlt hmax hgap, hgo _ _ _ (h.extends hlt hgap) hret hlt (by omega),
            fitsFrom_succ (show i - 1 + 1 < A.length by omega), hsucc]
        · have hends := (ih i hmax).1 _ gap first (h.ends hlt hgap) (by omega)
          rw [run_ends h hlt hmax hret (by omega) hgap, hends, h.fits_ends hlt hgap]
          constructor
          · exact fun hfits => hfits.2
          · intro hfits
            exact ⟨hfits.2.diffs (i - 1) (le_refl _) (by omega), hfits⟩

/-! ## Whole arrays -/

/-- The array has fewer than three elements, or everything that a scan of it computes is an
`int`. -/
def Fits (A : List ℤ) : Prop := A.length < 3 ∨ FitsFrom A 0 0

/-- **The count stays within `int`.**  When the number of slices is an `int`, it is returned, and
no operation overflows, exactly when the array fits. -/
theorem numberOfArithmeticSlices_checked_iff (A : List ℤ)
    (hcard : ((slices A A.length).card : ℤ) ≤ intMax) :
    numberOfArithmeticSlices checked A = .ok ((slices A A.length).card : ℤ) ↔ Fits A := by
  unfold numberOfArithmeticSlices
  rcases Nat.lt_or_ge A.length 3 with hshort | hlong
  · rw [if_pos hshort, slices_eq_empty hshort]
    exact iff_of_true rfl (Or.inl hshort)
  · have hiff := (run_eq_ok_iff hcard (2 * A.length) 1 (by decide)).1 0 (-1) 0
      (fresh_start (by omega)) (by omega)
    rw [if_neg (by omega)]
    refine hiff.trans ⟨Or.inr, fun h => h.resolve_left (by omega)⟩

/-- The array of `main`. -/
theorem numberOfArithmeticSlices_main :
    numberOfArithmeticSlices checked [2, 1, 3, 4, 2, 3]
        = .ok ((slices [2, 1, 3, 4, 2, 3] 6).card : ℤ) ↔ Fits [2, 1, 3, 4, 2, 3] :=
  numberOfArithmeticSlices_checked_iff [2, 1, 3, 4, 2, 3] (by decide)

/-- The first difference of an array without slices overflows. -/
theorem numberOfArithmeticSlices_overflow :
    numberOfArithmeticSlices checked [intMin, intMax, 0] = .error .overflow ∧
      (slices [intMin, intMax, 0] 3).card = 0 := by
  decide

end ArithmeticSlices
