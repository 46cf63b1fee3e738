/-
# When the window that `span_counter` reports is real

`ReportsReal arr m` : if `first` is set, it is a bead of the circle, and the reported number of
beads from it on has exactly `m` colours.

The scan records real windows as long as the window is shorter than the circle.  A window
that has grown to the whole circle does no harm, unless the scan goes on until its length
modulo `n` reaches `m`: it then records a length below `m` (`scan_broken`).  `real_iff` turns
this into the exact condition on the beads.
-/
import Pungoo.MinSpanOptimal

namespace MinSpan

open Window

/-- The result `(len, first)` is a window of the circle with exactly `m` colours. -/
structure RealWindow (arr : List ℤ) (m : ℕ) (len first : ℤ) : Prop where
  first_nonneg : 0 ≤ first
  first_lt : first < arr.length
  len_pos : 1 ≤ len
  len_le : len ≤ arr.length
  colours_eq : colours arr first.toNat len.toNat = m

/-- The function returns, and a value of `first` other than `-1` belongs to a real window. -/
def ReportsReal (arr : List ℤ) (m : ℕ) : Prop :=
  ∃ len first, spanCounter arr arr.length m = some (len, first) ∧
    (first ≠ -1 → RealWindow arr m len first)

/-- When the circle has exactly `m` colours, either every bead has its own colour, or each
bead that is the only one of its colour is not the last bead and has at most `m` beads from
it to the end of the array. -/
def LoneBeadsLate (arr : List ℤ) (m : ℕ) : Prop :=
  palette arr = m → m = arr.length ∨
    ∀ p, Single (circle arr arr.length) arr.length p →
      p + 1 < arr.length ∧ arr.length ≤ p + m

variable {arr : List ℤ} {m i : ℕ} {s : Scan}

/-! ## Good and bad ends of a run -/

/-- What is recorded from recordable windows is real. -/
theorem real_of_recorded (hm : 1 ≤ m) (hD : m ≤ palette arr)
    (h : Recorded (circle arr arr.length) arr.length m i s) (hidx : s.bestidx ≠ -1) :
    RealWindow arr m s.bestlen s.bestidx := by
  rcases h with ⟨-, hnone⟩ | ⟨a, e, -, hrec, hlen, hfirst⟩
  · exact absurd hnone hidx
  · have hme : m ≤ e - a := hrec.exact ▸ distinct_le_length
    have hpos := hrec.pos
    have hlt := hrec.lt
    have hle : e - a ≤ arr.length := by
      by_contra hgt
      -- the window one bead to the left would have all colours
      have hfewer := hrec.fewer
      rw [distinct_period (periodic_circle arr (by omega)) (by omega), ← palette_eq] at hfewer
      omega
    rw [hlen, hfirst]
    refine ⟨by omega, by omega, by omega, by omega, ?_⟩
    unfold colours
    rw [Int.toNat_natCast, Int.toNat_natCast, Nat.add_sub_cancel' (by omega)]
    exact hrec.exact

/-- A length below `m` cannot have `m` colours. -/
theorem not_real_of_short {len first : ℤ} (hm : 1 ≤ m) (hlen : len ≤ (m - 1 : ℕ)) :
    ¬ RealWindow arr m len first := by
  intro h
  have hcol := colours_le arr first.toNat len.toNat
  have heq := h.colours_eq
  have hpos := h.len_pos
  omega

/-- The run ends in a state whose window is real, if there is one. -/
def Scan.ReportsReal (arr : List ℤ) (m : ℕ) (s : Scan) : Prop :=
  s.bestidx ≠ -1 → RealWindow arr m s.bestlen s.bestidx

/-- A run that ends with a length below `m` has set its index. -/
theorem not_real_of_broken (hm : 1 ≤ m) (hmn : m ≤ arr.length) (h : s.Untouched arr.length)
    (hlen : s.bestlen ≤ (m - 1 : ℕ)) : ¬ s.ReportsReal arr m := by
  intro hreal
  have hidx : s.bestidx ≠ -1 := by
    intro hnone
    have hfull := h hnone
    omega
  exact not_real_of_short hm hlen (hreal hidx)

/-- With the last bead alone in its colour: the run is harmless only when all beads are. -/
theorem real_first_lap {mapColor : ColorMap} {left : ℕ} (hm : 1 ≤ m)
    (hreg : Regular (circle arr arr.length) arr.length m i s) (hlast : s.lastidx = 0)
    (hfull : i + 1 = arr.length) (hleft : i + 1 + left = 2 * arr.length)
    (hsingle : Single (circle arr arr.length) arr.length i)
    (hgrown : Grown (circle arr arr.length) arr.length m (i + 1)
      { s with mapColor := mapColor }) (hunt : s.Untouched arr.length) :
    (scan arr arr.length m left (i + 1) { s with mapColor := mapColor }).ReportsReal arr m ↔
      LoneBeadsLate arr m := by
  have hall : palette arr = m := (palette_eq arr).trans hgrown.all
  have hmn : m ≤ arr.length := hall ▸ palette_le_length arr
  by_cases heq : m = arr.length
  · refine iff_of_true ?_ fun _ => Or.inl heq
    obtain ⟨hlen, hidx⟩ := scan_quiet left hgrown (by omega) hm (Or.inr heq)
    unfold Scan.ReportsReal
    rw [hlen, hidx]
    exact real_of_recorded hm (Nat.le_of_eq hall.symm) hreg.recorded
  · have hbroken := broken_first_lap hgrown hlast hfull hleft hm (by omega)
    refine iff_of_false
      (not_real_of_broken hm hmn (scan_untouched left (i + 1) hunt) hbroken) ?_
    intro hlate
    have hend := (hlate hall).resolve_left heq i hsingle
    omega

/-- With a bead alone in its colour met on the second lap: the run is harmless when too few
beads are left to spoil it. -/
theorem real_second_lap {mapColor : ColorMap} {left : ℕ} (hm : 1 ≤ m)
    (hreg : Regular (circle arr arr.length) arr.length m i s) (hlast : 0 < s.lastidx)
    (hfull : i + 1 = s.lastidx + arr.length) (hleft : i + 1 + left = 2 * arr.length)
    (hsingle : Single (circle arr arr.length) arr.length (s.lastidx - 1))
    (hgrown : Grown (circle arr arr.length) arr.length m (i + 1)
      { s with mapColor := mapColor }) (hunt : s.Untouched arr.length) :
    (scan arr arr.length m left (i + 1) { s with mapColor := mapColor }).ReportsReal arr m ↔
      LoneBeadsLate arr m := by
  have hn := hreg.last_lt
  have hall : palette arr = m := (palette_eq arr).trans hgrown.all
  have hmn : m ≤ arr.length := hall ▸ palette_le_length arr
  by_cases hroom : s.lastidx + m ≤ arr.length
  · have hbroken := broken_second_lap hreg hgrown hlast hfull hleft hm hroom
    refine iff_of_false
      (not_real_of_broken hm hmn (scan_untouched left (i + 1) hunt) hbroken) ?_
    intro hlate
    have hbehind := (hlate hall).resolve_left (by omega) (s.lastidx - 1) hsingle
    omega
  · obtain ⟨hlen, hidx⟩ := quiet_second_lap hgrown hleft hm hroom
    refine iff_of_true ?_ fun _ => Or.inr ?_
    · unfold Scan.ReportsReal
      rw [hlen, hidx]
      exact real_of_recorded hm (Nat.le_of_eq hall.symm) hreg.recorded
    · -- the first bead alone in its colour is the one that stopped the window
      intro p hp
      obtain ⟨hheld, hend⟩ := hreg.held hgrown.all p hp
      have hpn := hp.1
      refine ⟨?_, by omega⟩
      by_contra hge
      have hzero := hend (by omega)
      omega

/-- A full run from the initial state. -/
theorem scan_real_iff (hm : 1 ≤ m) (hD : m ≤ palette arr) :
    (scan arr arr.length m (2 * arr.length) 0 ⟨0, ∅, arr.length + 1, -1⟩).ReportsReal arr m ↔
      LoneBeadsLate arr m := by
  have hn : 0 < arr.length := lt_of_lt_of_le (lt_of_lt_of_le hm hD) (palette_le_length arr)
  rcases scan_outcome (2 * arr.length) (regular_start hm hn) hm (Nat.zero_add _)
    (palette_eq arr ▸ hD) with
    hflag | ⟨i, s, mapColor, left, hreg, hfull, hstop, hleft, hgrown, hscan⟩
  · refine iff_of_true (real_of_recorded hm hD hflag.recorded) fun hall => Or.inr ?_
    intro p hp
    exact absurd hp (hflag.unheld ((palette_eq arr).symm.trans hall) p)
  · have hunt : s.Untouched arr.length := by
      rcases hreg.recorded with ⟨hlen, -⟩ | ⟨a, -, -, -, -, hidx⟩
      · exact fun _ => hlen
      · intro hnone
        omega
    rw [hscan]
    rcases hstop with ⟨hlast, hsingle⟩ | ⟨hlast, hsingle⟩
    · rw [hlast, Nat.zero_add] at hfull
      rw [show arr.length - 1 = i by omega] at hsingle
      exact real_first_lap hm hreg hlast hfull hleft hsingle hgrown hunt
    · exact real_second_lap hm hreg hlast hfull hleft hsingle hgrown hunt

/-! ## The whole function -/

/-- **`span_counter` reports real windows exactly when** its `int`s stay in range and the beads
alone in their colour, if they matter, come late enough. -/
theorem real_iff (arr : List ℤ) {m : ℕ} (hm : 1 ≤ m) :
    ReportsReal arr m ↔ InRange arr.length m ∧ LoneBeadsLate arr m := by
  by_cases hrange : InRange arr.length m
  · rcases Nat.lt_or_ge (palette arr) m with hD | hD
    · refine iff_of_true ⟨_, _, spanCounter_too_few hm hrange hD, fun h => absurd rfl h⟩
        ⟨hrange, fun hall => ?_⟩
      omega
    · have hscan := spanCounter_of_le arr hrange (le_trans hD (palette_le_length arr))
      have hreal := scan_real_iff hm hD
      constructor
      · rintro ⟨len, first, heq, hwindow⟩
        rw [hscan, Option.some.injEq, Prod.mk.injEq] at heq
        obtain ⟨rfl, rfl⟩ := heq
        exact ⟨hrange, hreal.mp hwindow⟩
      · rintro ⟨-, hlate⟩
        exact ⟨_, _, hscan, hreal.mpr hlate⟩
  · refine iff_of_false ?_ fun h => hrange h.1
    rintro ⟨len, first, heq, -⟩
    rw [spanCounter_eq_none arr hrange] at heq
    exact Option.some_ne_none _ heq.symm

/-- A circle without a bead alone in its colour. -/
theorem real_two_pairs : ReportsReal [1, 1, 2, 2] 2 := by
  refine (real_iff [1, 1, 2, 2] (m := 2) (by decide)).mpr ⟨⟨by decide, by decide⟩, ?_⟩
  intro _
  apply Or.inr
  intro p hp
  exact absurd hp (no_single_two_pairs p)

/-- Three beads of two colours: one bead is reported to have both. -/
theorem not_real_three_beads : ¬ ReportsReal [1, 1, 2] 2 := by
  rintro ⟨len, first, heq, hwindow⟩
  have hrun : spanCounter [1, 1, 2] ([1, 1, 2] : List ℤ).length 2 = some (1, 1) := by decide
  rw [hrun, Option.some.injEq, Prod.mk.injEq] at heq
  obtain ⟨rfl, rfl⟩ := heq
  exact absurd (hwindow (by decide)).colours_eq (by decide)

end MinSpan
