/-
# When `span_counter` finds the shortest window

`Optimal arr m` : `span_counter` returns the least length of a circular window with
exactly `m` colours, or `n + 1` and `-1` when the circle has fewer colours.

The scan only sees recordable windows (`Pungoo.MinSpanRun`), and with `m` equal to the
number of all colours a colour that is held once stops it early.  `optimal_iff` turns
this into the exact condition on the beads.
-/
import Pungoo.MinSpanRun
import Mathlib.Data.List.GetD

namespace MinSpan

open Window

/-! ## What the function is for -/

/-- The number of colours of the `len` beads from `a` on, around the circle. -/
def colours (arr : List ℤ) (a len : ℕ) : ℕ := distinct (circle arr arr.length) a (a + len)

/-- The number of colours of the whole circle. -/
def palette (arr : List ℤ) : ℕ := arr.toFinset.card

/-- `len` is the least length of a circular window with exactly `m` colours. -/
structure Shortest (arr : List ℤ) (m len : ℕ) : Prop where
  pos : 1 ≤ len
  le : len ≤ arr.length
  found : ∃ a, a < arr.length ∧ colours arr a len = m
  least : ∀ a len', a < arr.length → 1 ≤ len' → len' ≤ arr.length → colours arr a len' = m →
    len ≤ len'

/-- The result of `span_counter` is the shortest length, or says that there is none. -/
def Optimal (arr : List ℤ) (m : ℕ) : Prop :=
  (m ≤ palette arr → ∃ (len : ℕ) (first : ℤ), Shortest arr m len ∧
    spanCounter arr arr.length m = some ((len : ℤ), first)) ∧
  (palette arr < m → spanCounter arr arr.length m = some ((arr.length : ℤ) + 1, -1))

/-! ## The condition -/

/-- The `int`s `n + 1` and, where it is computed, `2 * n` are in range. -/
def InRange (n m : ℕ) : Prop := n + 1 ≤ intMax ∧ (m ≤ n → 2 * n ≤ intMax)

/-- Some shortest window, not at the start of the array, has fewer colours when shifted
back by one bead.  With all colours wanted, every bead that is the only one of its colour
lies at or behind the start of that window, is not the last bead, and has at most `m`
beads from it to the end of the array. -/
def Reached (arr : List ℤ) (m : ℕ) : Prop :=
  ∃ a len, Shortest arr m len ∧ 0 < a ∧ a < arr.length ∧
    colours arr a len = m ∧ colours arr (a - 1) len ≠ m ∧
    (palette arr = m → ∀ p, Single (circle arr arr.length) arr.length p →
      a ≤ p ∧ p + 1 < arr.length ∧ arr.length ≤ p + m)

/-! ## Shortest windows -/

variable {arr : List ℤ} {m len i : ℕ} {s : Scan}

theorem palette_eq (arr : List ℤ) :
    palette arr = distinct (circle arr arr.length) 0 arr.length := by
  unfold palette
  rw [distinct]
  congr 1
  ext c
  rw [List.mem_toFinset, mem_values, List.mem_iff_getElem]
  constructor
  · rintro ⟨p, hp, rfl⟩
    exact ⟨p, Nat.zero_le p, hp, by rw [circle_of_lt arr hp, bead, List.getD_eq_getElem _ _ hp]⟩
  · rintro ⟨p, -, hp, rfl⟩
    exact ⟨p, hp, by rw [circle_of_lt arr hp, bead, List.getD_eq_getElem _ _ hp]⟩

theorem palette_le_length (arr : List ℤ) : palette arr ≤ arr.length := List.toFinset_card_le arr

theorem colours_le (arr : List ℤ) (a len : ℕ) : colours arr a len ≤ len := by
  have hlen := distinct_le_length (f := circle arr arr.length) (a := a) (b := a + len)
  rwa [Nat.add_sub_cancel_left] at hlen

/-- A window with exactly `m` colours exists, so there is a shortest one. -/
theorem exists_shortest (hm : 1 ≤ m) (hD : m ≤ palette arr) : ∃ len, Shortest arr m len := by
  classical
  have hfound : ∃ len, 1 ≤ len ∧ len ≤ arr.length ∧
      ∃ a, a < arr.length ∧ colours arr a len = m := by
    have hn := palette_le_length arr
    have hle : m ≤ distinct (circle arr arr.length) 0 (0 + arr.length) := by
      rw [Nat.zero_add, ← palette_eq]
      exact hD
    obtain ⟨k, hk, heq⟩ := exists_distinct_eq hle
    have hmk : m ≤ k := heq ▸ colours_le arr 0 k
    exact ⟨k, by omega, hk, 0, by omega, heq⟩
  obtain ⟨h1, h2, h3⟩ := Nat.find_spec hfound
  exact ⟨Nat.find hfound, h1, h2, h3, fun a len' ha h4 h5 h6 =>
    Nat.find_min' hfound ⟨h4, h5, a, ha, h6⟩⟩

theorem Shortest.unique {len' : ℕ} (h : Shortest arr m len) (h' : Shortest arr m len') :
    len = len' := by
  obtain ⟨a, ha, hcol⟩ := h.found
  obtain ⟨a', ha', hcol'⟩ := h'.found
  exact le_antisymm (h.least a' len' ha' h'.pos h'.le hcol') (h'.least a len ha h.pos h.le hcol)

theorem Shortest.le_length (h : Shortest arr m len) : m ≤ len := by
  obtain ⟨a, -, hcol⟩ := h.found
  exact hcol ▸ colours_le arr a len

/-- A window as long as the shortest one cannot have more than `m` colours. -/
theorem Shortest.colours_le (h : Shortest arr m len) (hm : 1 ≤ m) {a : ℕ} (ha : a < arr.length) :
    colours arr a len ≤ m := by
  -- a window with more colours has a shorter one with exactly `m`
  by_contra hgt
  obtain ⟨k, hk, heq⟩ := exists_distinct_eq (Nat.le_of_lt (not_le.mp hgt))
  have hmk : m ≤ k := heq ▸ MinSpan.colours_le arr a k
  have hle := h.le
  have hleast := h.least a k ha (by omega) (by omega) heq
  obtain rfl : k = len := by omega
  exact hgt (le_of_eq heq)

/-- No recordable window is shorter. -/
theorem Shortest.le_recordable (h : Shortest arr m len) (hm : 1 ≤ m) {a e : ℕ}
    (hrec : Recordable (circle arr arr.length) arr.length m a e) : len ≤ e - a := by
  have hlen : m ≤ e - a := hrec.exact ▸ distinct_le_length
  have hle := h.le
  by_cases hlong : e - a ≤ arr.length
  · apply h.least a (e - a) hrec.lt (by omega) hlong
    unfold colours
    rw [Nat.add_sub_cancel' (by omega)]
    exact hrec.exact
  · omega

theorem Shortest.recordable_iff (h : Shortest arr m len) (hm : 1 ≤ m) {a : ℕ} :
    Recordable (circle arr arr.length) arr.length m a (a + len) ↔
      0 < a ∧ a < arr.length ∧ colours arr a len = m ∧ colours arr (a - 1) len ≠ m := by
  have hback (hpos : 0 < a) : distinct (circle arr arr.length) (a - 1) (a + len - 1)
      = colours arr (a - 1) len := by
    unfold colours
    rw [Nat.sub_add_comm hpos]
  constructor
  · intro hrec
    have hfewer := hrec.fewer
    rw [hback hrec.pos] at hfewer
    exact ⟨hrec.pos, hrec.lt, hrec.exact, ne_of_lt hfewer⟩
  · rintro ⟨hpos, hlt, hexact, hne⟩
    refine ⟨hpos, hlt, hexact, ?_⟩
    rw [hback hpos]
    exact lt_of_le_of_ne (h.colours_le hm (by omega)) hne

/-- The best length is the shortest one when a shortest window has been recorded. -/
theorem Shortest.best_eq_iff (h : Shortest arr m len) (hm : 1 ≤ m)
    (hrec : Recorded (circle arr arr.length) arr.length m i s)
    (hcomp : Complete (circle arr arr.length) arr.length m i s) :
    s.bestlen = len ↔
      ∃ a, Recordable (circle arr arr.length) arr.length m a (a + len) ∧ a + len ≤ i := by
  constructor
  · intro hbest
    rcases hrec with ⟨hnone, -⟩ | ⟨a, e, he, hrec, hlen, -⟩
    · have hle := h.le
      omega
    · have hpos := h.pos
      obtain rfl : e = a + len := by omega
      exact ⟨a, hrec, he⟩
  · rintro ⟨a, ha, hle⟩
    have hupper := hcomp a (a + len) ha hle
    rw [Nat.add_sub_cancel_left] at hupper
    apply le_antisymm hupper
    rcases hrec with ⟨hnone, -⟩ | ⟨a', e, -, hrec, hlen, -⟩
    · have hle := h.le
      omega
    · have hle := h.le_recordable hm hrec
      omega

/-! ## The end of a run -/

/-- After a run that ends with `flag`. -/
theorem flagged_best_iff (hs : Shortest arr m len) (hm : 1 ≤ m)
    (h : Flagged (circle arr arr.length) arr.length m s) :
    s.bestlen = len ↔ Reached arr m := by
  have hcomp : Complete (circle arr arr.length) arr.length m (2 * arr.length) s :=
    fun a e hrec _ => h.complete a e hrec
  rw [hs.best_eq_iff hm h.recorded hcomp]
  constructor
  · rintro ⟨a, hrec, -⟩
    obtain ⟨h1, h2, h3, h4⟩ := (hs.recordable_iff hm).mp hrec
    refine ⟨a, len, hs, h1, h2, h3, h4, ?_⟩
    intro hall p hp
    rw [palette_eq] at hall
    exact absurd hp (h.unheld hall p)
  · rintro ⟨a, len', hs', h1, h2, h3, h4, -⟩
    obtain rfl := hs.unique hs'
    have hle := hs.le
    exact ⟨a, (hs.recordable_iff hm).mpr ⟨h1, h2, h3, h4⟩, by omega⟩

/-- With the last bead alone in its colour the window grows to the circle at the end of the
first lap, before anything is recorded, and the result is wrong. -/
theorem grown_first_lap {mapColor : ColorMap} {left : ℕ} (hs : Shortest arr m len) (hm : 1 ≤ m)
    (hreg : Regular (circle arr arr.length) arr.length m i s) (hlast : s.lastidx = 0)
    (hfull : i + 1 = arr.length) (hleft : i + 1 + left = 2 * arr.length)
    (hsingle : Single (circle arr arr.length) arr.length i)
    (hgrown : Grown (circle arr arr.length) arr.length m (i + 1)
      { s with mapColor := mapColor }) :
    (scan arr arr.length m left (i + 1) { s with mapColor := mapColor }).bestlen ≠ len := by
  have hle := hs.le
  have hmlen := hs.le_length
  by_cases hmn : m = arr.length
  · -- nothing is recorded at all
    have hnone : s.bestlen = arr.length + 1 := by
      rcases hreg.recorded with ⟨hnone, -⟩ | ⟨a, e, he, hrec, -, -⟩
      · exact hnone
      · obtain ⟨q, -, hq2, hq⟩ := exists_single_of_distinct_eq (periodic_circle arr (by omega))
          hsingle (hrec.exact.trans hgrown.all.symm)
        rw [Nat.mod_eq_of_lt (by omega)] at hq
        omega
    rw [(scan_quiet left hgrown (by omega) hm (Or.inr hmn)).1]
    show s.bestlen ≠ len
    omega
  · have hbroken := broken_first_lap hgrown hlast hfull hleft hm (by omega)
    omega

/-- A bead that is alone in its colour ends the search on the second lap: what was recorded
before stays, unless there are `m` beads left to read, which spoil it. -/
theorem grown_second_lap {mapColor : ColorMap} {left : ℕ} (hs : Shortest arr m len) (hm : 1 ≤ m)
    (hreg : Regular (circle arr arr.length) arr.length m i s) (hlast : 0 < s.lastidx)
    (hfull : i + 1 = s.lastidx + arr.length) (hleft : i + 1 + left = 2 * arr.length)
    (hsingle : Single (circle arr arr.length) arr.length (s.lastidx - 1))
    (hgrown : Grown (circle arr arr.length) arr.length m (i + 1)
      { s with mapColor := mapColor }) :
    (scan arr arr.length m left (i + 1) { s with mapColor := mapColor }).bestlen = len ↔
      Reached arr m := by
  have hn := hreg.last_lt
  have hall : palette arr = m := (palette_eq arr).trans hgrown.all
  by_cases hroom : s.lastidx + m ≤ arr.length
  · -- the beads up to the end of the lap make the length reach `n + m`
    have hbroken := broken_second_lap hreg hgrown hlast hfull hleft hm hroom
    have hmlen := hs.le_length
    constructor
    · intro hbest
      omega
    · rintro ⟨a, len', -, -, -, -, -, hreached⟩
      have hbehind := hreached hall (s.lastidx - 1) hsingle
      omega
  · rw [(quiet_second_lap hgrown hleft hm hroom).1, hs.best_eq_iff hm hreg.recorded hreg.complete]
    constructor
    · rintro ⟨a, hrec, hend⟩
      obtain ⟨h1, h2, h3, h4⟩ := (hs.recordable_iff hm).mp hrec
      refine ⟨a, len, hs, h1, h2, h3, h4, ?_⟩
      intro _ p hp
      -- the window has all colours, so it contains the lone bead `lastidx - 1`
      obtain ⟨q, hq1, hq2, hq⟩ := exists_single_of_distinct_eq (periodic_circle arr (by omega))
        hsingle (hrec.exact.trans hgrown.all.symm)
      have hbound := hreg.held hgrown.all p hp
      have hpn := hp.1
      rcases eq_or_add_le_of_mod_eq hq with hq | hq
      · by_cases hlastbead : p + 1 = arr.length
        · have hzero := hbound.2 hlastbead
          omega
        · omega
      · omega
    · rintro ⟨a, len', hs', h1, h2, h3, h4, hreached⟩
      obtain rfl := hs.unique hs'
      have hbehind := hreached hall (s.lastidx - 1) hsingle
      have hle := hs.le
      exact ⟨a, (hs.recordable_iff hm).mpr ⟨h1, h2, h3, h4⟩, by omega⟩

/-- A full run from the initial state finds the shortest length when it is reached. -/
theorem scan_best_iff (hs : Shortest arr m len) (hm : 1 ≤ m) (hD : m ≤ palette arr) :
    (scan arr arr.length m (2 * arr.length) 0 ⟨0, ∅, arr.length + 1, -1⟩).bestlen = len ↔
      Reached arr m := by
  have hn : 0 < arr.length := lt_of_lt_of_le (lt_of_lt_of_le hm hD) (palette_le_length arr)
  rcases scan_outcome (2 * arr.length) (regular_start hm hn) hm (Nat.zero_add _)
    (palette_eq arr ▸ hD) with
    hflag | ⟨i, s, mapColor, left, hreg, hfull, hstop, hleft, hgrown, hscan⟩
  · exact flagged_best_iff hs hm hflag
  · rw [hscan]
    -- the window starts at the first bead only if the last bead is alone in its colour
    rcases hstop with ⟨hlast, hsingle⟩ | ⟨hlast, hsingle⟩
    · rw [hlast, Nat.zero_add] at hfull
      rw [show arr.length - 1 = i by omega] at hsingle
      refine iff_of_false
        (grown_first_lap hs hm hreg hlast hfull hleft hsingle hgrown) ?_
      rintro ⟨a, len', -, -, -, -, -, hreached⟩
      have hend := hreached ((palette_eq arr).trans hgrown.all) i hsingle
      omega
    · exact grown_second_lap hs hm hreg hlast hfull hleft hsingle hgrown

/-! ## The whole function -/

theorem spanCounter_eq_none (arr : List ℤ) {n : ℕ} (h : ¬ InRange n m) :
    spanCounter arr n m = none := by
  unfold spanCounter
  unfold InRange at h
  split_ifs with h1 h2 h3
  · rfl
  · omega
  · rfl
  · omega

theorem spanCounter_of_le (arr : List ℤ) {n : ℕ} (h : InRange n m) (hmn : m ≤ n) :
    spanCounter arr n m =
      some ((scan arr n m (2 * n) 0 ⟨0, ∅, n + 1, -1⟩).bestlen,
        (scan arr n m (2 * n) 0 ⟨0, ∅, n + 1, -1⟩).bestidx) := by
  obtain ⟨h1, h2⟩ := h
  have h3 := h2 hmn
  unfold spanCounter
  rw [if_neg (by omega), if_neg (by omega), if_neg (by omega)]

/-- With fewer than `m` colours the answer is `n + 1` and `-1`. -/
theorem spanCounter_too_few (hm : 1 ≤ m) (h : InRange arr.length m) (hD : palette arr < m) :
    spanCounter arr arr.length m = some ((arr.length : ℤ) + 1, -1) := by
  by_cases hmn : m ≤ arr.length
  · rw [palette_eq] at hD
    obtain ⟨hlen, hidx⟩ := scan_too_few (2 * arr.length)
      (regular_start hm (by omega)) hD
    rw [spanCounter_of_le arr h hmn, hlen, hidx]
  · obtain ⟨h1, -⟩ := h
    unfold spanCounter
    rw [if_neg (by omega), if_pos (by omega)]

/-- **`span_counter` is optimal exactly when** its `int`s stay in range and either the circle
has fewer than `m` colours or the scan reaches a shortest window. -/
theorem optimal_iff (arr : List ℤ) {m : ℕ} (hm : 1 ≤ m) :
    Optimal arr m ↔ InRange arr.length m ∧ (palette arr < m ∨ Reached arr m) := by
  by_cases hrange : InRange arr.length m
  · by_cases hD : palette arr < m
    · refine iff_of_true ⟨fun h => by omega, fun _ => spanCounter_too_few hm hrange hD⟩
        ⟨hrange, Or.inl hD⟩
    · rw [not_lt] at hD
      obtain ⟨len, hs⟩ := exists_shortest hm hD
      have hbest := scan_best_iff hs hm hD
      have hscan := spanCounter_of_le arr hrange (le_trans hD (palette_le_length arr))
      constructor
      · intro hopt
        obtain ⟨len', first, hs', heq⟩ := hopt.1 hD
        obtain rfl := hs.unique hs'
        rw [hscan, Option.some.injEq, Prod.mk.injEq] at heq
        exact ⟨hrange, Or.inr (hbest.mp heq.1)⟩
      · rintro ⟨-, hfew | hreached⟩
        · omega
        · rw [hbest.mpr hreached] at hscan
          exact ⟨fun _ => ⟨len, _, hs, hscan⟩, fun h => by omega⟩
  · refine iff_of_false ?_ fun h => hrange h.1
    intro hopt
    have hnone := spanCounter_eq_none arr hrange
    by_cases hD : palette arr < m
    · rw [hopt.2 hD] at hnone
      exact Option.some_ne_none _ hnone
    · obtain ⟨len, first, -, heq⟩ := hopt.1 (not_lt.mp hD)
      rw [heq] at hnone
      exact Option.some_ne_none _ hnone

/-- No bead of two pairs is alone in its colour. -/
theorem no_single_two_pairs (p : ℕ) : ¬ Single (circle [1, 1, 2, 2] 4) 4 p := by
  rintro ⟨hp1, hp2⟩
  have htwin : ∀ p < 4, ∃ q < 4, circle [1, 1, 2, 2] 4 q = circle [1, 1, 2, 2] 4 p ∧ q ≠ p := by
    decide
  obtain ⟨q, hq1, hq2, hq3⟩ := htwin p hp1
  exact hq3 (hp2 q hq1 hq2)

/-- A circle on which the shortest window is reached. -/
theorem optimal_two_pairs : Optimal [1, 1, 2, 2] 2 := by
  refine (optimal_iff [1, 1, 2, 2] (m := 2) (by decide)).mpr
    ⟨⟨by decide, by decide⟩, Or.inr ⟨1, 2, ?_, by decide, by decide, by decide, by decide, ?_⟩⟩
  · exact ⟨by decide, by decide, ⟨1, by decide, by decide⟩,
      fun a len' _ _ _ h => h ▸ colours_le _ a len'⟩
  · intro _ p hp
    exact absurd hp (no_single_two_pairs p)

/-- Two beads of two colours: the window of both beads is not found. -/
theorem not_optimal_two_beads : ¬ Optimal [1, 2] 2 := by
  intro hopt
  obtain ⟨len, first, hs, heq⟩ := hopt.1 (by decide)
  have hrun : spanCounter [1, 2] 2 2 = some (3, -1) := by decide
  have hle := hs.le
  rw [List.length_cons, List.length_cons, List.length_nil] at heq hle
  rw [hrun, Option.some.injEq, Prod.mk.injEq] at heq
  omega

end MinSpan
