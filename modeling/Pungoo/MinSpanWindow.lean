/-
# The map of `span_counter` counts the current window

`Counts f a b mapColor` : the map has an entry for a colour exactly when the colour
occurs in the window `[a, b)` of the unrolled circle, and the entry is the number of
its occurrences.  The three updates of the map move one end of the window; its size
is the number of colours.

`shrink_step` and `scan_step` restate one iteration of either loop in terms of the
window alone, so that later modules never look at the map again.
-/
import Pungoo.MinSpan

namespace MinSpan

open Window

/-- The map counts the colours of the window `[a, b)`. -/
def Counts (f : ℕ → ℤ) (a b : ℕ) (mapColor : ColorMap) : Prop :=
  ∀ c, mapColor.lookup c = if 0 < occ f a b c then some (occ f a b c) else none

variable {f : ℕ → ℤ} {a b : ℕ} {mapColor : ColorMap}

/-- The empty map counts the empty window. -/
theorem counts_empty : Counts f a a ∅ := fun c => by
  rw [occ_self, if_neg (lt_irrefl 0), AList.lookup_empty]

/-- An entry is the number of occurrences, and zero where there is none. -/
theorem value_eq (h : Counts f a b mapColor) (c : ℤ) : mapColor.value c = occ f a b c := by
  unfold ColorMap.value
  rw [h c]
  by_cases hpos : 0 < occ f a b c
  · rw [if_pos hpos, Option.getD_some]
  · rw [if_neg hpos, Option.getD_none]
    omega

/-- The keys are the colours of the window. -/
theorem keys_toFinset (h : Counts f a b mapColor) : mapColor.keys.toFinset = values f a b := by
  ext c
  rw [List.mem_toFinset, ← AList.mem_keys, ← AList.lookup_isSome, h c, ← occ_pos_iff]
  by_cases hpos : 0 < occ f a b c
  · simp [hpos]
  · simp [hpos]

/-- The map has as many entries as the window has colours. -/
theorem size_eq (h : Counts f a b mapColor) : mapColor.size = distinct f a b := by
  unfold ColorMap.size
  rw [distinct, ← keys_toFinset h, List.toFinset_card_of_nodup mapColor.keys_nodup]

/-! ## Moving an end of the window -/

/-- A bead enters at the end of the window. -/
theorem counts_increment (hab : a ≤ b) (h : Counts f a b mapColor) :
    Counts f a (b + 1) (mapColor.increment (f b)) := by
  intro c
  unfold ColorMap.increment
  rw [value_eq h, occ_succ_right hab]
  by_cases hc : f b = c
  · subst hc
    rw [AList.lookup_insert, if_pos rfl, if_pos (Nat.succ_pos _)]
  · rw [AList.lookup_insert_ne (Ne.symm hc), h c, if_neg hc, Nat.add_zero]

/-- A bead leaves whose colour occurs again in the window. -/
theorem counts_decrement (hab : a < b) (h : Counts f a b mapColor)
    (hmem : f a ∈ values f (a + 1) b) : Counts f (a + 1) b (mapColor.decrement (f a)) := by
  intro c
  have hocc := occ_left (f := f) (c := f a) hab
  rw [if_pos rfl] at hocc
  unfold ColorMap.decrement
  rw [value_eq h]
  by_cases hc : f a = c
  · subst hc
    have hpos := occ_pos_iff.mpr hmem
    rw [AList.lookup_insert, if_pos hpos, hocc, Nat.add_sub_cancel]
  · rw [AList.lookup_insert_ne (Ne.symm hc), h c, occ_left hab, if_neg hc, Nat.add_zero]

/-- A bead leaves whose colour does not occur again. -/
theorem counts_erase (hab : a < b) (h : Counts f a b mapColor)
    (hmem : f a ∉ values f (a + 1) b) : Counts f (a + 1) b (mapColor.erase (f a)) := by
  intro c
  by_cases hc : f a = c
  · subst hc
    rw [AList.lookup_erase, if_neg fun hpos => hmem (occ_pos_iff.mp hpos)]
  · rw [AList.lookup_erase_ne (Ne.symm hc), h c, occ_left hab, if_neg hc, Nat.add_zero]

/-- The first colour of the window counts more than one when it occurs again. -/
theorem one_lt_value_iff (hab : a < b) (h : Counts f a b mapColor) :
    1 < mapColor.value (f a) ↔ f a ∈ values f (a + 1) b := by
  rw [value_eq h, ← occ_pos_iff, occ_left hab, if_pos rfl]
  omega

/-! ## One iteration of either loop -/

variable {arr : List ℤ} {n m i : ℕ}

/-- The best length and index after a window of length `len` that starts at `a`. -/
def Scan.improve (s : Scan) (len : ℤ) (a : ℕ) : ℤ × ℤ :=
  if s.bestlen > len then (len, a) else (s.bestlen, s.bestidx)

/-- The best length is the smaller one. -/
theorem improve_fst (s : Scan) (len : ℤ) (a : ℕ) : (s.improve len a).1 = min s.bestlen len := by
  unfold Scan.improve
  split_ifs with h
  · exact (min_eq_right (le_of_lt h)).symm
  · exact (min_eq_left (not_lt.mp h)).symm

/-- One iteration of the inner loop takes the first bead off the window, unless this
would leave the first lap. -/
theorem shrink_step (left : ℕ) {s : Scan} (hlt : s.lastidx < i + 1)
    (hcounts : Counts (circle arr n) s.lastidx (i + 1) s.mapColor) :
    (n ≤ s.lastidx + 1 → shrink arr n i (left + 1) s = (true, s)) ∧
    (s.lastidx + 1 < n → ∃ mapColor,
      Counts (circle arr n) (s.lastidx + 1) (i + 1) mapColor ∧
      (circle arr n s.lastidx ∈ values (circle arr n) (s.lastidx + 1) (i + 1) →
        shrink arr n i (left + 1) s
          = shrink arr n i left ⟨s.lastidx + 1, mapColor,
              (s.improve ((i - s.lastidx) % n : ℕ) (s.lastidx + 1)).1,
              (s.improve ((i - s.lastidx) % n : ℕ) (s.lastidx + 1)).2⟩) ∧
      (circle arr n s.lastidx ∉ values (circle arr n) (s.lastidx + 1) (i + 1) →
        shrink arr n i (left + 1) s
          = (false, ⟨s.lastidx + 1, mapColor, s.bestlen, s.bestidx⟩))) := by
  constructor
  · intro h
    rw [shrink, if_pos h]
  · intro h
    have hcolor : bead arr s.lastidx = circle arr n s.lastidx :=
      (circle_of_lt arr (by omega)).symm
    have hnext : (s.lastidx + 1) % n = s.lastidx + 1 := Nat.mod_eq_of_lt h
    have hlen : curlen n i (s.lastidx + 1) = ((i - s.lastidx) % n : ℕ) := by
      rw [curlen_eq (by omega), Nat.add_sub_add_right]
    have hvalue := one_lt_value_iff hlt hcounts
    by_cases hmem : circle arr n s.lastidx ∈ values (circle arr n) (s.lastidx + 1) (i + 1)
    · refine ⟨_, counts_decrement hlt hcounts hmem, ?_, fun hn => absurd hmem hn⟩
      intro _
      rw [shrink, if_neg (by omega), hcolor, hnext, if_pos (hvalue.mpr hmem), hlen,
        Scan.improve]
      dsimp only
      split_ifs <;> rfl
    · refine ⟨_, counts_erase hlt hcounts hmem, fun hn => absurd hn hmem, ?_⟩
      intro _
      rw [shrink, if_neg (by omega), hcolor, hnext, if_neg fun hv => hmem (hvalue.mp hv)]

/-- One iteration of the outer loop adds the bead `i` to the window; with `m` colours in
it the inner loop runs. -/
theorem scan_step (left : ℕ) {s : Scan} (hle : s.lastidx ≤ i)
    (hcounts : Counts (circle arr n) s.lastidx i s.mapColor) :
    ∃ mapColor, Counts (circle arr n) s.lastidx (i + 1) mapColor ∧
      (distinct (circle arr n) s.lastidx (i + 1) ≠ m →
        scan arr n m (left + 1) i s = scan arr n m left (i + 1) { s with mapColor := mapColor }) ∧
      (distinct (circle arr n) s.lastidx (i + 1) = m → ∀ flag s',
        shrink arr n i ((((i + 1 - s.lastidx) % n : ℕ) : ℤ) - m + 1).toNat
          { s with mapColor := mapColor } = (flag, s') →
        scan arr n m (left + 1) i s
          = if flag = true then s' else scan arr n m left (i + 1) s') := by
  have hcounts' := counts_increment hle hcounts
  have hsize := size_eq hcounts'
  refine ⟨_, hcounts', ?_, ?_⟩
  · intro h
    rw [scan]
    exact if_neg fun heq => h (by rw [← hsize]; exact heq.symm)
  · intro h flag s' hshrink
    rw [scan]
    have hif : m = (s.mapColor.increment (bead arr (i % n))).size := by
      rw [← h, ← hsize]
      rfl
    have hrun : shrink arr n i ((((i + 1 - s.lastidx) % n : ℕ) : ℤ) - m + 1).toNat
        { s with mapColor := s.mapColor.increment (bead arr (i % n)) } = (flag, s') := hshrink
    dsimp only
    rw [if_pos hif, curlen_eq (by omega), hrun]

end MinSpan
