/-
# Every step of `span_counter`

The two loops of `span_counter` as a machine: a bead is counted, or the inner loop takes one
off the start of the window.  `Holds` is the invariant of the machine: the map counts the
window, and the window has at most `m` colours.  While the window is shorter than the circle
the inner loop stops when a colour is lost; a longer one keeps all colours of the circle,
because the inner loop cannot make it shorter than the circle (`Lap`).

* `spanCounter_returns` : the machine stops with what `spanCounter` returns;
* `inv_visits` : the invariant holds in every state of a run;
* `map_invariant_iff` : so what `mapColor` and `lastidx` are in every state, when `2 * n` is an
  `int`.
-/
import Pungoo.Machine
import Pungoo.MinSpanWindow

namespace MinSpan

open Machine Window

/-! ## The steps -/

/-- The points of control: the condition of the outer loop, behind `++mapColor`, and the
condition of the inner loop with `left` iterations to go. -/
inductive Point
  | outer (i : ℕ)
  | counted (i : ℕ)
  | inner (i left : ℕ)

/-- A state of a run. -/
structure Config extends Scan where
  point : Point

/-- One step of `span_counter`; it stops behind the outer loop, or with `none` when `2 * n` in
the condition of that loop is no `int`. -/
def tick (arr : List ℤ) (n m : ℕ) (c : Config) : Config ⊕ Option Scan :=
  match c.point with
  | .outer i =>
    if 2 * n > intMax then
      .inr none
    else if i < 2 * n then
      .inl ⟨{ c.toScan with mapColor := c.mapColor.increment (bead arr (i % n)) }, .counted i⟩
    else
      .inr (some c.toScan)
  | .counted i =>
    if m = c.mapColor.size then
      .inl ⟨c.toScan, .inner i (curlen n i c.lastidx - m + 1).toNat⟩
    else
      .inl ⟨c.toScan, .outer (i + 1)⟩
  | .inner i 0 => .inl ⟨c.toScan, .outer (i + 1)⟩
  | .inner i (left + 1) =>
    if c.lastidx + 1 ≥ n then
      -- `flag` ends the outer loop
      .inr (some c.toScan)
    else
      let color := bead arr c.lastidx
      let lastidx := (c.lastidx + 1) % n
      if 1 < c.mapColor.value color then
        let curlen2 := curlen n i lastidx
        if c.bestlen > curlen2 then
          .inl ⟨⟨lastidx, c.mapColor.decrement color, curlen2, lastidx⟩, .inner i left⟩
        else
          .inl ⟨⟨lastidx, c.mapColor.decrement color, c.bestlen, c.bestidx⟩, .inner i left⟩
      else
        .inl ⟨⟨lastidx, c.mapColor.erase color, c.bestlen, c.bestidx⟩, .outer (i + 1)⟩

/-- The start of a run.  Where `n + 1` is no `int`, the first step is undefined. -/
def entry (n : ℕ) : Config := ⟨⟨0, ∅, n + 1, -1⟩, .outer 0⟩

variable {arr : List ℤ} {n m i : ℕ} {s : Scan} {c d : Config}

/-! ### The steps at each point -/

theorem tick_outer (arr : List ℤ) (n m i : ℕ) (s : Scan) :
    tick arr n m ⟨s, .outer i⟩ =
      if 2 * n > intMax then .inr none
      else if i < 2 * n then
        .inl ⟨{ s with mapColor := s.mapColor.increment (bead arr (i % n)) }, .counted i⟩
      else .inr (some s) := rfl

theorem tick_counted (arr : List ℤ) (n m i : ℕ) (s : Scan) :
    tick arr n m ⟨s, .counted i⟩ =
      if m = s.mapColor.size then .inl ⟨s, .inner i (curlen n i s.lastidx - m + 1).toNat⟩
      else .inl ⟨s, .outer (i + 1)⟩ := rfl

theorem tick_inner (arr : List ℤ) (n m i left : ℕ) (s : Scan) :
    tick arr n m ⟨s, .inner i (left + 1)⟩ =
      if s.lastidx + 1 ≥ n then .inr (some s)
      else if 1 < s.mapColor.value (bead arr s.lastidx) then
        if s.bestlen > curlen n i ((s.lastidx + 1) % n) then
          .inl ⟨⟨(s.lastidx + 1) % n, s.mapColor.decrement (bead arr s.lastidx),
            curlen n i ((s.lastidx + 1) % n), ((s.lastidx + 1) % n : ℕ)⟩, .inner i left⟩
        else
          .inl ⟨⟨(s.lastidx + 1) % n, s.mapColor.decrement (bead arr s.lastidx), s.bestlen,
            s.bestidx⟩, .inner i left⟩
      else
        .inl ⟨⟨(s.lastidx + 1) % n, s.mapColor.erase (bead arr s.lastidx), s.bestlen,
          s.bestidx⟩, .outer (i + 1)⟩ := rfl

/-! ## The function and the machine -/

/-- The inner loop of the machine is `shrink`. -/
theorem shrink_run (arr : List ℤ) (n m i left : ℕ) (s : Scan) :
    ((shrink arr n i left s).1 = true →
      Returns (tick arr n m) ⟨s, .inner i left⟩ (some (shrink arr n i left s).2)) ∧
    ((shrink arr n i left s).1 = false →
      Visits (tick arr n m) ⟨s, .inner i left⟩ ⟨(shrink arr n i left s).2, .outer (i + 1)⟩) := by
  induction left generalizing s with
  | zero => exact ⟨fun h => absurd h (by simp [shrink]), fun _ => visits_of_goes rfl⟩
  | succ left ih =>
    have hgo : ∀ t, tick arr n m ⟨s, .inner i (left + 1)⟩ = .inl ⟨t, .inner i left⟩ →
        ((shrink arr n i left t).1 = true →
          Returns (tick arr n m) ⟨s, .inner i (left + 1)⟩ (some (shrink arr n i left t).2)) ∧
        ((shrink arr n i left t).1 = false →
          Visits (tick arr n m) ⟨s, .inner i (left + 1)⟩
            ⟨(shrink arr n i left t).2, .outer (i + 1)⟩) := by
      intro t hgoes
      exact ⟨fun h => returns_of_goes hgoes ((ih t).1 h),
        fun h => (visits_of_goes hgoes).trans ((ih t).2 h)⟩
    have htick := tick_inner arr n m i left s
    rw [shrink]
    dsimp only
    split_ifs with hend hkeep hbest
    · rw [if_pos hend] at htick
      exact ⟨fun _ => returns_of_stop htick, fun h => absurd h (by simp)⟩
    · rw [if_neg hend, if_pos hkeep, if_pos hbest] at htick
      exact hgo _ htick
    · rw [if_neg hend, if_pos hkeep, if_neg hbest] at htick
      exact hgo _ htick
    · rw [if_neg hend, if_neg hkeep] at htick
      exact ⟨fun h => absurd h (by simp), fun _ => visits_of_goes htick⟩

/-- The machine stops with what `scan` returns. -/
theorem scan_returns (hn : 2 * n ≤ intMax) (left : ℕ) (hi : i + left = 2 * n) (s : Scan) :
    Returns (tick arr n m) ⟨s, .outer i⟩ (some (scan arr n m left i s)) := by
  induction left generalizing i s with
  | zero =>
    have htick := tick_outer arr n m i s
    rw [if_neg (not_lt.mpr hn), if_neg (by omega)] at htick
    exact returns_of_stop htick
  | succ left ih =>
    have hcount := tick_outer arr n m i s
    rw [if_neg (not_lt.mpr hn), if_pos (by omega)] at hcount
    apply returns_of_goes hcount
    rw [scan]
    generalize { s with mapColor := s.mapColor.increment (bead arr (i % n)) } = s
    have htick := tick_counted arr n m i s
    dsimp only
    by_cases hm : m = s.mapColor.size
    · rw [if_pos hm] at htick ⊢
      apply returns_of_goes htick
      obtain ⟨hflag, hgo⟩ := shrink_run arr n m i (curlen n i s.lastidx - m + 1).toNat s
      cases hf : (shrink arr n i (curlen n i s.lastidx - m + 1).toNat s).1 with
      | true =>
        rw [if_pos rfl]
        exact hflag hf
      | false =>
        rw [if_neg Bool.false_ne_true]
        exact (hgo hf).returns (ih (by omega) _)
    · rw [if_neg hm] at htick ⊢
      exact returns_of_goes htick (ih (by omega) s)

/-- The machine stops at once when `2 * n` is no `int`. -/
theorem tick_overflow (arr : List ℤ) (m : ℕ) (s : Scan) (hn : intMax < 2 * n) :
    tick arr n m ⟨s, .outer i⟩ = .inr none := by
  rw [tick_outer]
  exact if_pos hn

theorem spanCounter_overflow (arr : List ℤ) (hmn : m ≤ n) (hn : intMax < 2 * n) :
    spanCounter arr n m = none := by
  unfold spanCounter
  rw [if_neg (not_lt.mpr hmn), if_pos hn, ite_self]

theorem spanCounter_scan (arr : List ℤ) (hmn : m ≤ n) (hn : 2 * n ≤ intMax) :
    spanCounter arr n m = some ((scan arr n m (2 * n) 0 ⟨0, ∅, n + 1, -1⟩).bestlen,
      (scan arr n m (2 * n) 0 ⟨0, ∅, n + 1, -1⟩).bestidx) := by
  have hsucc : ¬ n + 1 > intMax := by
    unfold intMax at hn ⊢
    omega
  unfold spanCounter
  rw [if_neg hsucc, if_neg (not_lt.mpr hmn), if_neg (not_lt.mpr hn)]

/-- **The machine stops with what `spanCounter` returns.** -/
theorem spanCounter_returns (arr : List ℤ) (hmn : m ≤ n) :
    ∃ result, Returns (tick arr n m) (entry n) result ∧
      spanCounter arr n m = result.map fun s => (s.bestlen, s.bestidx) := by
  rcases lt_or_ge intMax (2 * n) with hover | hn
  · exact ⟨none, returns_of_stop (tick_overflow arr m _ hover), spanCounter_overflow arr hmn hover⟩
  · exact ⟨_, scan_returns hn (2 * n) (Nat.zero_add _) _, spanCounter_scan arr hmn hn⟩

/-! ## The invariant -/

/-- The position behind the window. -/
def Point.stop : Point → ℕ
  | .outer i => i
  | .counted i => i + 1
  | .inner i _ => i + 1

/-- The map counts the window from `lastidx` to `stop`, which has at most `m` colours. -/
structure Holds (arr : List ℤ) (n m stop : ℕ) (s : Scan) : Prop where
  last_lt : s.lastidx < n
  last_le : s.lastidx ≤ stop
  counts : Counts (circle arr n) s.lastidx stop s.mapColor
  few : distinct (circle arr n) s.lastidx stop ≤ m

/-- What is left to do at a point of control.  Between two iterations of the outer loop there
is room for a colour, or the window is at least as long as the circle.  The inner loop can take
off all beads that are too many, or it cannot make the window shorter than the circle. -/
def Lap (arr : List ℤ) (n m : ℕ) (s : Scan) : Point → Prop
  | .outer i => distinct (circle arr n) s.lastidx i < m ∨ s.lastidx + n ≤ i
  | .counted i => s.lastidx ≤ i
  | .inner i left =>
    distinct (circle arr n) s.lastidx (i + 1) = m ∧ i + 1 - s.lastidx + 1 ≤ left + m ∨
      s.lastidx + n + left ≤ i + 1

/-- The invariant of the machine. -/
structure Inv (arr : List ℤ) (n m : ℕ) (s : Scan) (point : Point) : Prop where
  holds : Holds arr n m point.stop s
  lap : Lap arr n m s point

theorem inv_entry (hm : 1 ≤ m) (hn : 1 ≤ n) : Inv arr n m ⟨0, ∅, n + 1, -1⟩ (.outer 0) := by
  have hnone : distinct (circle arr n) 0 0 = 0 := distinct_self
  exact ⟨⟨hn, le_refl 0, counts_empty, hnone.trans_le (Nat.zero_le m)⟩, Or.inl (hnone.trans_lt hm)⟩

/-- Counting a bead: a window of the whole circle has no further colours. -/
theorem inv_counted (h : Inv arr n m s (.outer i)) :
    Inv arr n m { s with mapColor := s.mapColor.increment (bead arr (i % n)) } (.counted i) := by
  obtain ⟨hlt, hle, hcounts, hfew⟩ : Holds arr n m i s := h.holds
  refine ⟨⟨hlt, Nat.le_succ_of_le hle, counts_increment hle hcounts, ?_⟩, hle⟩
  show distinct (circle arr n) s.lastidx (i + 1) ≤ m
  rcases h.lap with hroom | hlap
  · exact (distinct_succ_right_le hle).trans hroom
  · have hf := periodic_circle arr (Nat.zero_lt_of_lt hlt)
    rw [distinct_period hf (Nat.le_succ_of_le hlap), ← distinct_period hf hlap]
    exact hfew

/-- With `m` colours the inner loop is entered. -/
theorem inv_inner (hm0 : 1 ≤ m) (h : Inv arr n m s (.counted i)) (hm : m = s.mapColor.size) :
    Inv arr n m s (.inner i (curlen n i s.lastidx - m + 1).toNat) := by
  have hholds : Holds arr n m (i + 1) s := h.holds
  have hle : s.lastidx ≤ i := h.lap
  have hsize : distinct (circle arr n) s.lastidx (i + 1) = m := by
    rw [hm, size_eq hholds.counts]
  have hlen : m ≤ i + 1 - s.lastidx := hsize ▸ distinct_le_length
  rw [curlen_eq (Nat.le_succ_of_le hle)]
  refine ⟨hholds, ?_⟩
  rcases Nat.lt_or_ge (i + 1 - s.lastidx) n with hshort | hlong
  · rw [Nat.mod_eq_of_lt hshort]
    exact Or.inl ⟨hsize, by omega⟩
  · have hmod : (i + 1 - s.lastidx) % n ≤ i + 1 - s.lastidx - n := by
      rw [Nat.mod_eq_sub_mod hlong]
      exact Nat.mod_le _ n
    exact Or.inr (by omega)

/-- With another number of colours the next bead follows. -/
theorem inv_miss (h : Inv arr n m s (.counted i)) (hm : m ≠ s.mapColor.size) :
    Inv arr n m s (.outer (i + 1)) := by
  refine ⟨h.holds, Or.inl (Nat.lt_of_le_of_ne h.holds.few ?_)⟩
  intro heq
  rw [size_eq h.holds.counts] at hm
  exact hm heq.symm

/-- An inner loop without iterations left has a window at least as long as the circle. -/
theorem inv_exhausted (h : Inv arr n m s (.inner i 0)) : Inv arr n m s (.outer (i + 1)) := by
  refine ⟨h.holds, Or.inr ?_⟩
  rcases h.lap with ⟨hm, hleft⟩ | hlap
  · have hlen : m ≤ i + 1 - s.lastidx := hm ▸ distinct_le_length
    omega
  · exact hlap

/-- The inner loop always has a bead to take off. -/
theorem Inv.last_lt_stop {left : ℕ} (hm0 : 1 ≤ m) (h : Inv arr n m s (.inner i left)) :
    s.lastidx < i + 1 := by
  have hlt := h.holds.last_lt
  rcases h.lap with ⟨hm, -⟩ | hlap
  · have hlen : m ≤ i + 1 - s.lastidx := hm ▸ distinct_le_length
    omega
  · omega

/-- A bead whose colour occurs again is taken off. -/
theorem inv_kept {left : ℕ} {bestlen bestidx : ℤ} (hm0 : 1 ≤ m)
    (h : Inv arr n m s (.inner i (left + 1))) (hend : s.lastidx + 1 < n)
    (hkeep : 1 < s.mapColor.value (bead arr s.lastidx)) :
    Inv arr n m ⟨(s.lastidx + 1) % n, s.mapColor.decrement (bead arr s.lastidx), bestlen, bestidx⟩
      (.inner i left) := by
  obtain ⟨hlast, -, hcounts, hfew⟩ : Holds arr n m (i + 1) s := h.holds
  have hlt := h.last_lt_stop hm0
  rw [← circle_of_lt arr hlast] at hkeep ⊢
  rw [Nat.mod_eq_of_lt hend]
  have hmem := (one_lt_value_iff hlt hcounts).mp hkeep
  have hsame : distinct (circle arr n) (s.lastidx + 1) (i + 1)
      = distinct (circle arr n) s.lastidx (i + 1) := by
    rw [distinct, distinct, values_drop_left_of_mem hlt hmem]
  refine ⟨⟨hend, hlt, counts_decrement hlt hcounts hmem, hsame.trans_le hfew⟩, ?_⟩
  rcases h.lap with ⟨hm, hleft⟩ | hlap
  · exact Or.inl ⟨hsame.trans hm, by dsimp only; omega⟩
  · exact Or.inr (by dsimp only; omega)

/-- A bead that is the last one of its colour is taken off, and the colour is lost. -/
theorem inv_lost {left : ℕ} (hm0 : 1 ≤ m) (h : Inv arr n m s (.inner i (left + 1)))
    (hend : s.lastidx + 1 < n) (hlose : ¬ 1 < s.mapColor.value (bead arr s.lastidx)) :
    Inv arr n m ⟨(s.lastidx + 1) % n, s.mapColor.erase (bead arr s.lastidx), s.bestlen, s.bestidx⟩
      (.outer (i + 1)) := by
  obtain ⟨hlast, -, hcounts, hfew⟩ : Holds arr n m (i + 1) s := h.holds
  have hlt := h.last_lt_stop hm0
  rw [← circle_of_lt arr hlast] at hlose ⊢
  rw [Nat.mod_eq_of_lt hend]
  have hmem : circle arr n s.lastidx ∉ values (circle arr n) (s.lastidx + 1) (i + 1) :=
    fun hmem => hlose ((one_lt_value_iff hlt hcounts).mpr hmem)
  have hdrop := distinct_drop_left_of_not_mem hlt hmem
  have hroom : distinct (circle arr n) (s.lastidx + 1) (i + 1) < m := by omega
  exact ⟨⟨hend, hlt, counts_erase hlt hcounts hmem, Nat.le_of_lt hroom⟩, Or.inl hroom⟩

/-- **One step** keeps the invariant. -/
theorem inv_tick (hm0 : 1 ≤ m) (h : Inv arr n m c.toScan c.point)
    (hgoes : tick arr n m c = .inl d) : Inv arr n m d.toScan d.point := by
  obtain ⟨s, point⟩ := c
  cases point with
  | outer i =>
    rw [tick_outer] at hgoes
    split_ifs at hgoes
    obtain rfl := Sum.inl.inj hgoes
    exact inv_counted h
  | counted i =>
    rw [tick_counted] at hgoes
    split_ifs at hgoes with hm
    · obtain rfl := Sum.inl.inj hgoes
      exact inv_inner hm0 h hm
    · obtain rfl := Sum.inl.inj hgoes
      exact inv_miss h hm
  | inner i left =>
    cases left with
    | zero =>
      obtain rfl := Sum.inl.inj hgoes
      exact inv_exhausted h
    | succ left =>
      rw [tick_inner] at hgoes
      split_ifs at hgoes with hend hkeep hbest
      · obtain rfl := Sum.inl.inj hgoes
        exact inv_kept hm0 h (not_le.mp hend) hkeep
      · obtain rfl := Sum.inl.inj hgoes
        exact inv_kept hm0 h (not_le.mp hend) hkeep
      · obtain rfl := Sum.inl.inj hgoes
        exact inv_lost hm0 h (not_le.mp hend) hkeep

/-- The invariant holds in every state of a run. -/
theorem inv_visits (hm : 1 ≤ m) (hn : 1 ≤ n) (hc : Visits (tick arr n m) (entry n) c) :
    Inv arr n m c.toScan c.point :=
  hc.invariant (I := fun c => Inv arr n m c.toScan c.point) (fun _ _ => inv_tick hm)
    (inv_entry hm hn)

/-- What the map is in a state of a run: the start of the window is on the first lap, a colour
has an entry exactly when it occurs in the window, the entry is the number of its occurrences,
and there are at most `m` entries. -/
def MapCounts (arr : List ℤ) (m : ℕ) (c : Config) : Prop :=
  c.lastidx < arr.length ∧
  (∀ color, color ∈ c.mapColor ↔
    ∃ p, c.lastidx ≤ p ∧ p < c.point.stop ∧ bead arr (p % arr.length) = color) ∧
  (∀ color count, c.mapColor.lookup color = some count →
    count = occ (circle arr arr.length) c.lastidx c.point.stop color ∧ 1 ≤ count) ∧
  c.mapColor.size ≤ m

theorem mapCounts_of_inv (h : Inv arr arr.length m c.toScan c.point) : MapCounts arr m c := by
  have hcounts := h.holds.counts
  refine ⟨h.holds.last_lt, ?_, ?_, ?_⟩
  · intro color
    rw [AList.mem_keys, ← List.mem_toFinset, keys_toFinset hcounts, mem_values]
    rfl
  · intro color count hcount
    rw [hcounts color] at hcount
    split_ifs at hcount with hpos
    obtain rfl := Option.some.inj hcount
    exact ⟨rfl, hpos⟩
  · rw [size_eq hcounts]
    exact h.holds.few

/-- **The map of `span_counter`** on a circle of `n` beads, for `1 <= m <= n`: the two loops run
to the end, with what `spanCounter` returns, and the map counts the window in every state on the
way, exactly when `2 * n` is an `int`.  Behind `++mapColor` and in the inner loop the window ends
with the bead `i`. -/
theorem map_invariant_iff (arr : List ℤ) (m : ℕ) (hm : 1 ≤ m) (hmn : m ≤ arr.length) :
    ((∃ s : Scan, Returns (tick arr arr.length m) (entry arr.length) (some s) ∧
        spanCounter arr arr.length m = some (s.bestlen, s.bestidx)) ∧
      ∀ c, Visits (tick arr arr.length m) (entry arr.length) c → MapCounts arr m c) ↔
    2 * arr.length ≤ intMax := by
  obtain ⟨result, hret, hspan⟩ := spanCounter_returns arr hmn
  constructor
  · rintro ⟨⟨s, -, hs⟩, -⟩
    by_contra hover
    rw [spanCounter_overflow arr hmn (not_le.mp hover)] at hs
    cases hs
  · intro hn
    refine ⟨?_, fun c hc => mapCounts_of_inv (inv_visits hm (hm.trans hmn) hc)⟩
    rw [spanCounter_scan arr hmn hn] at hspan
    cases result with
    | none => cases hspan
    | some s => exact ⟨s, hret, (spanCounter_scan arr hmn hn).trans hspan⟩

/-- Two beads of one colour and one of another. -/
theorem map_invariant_three : ∃ s : Scan, Returns (tick [1, 1, 2] 3 2) (entry 3) (some s) ∧
    (s.bestlen, s.bestidx) = (1, 1) ∧ MapCounts [1, 1, 2] 2 (entry 3) := by
  obtain ⟨⟨s, hret, hspan⟩, hmap⟩ :=
    (map_invariant_iff [1, 1, 2] 2 (by decide) (by decide)).mpr (by decide)
  have hresult : spanCounter [1, 1, 2] 3 2 = some (1, 1) := by decide +kernel
  exact ⟨s, hret, Option.some.inj (hspan.symm.trans hresult), hmap _ (.refl _ _)⟩

/-- The shortest circles on which `2 * n` overflows: the first evaluation of the condition of
the outer loop is undefined. -/
theorem map_invariant_overflow :
    Returns (tick (List.replicate (2 ^ 30) 0) (2 ^ 30) 1) (entry (2 ^ 30)) none ∧
      spanCounter (List.replicate (2 ^ 30) 0) (2 ^ 30) 1 = none := by
  have hover : intMax < 2 * 2 ^ 30 := by decide
  exact ⟨returns_of_stop (tick_overflow _ 1 _ hover), spanCounter_overflow _ (by decide) hover⟩

end MinSpan
