/-
# What a run of `span_counter` records

The scan records the windows `[a, e)` of the unrolled circle with exactly `m` colours
whose left neighbour `[a - 1, e - 1)` has fewer (`Recordable`).

* `shrink_spec`: on a window shorter than the circle the inner loop stops at the last
  start with `m` colours and improves the best length by every window on the way.
* `Regular`: the invariant of the outer loop while the window is shorter than the circle;
  `regular_step` is one iteration.
* A window that has grown to the whole circle has length zero modulo `n`.  From then on
  the scan either records nothing more (`scan_quiet`) or records a length below `m`
  (`scan_broken`).
* `scan_outcome`: how every run ends.
-/
import Pungoo.MinSpanWindow

namespace MinSpan

open Window

variable {arr : List ℤ} {n m i : ℕ} {s : Scan}

/-! ## The best length only improves -/

/-- `s'` has the best length of `s`, improved by the windows `[a, i + 1)` with
`lo < a ≤ hi`. -/
structure Improves (s s' : Scan) (i lo hi : ℕ) : Prop where
  le : s'.bestlen ≤ s.bestlen
  bound : ∀ a, lo < a → a ≤ hi → s'.bestlen ≤ (i + 1 - a : ℕ)
  origin : (s'.bestlen = s.bestlen ∧ s'.bestidx = s.bestidx) ∨
    ∃ a, lo < a ∧ a ≤ hi ∧ s'.bestlen = (i + 1 - a : ℕ) ∧ s'.bestidx = a

/-- No window, no change. -/
theorem improves_self {lo : ℕ} {s' : Scan} (hlen : s'.bestlen = s.bestlen)
    (hidx : s'.bestidx = s.bestidx) : Improves s s' i lo lo :=
  ⟨le_of_eq hlen, fun a h1 h2 => by omega, Or.inl ⟨hlen, hidx⟩⟩

/-- One more window at the left end. -/
theorem improves_cons {lo hi : ℕ} {s₁ s' : Scan} (hlo : lo + 1 ≤ hi)
    (hlen : s₁.bestlen = (s.improve (i - lo : ℕ) (lo + 1)).1)
    (hidx : s₁.bestidx = (s.improve (i - lo : ℕ) (lo + 1)).2)
    (h : Improves s₁ s' i (lo + 1) hi) : Improves s s' i lo hi := by
  have hmin := hlen.trans (improve_fst s _ _)
  refine ⟨?_, ?_, ?_⟩
  · exact le_trans h.le (hmin ▸ min_le_left _ _)
  · intro a h1 h2
    by_cases ha : a = lo + 1
    · subst ha
      rw [Nat.add_sub_add_right]
      exact le_trans h.le (hmin ▸ min_le_right _ _)
    · exact h.bound a (by omega) h2
  · rcases h.origin with ⟨h1, h2⟩ | ⟨a, h1, h2, h3⟩
    · rw [h1, h2, hlen, hidx, Scan.improve]
      split_ifs
      · exact Or.inr ⟨lo + 1, by omega, hlo, by rw [Nat.add_sub_add_right], rfl⟩
      · exact Or.inl ⟨rfl, rfl⟩
    · exact Or.inr ⟨a, by omega, h2, h3⟩

theorem shrink_bestlen_le (left : ℕ) (s : Scan) :
    (shrink arr n i left s).2.bestlen ≤ s.bestlen := by
  induction left generalizing s with
  | zero => exact le_refl _
  | succ left ih =>
    rw [shrink]
    dsimp only
    split_ifs with h1 h2 h3
    · exact le_refl _
    · exact le_trans (ih _) (le_of_lt h3)
    · exact ih _
    · exact le_refl _

theorem scan_bestlen_le (left i : ℕ) (s : Scan) : (scan arr n m left i s).bestlen ≤ s.bestlen := by
  induction left generalizing i s with
  | zero => exact le_refl _
  | succ left ih =>
    rw [scan]
    dsimp only
    split_ifs with h1 h2
    · exact shrink_bestlen_le _ _
    · exact le_trans (ih _ _) (shrink_bestlen_le _ _)
    · exact ih _ _

/-- A best window is recorded with its index, so no index means no window. -/
def Scan.Untouched (n : ℕ) (s : Scan) : Prop := s.bestidx = -1 → s.bestlen = n + 1

theorem shrink_untouched (left : ℕ) (h : s.Untouched n) :
    (shrink arr n i left s).2.Untouched n := by
  induction left generalizing s with
  | zero => exact h
  | succ left ih =>
    rw [shrink]
    dsimp only
    split_ifs with h1 h2 h3
    · exact h
    · apply ih
      intro hidx
      exact absurd hidx (by dsimp only; omega)
    · exact ih h
    · exact h

theorem scan_untouched (left i : ℕ) (h : s.Untouched n) :
    (scan arr n m left i s).Untouched n := by
  induction left generalizing i s with
  | zero => exact h
  | succ left ih =>
    rw [scan]
    dsimp only
    split_ifs with h1 h2
    · exact shrink_untouched _ h
    · exact ih _ (shrink_untouched _ h)
    · exact ih _ h

/-! ## The inner loop -/

/-- **The inner loop** on a window shorter than the circle with `m` colours: it moves the
start to the last one, `t`, that keeps them, and then loses a colour or raises `flag`. -/
theorem shrink_spec (left : ℕ) (hm0 : 0 < m) (hn : s.lastidx < n) (hlt : s.lastidx < i + 1)
    (hshort : i + 1 < s.lastidx + n)
    (hcounts : Counts (circle arr n) s.lastidx (i + 1) s.mapColor)
    (hm : distinct (circle arr n) s.lastidx (i + 1) = m)
    (hleft : i + 1 - s.lastidx + 1 ≤ left + m) :
    ∃ t flag s', shrink arr n i left s = (flag, s') ∧ s.lastidx ≤ t ∧ t < n ∧
      distinct (circle arr n) t (i + 1) = m ∧ Improves s s' i s.lastidx t ∧
      (flag = true → t + 1 = n) ∧
      (flag = false → t + 1 < n ∧ s'.lastidx = t + 1 ∧
        Counts (circle arr n) (t + 1) (i + 1) s'.mapColor ∧
        distinct (circle arr n) (t + 1) (i + 1) < m) := by
  -- every iteration takes a bead off, and the bound leaves room for all that can go
  induction left generalizing s with
  | zero =>
    -- `m` colours need `m` beads
    have hlen : m ≤ i + 1 - s.lastidx := hm ▸ distinct_le_length
    omega
  | succ left ih =>
    obtain ⟨hflag, hstep⟩ := shrink_step left hlt hcounts
    by_cases hend : n ≤ s.lastidx + 1
    · exact ⟨s.lastidx, true, s, hflag hend, le_refl _, hn, hm, improves_self rfl rfl,
        fun _ => by omega, fun h => absurd h (by decide)⟩
    · have hend' : s.lastidx + 1 < n := by omega
      obtain ⟨mapColor, hcounts', hkeep, hlose⟩ := hstep hend'
      by_cases hmem : circle arr n s.lastidx ∈ values (circle arr n) (s.lastidx + 1) (i + 1)
      · have hm' : distinct (circle arr n) (s.lastidx + 1) (i + 1) = m := by
          unfold distinct
          rw [values_drop_left_of_mem hlt hmem]
          exact hm
        have hlt' : s.lastidx + 1 < i + 1 := by
          by_contra hge
          have hlen : m ≤ i + 1 - (s.lastidx + 1) := hm' ▸ distinct_le_length
          omega
        have hmod : (i - s.lastidx) % n = i - s.lastidx := Nat.mod_eq_of_lt (by omega)
        rw [hkeep hmem, hmod]
        obtain ⟨t, flag, s', hs', h1, h2, h3, h4, h5⟩ :=
          ih (s := ⟨s.lastidx + 1, mapColor, _, _⟩) hend' hlt'
            (by show i + 1 < s.lastidx + 1 + n; omega) hcounts' hm'
            (by show i + 1 - (s.lastidx + 1) + 1 ≤ left + m; omega)
        exact ⟨t, flag, s', hs', le_trans (Nat.le_succ _) h1, h2, h3,
          improves_cons h1 rfl rfl h4, h5⟩
      · have hdrop := distinct_drop_left_of_not_mem hlt hmem
        rw [hlose hmem]
        exact ⟨s.lastidx, false, _, rfl, le_refl _, hn, hm, improves_self rfl rfl,
          fun h => absurd h (by decide), fun _ => ⟨hend', rfl, hcounts', by omega⟩⟩

/-! ## The invariant of the outer loop -/

/-- A window that the scan compares with the best one: `m` colours, and fewer in the
window of the same length one bead to the left. -/
structure Recordable (f : ℕ → ℤ) (n m a e : ℕ) : Prop where
  pos : 0 < a
  lt : a < n
  exact : distinct f a e = m
  fewer : distinct f (a - 1) (e - 1) < m

/-- The best length belongs to a recordable window that ends by `i`, or is still `n + 1`. -/
def Recorded (f : ℕ → ℤ) (n m i : ℕ) (s : Scan) : Prop :=
  (s.bestlen = n + 1 ∧ s.bestidx = -1) ∨
    ∃ a e, e ≤ i ∧ Recordable f n m a e ∧ s.bestlen = (e - a : ℕ) ∧ s.bestidx = a

/-- The best length is at most that of every recordable window that ends by `i`. -/
def Complete (f : ℕ → ℤ) (n m i : ℕ) (s : Scan) : Prop :=
  ∀ a e, Recordable f n m a e → e ≤ i → s.bestlen ≤ (e - a : ℕ)

/-- The state before the iteration `i`, as long as no window has grown to the whole
circle. -/
structure Regular (f : ℕ → ℤ) (n m i : ℕ) (s : Scan) : Prop where
  last_le : s.lastidx ≤ i
  last_lt : s.lastidx < n
  counts : Counts f s.lastidx i s.mapColor
  few : distinct f s.lastidx i < m
  tight : 0 < s.lastidx → m ≤ distinct f (s.lastidx - 1) i
  recorded : Recorded f n m i s
  complete : Complete f n m i s
  /-- With all colours wanted, the window does not get past a colour held once. -/
  held : distinct f 0 n = m → ∀ p, Single f n p → s.lastidx ≤ p + 1 ∧ (p + 1 = n → s.lastidx = 0)

theorem regular_start (hm : 0 < m) (hn : 0 < n) :
    Regular (circle arr n) n m 0 ⟨0, ∅, n + 1, -1⟩ where
  last_le := le_refl 0
  last_lt := hn
  counts := counts_empty
  few := by rw [distinct_self]; exact hm
  tight := fun h => absurd h (lt_irrefl 0)
  recorded := Or.inl ⟨rfl, rfl⟩
  complete := fun a e h he => by
    obtain rfl : e = 0 := by omega
    have hlen : m ≤ 0 - a := h.exact ▸ distinct_le_length
    omega
  held := fun _ _ _ => ⟨Nat.zero_le _, fun _ => rfl⟩

theorem Recorded.mono {f : ℕ → ℤ} {i' : ℕ} (h : Recorded f n m i s) (hi : i ≤ i') :
    Recorded f n m i' s := by
  rcases h with h | ⟨a, e, he, h⟩
  · exact Or.inl h
  · exact Or.inr ⟨a, e, le_trans he hi, h⟩

/-- A recordable window that ends with the bead `i` starts inside the current one. -/
theorem Regular.last_lt_of_recordable {f : ℕ → ℤ} {a : ℕ} (h : Regular f n m i s)
    (hrec : Recordable f n m a (i + 1)) : s.lastidx < a := by
  by_contra hge
  have hpos := hrec.pos
  have htight := h.tight (by omega)
  have hmono : distinct f (s.lastidx - 1) i ≤ distinct f (a - 1) i :=
    distinct_mono (by omega) (le_refl i)
  have hfewer := hrec.fewer
  rw [Nat.add_sub_cancel] at hfewer
  omega

/-- Without `m` colours the bead is only counted. -/
theorem regular_miss {f : ℕ → ℤ} {mapColor : ColorMap} (h : Regular f n m i s)
    (hcounts : Counts f s.lastidx (i + 1) mapColor)
    (hmiss : distinct f s.lastidx (i + 1) ≠ m) :
    Regular f n m (i + 1) { s with mapColor := mapColor } where
  last_le := le_trans h.last_le (Nat.le_succ i)
  last_lt := h.last_lt
  counts := hcounts
  few := by
    have hsucc := distinct_succ_right_le (f := f) h.last_le
    have hfew := h.few
    show distinct f s.lastidx (i + 1) < m
    omega
  tight := fun hpos => le_trans (h.tight hpos) (distinct_mono (le_refl _) (Nat.le_succ i))
  recorded := h.recorded.mono (Nat.le_succ i)
  complete := fun a e hrec he => by
    by_cases hei : e ≤ i
    · exact h.complete a e hrec hei
    · obtain rfl : e = i + 1 := by omega
      have hlast := h.last_lt_of_recordable hrec
      have hmono : distinct f a (i + 1) ≤ distinct f s.lastidx (i + 1) :=
        distinct_mono (le_of_lt hlast) (le_refl _)
      have hsucc := distinct_succ_right_le (f := f) h.last_le
      have hfew := h.few
      have hexact := hrec.exact
      omega
  held := h.held

/-- After the inner loop the best length accounts for the windows ending with bead `i`. -/
theorem recorded_hit {f : ℕ → ℤ} {t : ℕ} {s' : Scan} (h : Regular f n m i s)
    (hhit : distinct f s.lastidx (i + 1) = m) (htn : t < n) (ht : distinct f t (i + 1) = m)
    (himp : Improves s s' i s.lastidx t) : Recorded f n m (i + 1) s' := by
  rcases himp.origin with ⟨h1, h2⟩ | ⟨a, h1, h2, h3⟩
  · rcases h.recorded with h3 | ⟨a, e, he, h3⟩
    · exact Or.inl (by rw [h1, h2]; exact h3)
    · exact Or.inr ⟨a, e, by omega, by rw [h1, h2]; exact h3⟩
  · refine Or.inr ⟨a, i + 1, le_refl _, ⟨by omega, by omega, ?_, ?_⟩, h3⟩
    · have hle : distinct f a (i + 1) ≤ distinct f s.lastidx (i + 1) :=
        distinct_mono (le_of_lt h1) (le_refl _)
      have hge : distinct f t (i + 1) ≤ distinct f a (i + 1) := distinct_mono h2 (le_refl _)
      omega
    · rw [Nat.add_sub_cancel]
      exact lt_of_le_of_lt (distinct_mono (by omega) (le_refl i)) h.few

theorem complete_hit {f : ℕ → ℤ} {t : ℕ} {s' : Scan} (h : Regular f n m i s)
    (ht : ∀ a, a < n → distinct f a (i + 1) = m → a ≤ t)
    (himp : Improves s s' i s.lastidx t) : Complete f n m (i + 1) s' := by
  intro a e hrec he
  by_cases hei : e ≤ i
  · exact le_trans himp.le (h.complete a e hrec hei)
  · obtain rfl : e = i + 1 := by omega
    exact himp.bound a (h.last_lt_of_recordable hrec) (ht a hrec.lt hrec.exact)

/-- With all colours wanted and a window shorter than the circle, a colour held once lies
behind every start that keeps all colours, and the window is not at the end of a lap. -/
theorem Regular.le_single {f : ℕ → ℤ} {t p : ℕ} (hf : Periodic f n) (h : Regular f n m i s)
    (hall : distinct f 0 n = m) (hshort : i + 1 < s.lastidx + n)
    (ht : distinct f t (i + 1) = m) (hp : Single f n p) : t ≤ p ∧ p + 1 ≠ n := by
  obtain ⟨hlast, hend⟩ := h.held hall p hp
  obtain ⟨q, hq1, hq2, hq⟩ := exists_single_of_distinct_eq hf hp (ht.trans hall.symm)
  rcases eq_or_add_le_of_mod_eq hq with rfl | hlap
  · refine ⟨hq1, ?_⟩
    intro hqn
    have := hend hqn
    omega
  · omega

/-- With `m` colours in a window shorter than the circle the inner loop keeps the
invariant. -/
theorem regular_hit {f : ℕ → ℤ} {t : ℕ} {s' : Scan} (hf : Periodic f n) (h : Regular f n m i s)
    (hm0 : 0 < m) (hshort : i + 1 < s.lastidx + n) (hhit : distinct f s.lastidx (i + 1) = m)
    (htn : t + 1 < n) (ht : distinct f t (i + 1) = m)
    (himp : Improves s s' i s.lastidx t) (hlast : s'.lastidx = t + 1)
    (hcounts : Counts f (t + 1) (i + 1) s'.mapColor) (hfew : distinct f (t + 1) (i + 1) < m) :
    Regular f n m (i + 1) s' where
  last_le := by
    have hlen : m ≤ i + 1 - t := ht ▸ distinct_le_length
    omega
  last_lt := by omega
  counts := by rw [hlast]; exact hcounts
  few := by rw [hlast]; exact hfew
  tight := fun _ => by rw [hlast, Nat.add_sub_cancel, ht]
  recorded := recorded_hit h hhit (by omega) ht himp
  complete := by
    refine complete_hit h ?_ himp
    intro a _ ha
    by_contra hgt
    have hmono : distinct f a (i + 1) ≤ distinct f (t + 1) (i + 1) :=
      distinct_mono (by omega) (le_refl _)
    omega
  held := fun hall p hp => by
    obtain ⟨h1, h2⟩ := h.le_single hf hall hshort ht hp
    rw [hlast]
    exact ⟨by omega, fun hpn => absurd hpn h2⟩

/-- While the circle has `m` colours the window before a bead is shorter than it. -/
theorem Regular.lt_add {f : ℕ → ℤ} (hf : Periodic f n) (h : Regular f n m i s)
    (hD : m ≤ distinct f 0 n) : i < s.lastidx + n := by
  by_contra hge
  have hfew := h.few
  rw [distinct_period hf (by omega)] at hfew
  omega

/-! ## A window of the whole circle -/

/-- The state after the window has grown to the circle, while its start stands still. -/
structure Grown (f : ℕ → ℤ) (n m i : ℕ) (s : Scan) : Prop where
  counts : Counts f s.lastidx i s.mapColor
  last_lt : s.lastidx < n
  length : s.lastidx + n ≤ i
  all : distinct f 0 n = m

/-- The iterations whose length modulo `n` is below `m` record nothing. -/
theorem grown_step (left : ℕ) (h : Grown (circle arr n) n m i s)
    (hlow : (i + 1 - s.lastidx) % n < m) : ∃ mapColor,
      scan arr n m (left + 1) i s = scan arr n m left (i + 1) { s with mapColor := mapColor } ∧
      Grown (circle arr n) n m (i + 1) { s with mapColor := mapColor } := by
  have hn : 0 < n := lt_of_le_of_lt (Nat.zero_le _) h.last_lt
  have hlast := h.length
  obtain ⟨mapColor, hcounts, -, hhit⟩ :=
    scan_step (m := m) left (by omega) h.counts
  have hall : distinct (circle arr n) s.lastidx (i + 1) = m := by
    rw [distinct_period (periodic_circle arr hn) (by omega)]
    exact h.all
  have hzero : ((((i + 1 - s.lastidx) % n : ℕ) : ℤ) - m + 1).toNat = 0 := by omega
  refine ⟨mapColor, ?_, hcounts, h.last_lt, by dsimp only; omega, h.all⟩
  rw [hhit hall false { s with mapColor := mapColor } (by rw [hzero, shrink])]
  rfl

/-- The lengths from `n` to `2 * n - lastidx` stay below `m` modulo `n`. -/
theorem scan_quiet (left : ℕ) (h : Grown (circle arr n) n m i s) (hi : i + left ≤ 2 * n)
    (hm0 : 0 < m) (hlow : n < s.lastidx + m ∨ m = n) :
    (scan arr n m left i s).bestlen = s.bestlen ∧
      (scan arr n m left i s).bestidx = s.bestidx := by
  induction left generalizing i s with
  | zero => exact ⟨rfl, rfl⟩
  | succ left ih =>
    have hlen := h.length
    have hlast := h.last_lt
    have hmod : (i + 1 - s.lastidx) % n < m := by
      rcases hlow with hlow | hlow
      -- the lap ends before the length reaches `n + m`
      · by_cases hlap : i + 1 - s.lastidx < 2 * n
        · rw [Nat.mod_eq_sub_mod (by omega), Nat.mod_eq_of_lt (by omega)]
          omega
        · have hlap2 : i + 1 - s.lastidx = n * 2 := by omega
          rw [hlap2, Nat.mul_mod_right]
          exact hm0
      · rw [hlow]
        exact Nat.mod_lt _ (by omega)
    obtain ⟨mapColor, hstep, hgrown⟩ := grown_step left h hmod
    rw [hstep]
    exact ih hgrown (by omega) hlow

/-- Once the length reaches `m` modulo `n`, the inner loop records a length below `m`. -/
theorem scan_broken (left : ℕ) (h : Grown (circle arr n) n m i s) (hi : i + left = 2 * n)
    (hm0 : 0 < m) (hmn : m < n) (hlast : s.lastidx + 1 < n) (hroom : s.lastidx + m ≤ n)
    (hbefore : i < s.lastidx + n + m) : (scan arr n m left i s).bestlen ≤ (m - 1 : ℕ) := by
  induction left generalizing i s with
  | zero => omega
  | succ left ih =>
    have hlen := h.length
    have hmod : (i + 1 - s.lastidx) % n = i + 1 - s.lastidx - n := by
      rw [Nat.mod_eq_sub_mod (by omega), Nat.mod_eq_of_lt (by omega)]
    by_cases hlow : i + 1 - s.lastidx - n < m
    · obtain ⟨mapColor, hstep, hgrown⟩ := grown_step left h (by omega)
      rw [hstep]
      exact ih hgrown (by omega) hlast hroom (by dsimp only; omega)
    · -- the window `[lastidx, lastidx + n + m)`: one iteration of the inner loop
      have hf := periodic_circle arr (n := n) (by omega)
      obtain ⟨mapColor, hcounts, -, hhit⟩ := scan_step (m := m) left (by omega) h.counts
      have hall : distinct (circle arr n) s.lastidx (i + 1) = m := by
        rw [distinct_period hf (by omega)]
        exact h.all
      have hone : ((((i + 1 - s.lastidx) % n : ℕ) : ℤ) - m + 1).toNat = 1 := by omega
      have hmem : circle arr n s.lastidx ∈ values (circle arr n) (s.lastidx + 1) (i + 1) := by
        refine mem_values.mpr ⟨s.lastidx + n, by omega, by omega, ?_⟩
        rw [circle, circle, Nat.add_mod_right]
      obtain ⟨mapColor', -, hkeep, -⟩ :=
        (shrink_step (i := i) 0 (s := { s with mapColor := mapColor })
          (by dsimp only; omega) hcounts).2 hlast
      have hcurlen : (i - s.lastidx) % n = m - 1 := by
        rw [Nat.mod_eq_sub_mod (by omega), Nat.mod_eq_of_lt (by omega)]
        omega
      have hshrink := hkeep hmem
      dsimp only at hshrink
      rw [shrink, hcurlen] at hshrink
      rw [hhit hall false _ (by rw [hone]; exact hshrink)]
      apply le_trans (scan_bestlen_le _ _ _)
      dsimp only
      rw [improve_fst]
      exact min_le_right _ _

/-! ## One iteration, and how a run ends -/

/-- The run ends with `flag`: every recordable window has been compared. -/
structure Flagged (f : ℕ → ℤ) (n m : ℕ) (s : Scan) : Prop where
  recorded : Recorded f n m (2 * n) s
  complete : ∀ a e, Recordable f n m a e → s.bestlen ≤ (e - a : ℕ)
  unheld : distinct f 0 n = m → ∀ p, ¬ Single f n p

/-- **One iteration** from a regular state: the next state is regular, or the run ends with
`flag`, or the window has grown to the circle. -/
theorem regular_step (left : ℕ) (h : Regular (circle arr n) n m i s) (hm0 : 0 < m)
    (hi : i < 2 * n) (hD : m ≤ distinct (circle arr n) 0 n) :
    (∃ s', scan arr n m (left + 1) i s = scan arr n m left (i + 1) s' ∧
      Regular (circle arr n) n m (i + 1) s') ∨
    Flagged (circle arr n) n m (scan arr n m (left + 1) i s) ∨
    (i + 1 = s.lastidx + n ∧ Single (circle arr n) n (i % n) ∧ ∃ mapColor,
      scan arr n m (left + 1) i s = scan arr n m left (i + 1) { s with mapColor := mapColor } ∧
      Grown (circle arr n) n m (i + 1) { s with mapColor := mapColor }) := by
  have hn : 0 < n := lt_of_le_of_lt (Nat.zero_le _) h.last_lt
  have hf := periodic_circle arr hn
  obtain ⟨mapColor, hcounts, hmiss, hhit⟩ := scan_step (m := m) left h.last_le h.counts
  by_cases hm : distinct (circle arr n) s.lastidx (i + 1) = m
  · have hlen := h.lt_add hf hD
    by_cases hshort : i + 1 < s.lastidx + n
    · have hle := h.last_le
      have hmlen : m ≤ i + 1 - s.lastidx := hm ▸ distinct_le_length
      obtain ⟨t, flag, s', hs', h1, h2, h3, h4, h5, h6⟩ :=
        shrink_spec (s := { s with mapColor := mapColor })
          ((((i + 1 - s.lastidx) % n : ℕ) : ℤ) - m + 1).toNat hm0 h.last_lt
          (Nat.lt_succ_of_le hle) hshort hcounts hm
          (by rw [Nat.mod_eq_of_lt (by omega)]; dsimp only; omega)
      have himp : Improves s s' i s.lastidx t := ⟨h4.le, h4.bound, h4.origin⟩
      rw [hhit hm flag s' hs']
      by_cases hflag : flag = true
      · -- the start has reached the last bead of the first lap
        rw [if_pos hflag]
        have htn := h5 hflag
        refine Or.inr (Or.inl ⟨(recorded_hit h hm h2 h3 himp).mono (by omega), ?_, ?_⟩)
        · intro a e hrec
          by_cases hei : e ≤ i + 1
          · exact complete_hit h (fun a ha _ => by omega) himp a e hrec hei
          · -- a later window would still have `m` colours one bead to the left
            have hlt := hrec.lt
            have hfewer := hrec.fewer
            have hmono : distinct (circle arr n) t (i + 1)
                ≤ distinct (circle arr n) (a - 1) (e - 1) := distinct_mono (by omega) (by omega)
            omega
        · intro hall p hp
          obtain ⟨hp1, hp2⟩ := h.le_single hf hall hshort h3 hp
          have := hp.1
          omega
      · rw [if_neg hflag]
        obtain ⟨g1, g2, g3, g4⟩ := h6 (by simpa using hflag)
        exact Or.inl ⟨s', rfl, regular_hit hf h hm0 hshort hm g1 h3 himp g2 g3 g4⟩
    · -- length `n`, that is zero
      have hfull : i + 1 = s.lastidx + n := by omega
      have hall : distinct (circle arr n) 0 n = m := by
        rw [← hm]
        exact (distinct_period hf (le_of_eq hfull.symm)).symm
      have hsingle : Single (circle arr n) n (i % n) := by
        have hi' : i = s.lastidx + n - 1 := by omega
        rw [hi']
        apply single_of_not_mem hf
        rw [← hi']
        exact not_mem_of_distinct_lt h.last_le (by rw [hm]; exact h.few)
      have hzero : ((((i + 1 - s.lastidx) % n : ℕ) : ℤ) - m + 1).toNat = 0 := by
        rw [hfull, Nat.add_sub_cancel_left, Nat.mod_self]
        omega
      refine Or.inr (Or.inr ⟨hfull, hsingle, mapColor, ?_, hcounts, h.last_lt,
        le_of_eq hfull.symm, hall⟩)
      rw [hhit hm false { s with mapColor := mapColor } (by rw [hzero, shrink])]
      rfl
  · exact Or.inl ⟨_, hmiss hm, regular_miss h hcounts hm⟩

/-- The bead before the start of a window of the whole circle is alone in its colour; before
the first bead comes the last one. -/
def Stopper (f : ℕ → ℤ) (n lastidx : ℕ) : Prop :=
  (lastidx = 0 ∧ Single f n (n - 1)) ∨ (0 < lastidx ∧ Single f n (lastidx - 1))

theorem stopper_of_single {f : ℕ → ℤ} {lastidx : ℕ} (hlt : lastidx < n)
    (hfull : i + 1 = lastidx + n) (h : Single f n (i % n)) : Stopper f n lastidx := by
  rcases Nat.eq_zero_or_pos lastidx with h0 | hpos
  · rw [Nat.mod_eq_of_lt (by omega), show i = n - 1 by omega] at h
    exact Or.inl ⟨h0, h⟩
  · have hmod : i % n = lastidx - 1 := by
      rw [Nat.mod_eq_sub_mod (by omega), Nat.mod_eq_of_lt (by omega)]
      omega
    rw [hmod] at h
    exact Or.inr ⟨hpos, h⟩

/-- **How a run ends** when the circle has `m` colours: with `flag`, or with a regular state
in which the window grows to the whole circle and the iterations that follow it. -/
theorem scan_outcome (left : ℕ) (h : Regular (circle arr n) n m i s) (hm0 : 0 < m)
    (hi : i + left = 2 * n) (hD : m ≤ distinct (circle arr n) 0 n) :
    Flagged (circle arr n) n m (scan arr n m left i s) ∨
    ∃ i' s' mapColor left', Regular (circle arr n) n m i' s' ∧ i' + 1 = s'.lastidx + n ∧
      Stopper (circle arr n) n s'.lastidx ∧ i' + 1 + left' = 2 * n ∧
      Grown (circle arr n) n m (i' + 1) { s' with mapColor := mapColor } ∧
      scan arr n m left i s = scan arr n m left' (i' + 1) { s' with mapColor := mapColor } := by
  induction left generalizing i s with
  | zero =>
    -- a regular window after two laps would be longer than the circle
    have hn : 0 < n := lt_of_le_of_lt (Nat.zero_le _) h.last_lt
    have hlen := h.lt_add (periodic_circle arr hn) hD
    have hlast := h.last_lt
    omega
  | succ left ih =>
    rcases regular_step left h hm0 (by omega) hD with ⟨s', hs', hreg⟩ | hflag | hgrown
    · rw [hs']
      exact ih hreg (by omega)
    · exact Or.inl hflag
    · obtain ⟨hfull, hsingle, mapColor, hscan, hgrown⟩ := hgrown
      have hstop := stopper_of_single h.last_lt hfull hsingle
      exact Or.inr ⟨i, s, mapColor, left, h, hfull, hstop, by omega, hgrown, hscan⟩

/-! ### Behind a window of the whole circle -/

/-- A window grown to the circle on the first lap is cut short, if it has two beads of one
colour. -/
theorem broken_first_lap {mapColor : ColorMap} {left : ℕ}
    (hgrown : Grown (circle arr n) n m (i + 1) { s with mapColor := mapColor })
    (hlast : s.lastidx = 0) (hfull : i + 1 = n) (hleft : i + 1 + left = 2 * n) (hm0 : 0 < m)
    (hmn : m < n) :
    (scan arr n m left (i + 1) { s with mapColor := mapColor }).bestlen ≤ (m - 1 : ℕ) := by
  have hone : s.lastidx + 1 < n := by omega
  have hroom : s.lastidx + m ≤ n := by omega
  have hbefore : i + 1 < s.lastidx + n + m := by omega
  exact scan_broken left hgrown hleft hm0 hmn hone hroom hbefore

/-- On the second lap it is cut short if there are `m` beads left to read. -/
theorem broken_second_lap {mapColor : ColorMap} {left : ℕ}
    (hreg : Regular (circle arr n) n m i s)
    (hgrown : Grown (circle arr n) n m (i + 1) { s with mapColor := mapColor })
    (hlast : 0 < s.lastidx) (hfull : i + 1 = s.lastidx + n) (hleft : i + 1 + left = 2 * n)
    (hm0 : 0 < m) (hroom : s.lastidx + m ≤ n) :
    (scan arr n m left (i + 1) { s with mapColor := mapColor }).bestlen ≤ (m - 1 : ℕ) := by
  have hmn : m < n := by omega
  have hm2 : 2 ≤ m := by
    have hfew := hreg.few
    have hpos : 0 < distinct (circle arr n) s.lastidx i := distinct_pos (by omega)
    omega
  have hone : s.lastidx + 1 < n := by omega
  have hbefore : i + 1 < s.lastidx + n + m := by omega
  exact scan_broken left hgrown hleft hm0 hmn hone hroom hbefore

/-- Otherwise it records nothing any more. -/
theorem quiet_second_lap {mapColor : ColorMap} {left : ℕ}
    (hgrown : Grown (circle arr n) n m (i + 1) { s with mapColor := mapColor })
    (hleft : i + 1 + left = 2 * n) (hm0 : 0 < m) (hroom : ¬ s.lastidx + m ≤ n) :
    (scan arr n m left (i + 1) { s with mapColor := mapColor }).bestlen = s.bestlen ∧
      (scan arr n m left (i + 1) { s with mapColor := mapColor }).bestidx = s.bestidx := by
  have hlate : n < s.lastidx + m := by omega
  exact scan_quiet left hgrown (Nat.le_of_eq hleft) hm0 (Or.inl hlate)

/-- With fewer than `m` colours nothing is ever recorded. -/
theorem scan_too_few (left : ℕ) (h : Regular (circle arr n) n m i s)
    (hD : distinct (circle arr n) 0 n < m) :
    (scan arr n m left i s).bestlen = s.bestlen ∧
      (scan arr n m left i s).bestidx = s.bestidx := by
  induction left generalizing i s with
  | zero => exact ⟨rfl, rfl⟩
  | succ left ih =>
    have hn : 0 < n := lt_of_le_of_lt (Nat.zero_le _) h.last_lt
    obtain ⟨mapColor, hcounts, hmiss, -⟩ := scan_step (m := m) left h.last_le h.counts
    have hm : distinct (circle arr n) s.lastidx (i + 1) ≠ m := by
      have hle : distinct (circle arr n) s.lastidx (i + 1) ≤ distinct (circle arr n) 0 n :=
        distinct_le_period (periodic_circle arr hn)
      omega
    rw [hmiss hm]
    exact ih (regular_miss h hcounts hm)

end MinSpan
