/-
# The runs that the row pass erases

A run of at least two cells is erased as a whole, whatever the cells above and below it are:
`InLong`, which looks at the neighbours of a cell, says that the cell is in such a run
(`inLong_iff`), and every run has one start (`card_runs`).

* `MaxRun` : a maximal run, as the interval of its positions;
* `countBattleships_erases_iff` : the board afterwards, cell by cell, and what the row pass
  counts, when all that is counted is an `int`.
-/
import Pungoo.BattleshipsFleet
import Mathlib.Order.Interval.Finset.Nat

namespace Battleships

/-! ## Maximal runs -/

section Runs

variable (x : ℕ → Prop)

/-- The positions from `a` up to but not including `b` are a maximal run. -/
def MaxRun (a b : ℕ) : Prop :=
  a < b ∧ (∀ k ∈ Finset.Ico a b, x k) ∧ (0 < a → ¬ x (a - 1)) ∧ ¬ x b

instance [DecidablePred x] (a b : ℕ) : Decidable (MaxRun x a b) :=
  inferInstanceAs (Decidable (_ ∧ _))

/-- The maximal runs of at least two positions, as pairs of the first position and the position
behind the last one. -/
def runs [DecidablePred x] (w : ℕ) : Finset (ℕ × ℕ) :=
  (Finset.range w ×ˢ Finset.range (w + 1)).filter fun p => MaxRun x p.1 p.2 ∧ p.1 + 2 ≤ p.2

variable {x} {a b b' k w : ℕ}

theorem MaxRun.mem (h : MaxRun x a b) (ha : a ≤ k) (hb : k < b) : x k :=
  h.2.1 k (Finset.mem_Ico.mpr ⟨ha, hb⟩)

/-- A run has one end. -/
theorem MaxRun.end_unique (h : MaxRun x a b) (h' : MaxRun x a b') : b = b' := by
  have ha := h.1
  have ha' := h'.1
  rcases Nat.lt_trichotomy b b' with hlt | heq | hlt
  · exact absurd (h'.mem (Nat.le_of_lt ha) hlt) h.2.2.2
  · exact heq
  · exact absurd (h.mem (Nat.le_of_lt ha') hlt) h'.2.2.2

/-- Going left from a position, the run starts somewhere. -/
theorem exists_start (hk : x k) :
    ∃ a ≤ k, (∀ j, a ≤ j → j ≤ k → x j) ∧ (0 < a → ¬ x (a - 1)) := by
  induction k with
  | zero =>
    refine ⟨0, le_refl 0, ?_, fun h => absurd h (lt_irrefl 0)⟩
    intro j _ hj
    rw [Nat.le_zero.mp hj]
    exact hk
  | succ k ih =>
    by_cases hprev : x k
    · obtain ⟨a, hak, hall, hleft⟩ := ih hprev
      refine ⟨a, Nat.le_succ_of_le hak, ?_, hleft⟩
      intro j haj hj
      rcases Nat.eq_or_lt_of_le hj with rfl | hlt
      · exact hk
      · exact hall j haj (Nat.le_of_lt_succ hlt)
    · refine ⟨k + 1, le_refl _, ?_, fun _ => hprev⟩
      intro j haj hj
      rw [Nat.le_antisymm hj haj]
      exact hk

/-- Going right, it ends somewhere, as there are no positions from `w` on. -/
theorem exists_end (hw : ∀ k, x k → k < w) (hk : x k) :
    ∃ b, k < b ∧ (∀ j, k ≤ j → j < b → x j) ∧ ¬ x b := by
  induction hn : w - k generalizing k with
  | zero =>
    have hlt := hw k hk
    omega
  | succ n ih =>
    by_cases hnext : x (k + 1)
    · obtain ⟨b, hkb, hall, hright⟩ := ih hnext (by omega)
      refine ⟨b, Nat.lt_of_succ_lt hkb, ?_, hright⟩
      intro j hkj hjb
      rcases Nat.eq_or_lt_of_le hkj with rfl | hlt
      · exact hk
      · exact hall j hlt hjb
    · refine ⟨k + 1, Nat.lt_succ_self k, ?_, hnext⟩
      intro j hkj hjb
      rw [Nat.le_antisymm (Nat.le_of_lt_succ hjb) hkj]
      exact hk

/-- Every position is in a maximal run. -/
theorem exists_maxRun (hw : ∀ k, x k → k < w) (hk : x k) :
    ∃ a b, MaxRun x a b ∧ a ≤ k ∧ k < b := by
  obtain ⟨a, hak, hbefore, hleft⟩ := exists_start hk
  obtain ⟨b, hkb, hbehind, hright⟩ := exists_end hw hk
  refine ⟨a, b, ⟨Nat.lt_of_le_of_lt hak hkb, ?_, hleft, hright⟩, hak, hkb⟩
  intro j hj
  rw [Finset.mem_Ico] at hj
  rcases Nat.le_total j k with hjk | hkj
  · exact hbefore j hj.1 hjk
  · exact hbehind j hkj hj.2

/-- **Long runs and neighbours**: a position is in a maximal run of at least two exactly when
one of its neighbours is a position too. -/
theorem inLong_iff (hw : ∀ k, x k → k < w) :
    InLong x k ↔ ∃ a b, MaxRun x a b ∧ a + 2 ≤ b ∧ a ≤ k ∧ k < b := by
  constructor
  · rintro ⟨hk, hside⟩
    obtain ⟨a, b, hrun, hak, hkb⟩ := exists_maxRun hw hk
    refine ⟨a, b, hrun, ?_, hak, hkb⟩
    rcases hside with hnext | ⟨hpos, hprev⟩
    · have hne : k + 1 ≠ b := by
        rintro rfl
        exact hrun.2.2.2 hnext
      omega
    · have hne : a ≠ k := by
        rintro rfl
        exact hrun.2.2.1 hpos hprev
      omega
  · rintro ⟨a, b, hrun, hlong, hak, hkb⟩
    refine ⟨hrun.mem hak hkb, ?_⟩
    rcases Nat.lt_or_ge (k + 1) b with hlt | hge
    · exact Or.inl (hrun.mem (Nat.le_succ_of_le hak) hlt)
    · exact Or.inr ⟨by omega, hrun.mem (by omega) (by omega)⟩

theorem startsLong_iff (hw : ∀ k, x k → k < w) :
    StartsLong x a ↔ ∃ b, MaxRun x a b ∧ a + 2 ≤ b := by
  constructor
  · rintro ⟨⟨ha, hleft⟩, hnext⟩
    obtain ⟨b, hab, hall, hright⟩ := exists_end hw ha
    have hne : a + 1 ≠ b := by
      rintro rfl
      exact hright hnext
    refine ⟨b, ⟨hab, ?_, hleft, hright⟩, by omega⟩
    intro j hj
    rw [Finset.mem_Ico] at hj
    exact hall j hj.1 hj.2
  · rintro ⟨b, hrun, hlong⟩
    exact ⟨⟨hrun.mem (le_refl a) hrun.1, hrun.2.2.1⟩, hrun.mem (Nat.le_succ a) (by omega)⟩

/-- **Every long run has one start.** -/
theorem card_runs [DecidablePred x] (hw : ∀ k, x k → k < w) :
    (runs x w).card = Nat.count (StartsLong x) w := by
  have hinj : Set.InjOn Prod.fst (runs x w : Set (ℕ × ℕ)) := by
    rintro ⟨a, b⟩ hp ⟨a', b'⟩ hq heq
    dsimp only at heq
    subst heq
    have hrun : MaxRun x a b := (Finset.mem_filter.mp hp).2.1
    have hrun' : MaxRun x a b' := (Finset.mem_filter.mp hq).2.1
    rw [hrun.end_unique hrun']
  rw [Nat.count_eq_card_filter_range, ← Finset.card_image_of_injOn hinj]
  congr 1
  ext a
  rw [Finset.mem_image, Finset.mem_filter, startsLong_iff hw, Finset.mem_range]
  constructor
  · rintro ⟨⟨a, b⟩, hp, rfl⟩
    obtain ⟨hmem, hrun, hlong⟩ := Finset.mem_filter.mp hp
    exact ⟨Finset.mem_range.mp (Finset.mem_product.mp hmem).1, b, hrun, hlong⟩
  · rintro ⟨haw, b, hrun, hlong⟩
    have hlast := hw (b - 1) (hrun.mem (by omega) (by omega))
    refine ⟨(a, b), Finset.mem_filter.mpr ⟨?_, hrun, hlong⟩, rfl⟩
    exact Finset.mem_product.mpr ⟨Finset.mem_range.mpr haw, Finset.mem_range.mpr (by omega)⟩

end Runs

/-! ## The board -/

/-- The maximal horizontal runs of at least two `x`, with the row in front. -/
def longRuns (board : Board) : Finset (Σ _ : ℕ, ℕ × ℕ) :=
  (Finset.range board.rows.length).sigma fun i => runs (XAt board.rows i) board.width

variable {board : Board} {i j : ℕ}

theorem xAt_lt_width (h : XAt board.rows i j) : j < board.width := by
  rw [← board.rectangular i (xAt_lt h)]
  exact isX_lt h

/-- The row pass counts the long runs. -/
theorem rowRuns_eq_card (board : Board) : rowRuns board.rows = (longRuns board).card := by
  rw [rowRuns, longRuns, Finset.card_sigma]
  apply Finset.sum_congr rfl
  intro i hi
  rw [board.rectangular i (Finset.mem_range.mp hi)]
  exact (card_runs fun k => xAt_lt_width).symm

/-- A cell of what is left differs exactly when it was in a long run, and is a dot then. -/
theorem left_cell (board : Board) (i j : ℕ) :
    (cellAt (left board) i j ≠ cellAt board.rows i j ↔
        ∃ a b, MaxRun (XAt board.rows i) a b ∧ a + 2 ≤ b ∧ a ≤ j ∧ j < b) ∧
      (cellAt (left board) i j ≠ cellAt board.rows i j → cellAt (left board) i j = '.') := by
  rw [left, cellAt_erase, ← inLong_iff fun k => xAt_lt_width]
  by_cases h : InLong (XAt board.rows i) j
  · have hx : cellAt board.rows i j = 'x' := h.1
    rw [if_pos h, hx]
    exact ⟨iff_of_true (by decide) h, fun _ => rfl⟩
  · rw [if_neg h]
    exact ⟨iff_of_false (fun hne => hne rfl) h, fun hne => absurd rfl hne⟩

/-- **The board afterwards.**  On every rectangular board that is not empty, the function returns
and leaves a board where a cell differs from its old value exactly when it was in a maximal
horizontal run of at least two `x`, a cell that differs is a dot, and the row pass has counted
these runs, exactly when they and the starts that the column pass finds are at most `INT_MAX`. -/
theorem countBattleships_erases_iff (board : Board) :
    (∃ left count, countBattleships board.rows = some (left, count) ∧
      left.length = board.rows.length ∧
      (∀ i, (left.getD i []).length = (board.rows.getD i []).length) ∧
      (∀ i j, (cellAt left i j ≠ cellAt board.rows i j ↔
          ∃ a b, MaxRun (XAt board.rows i) a b ∧ a + 2 ≤ b ∧ a ≤ j ∧ j < b) ∧
        (cellAt left i j ≠ cellAt board.rows i j → cellAt left i j = '.')) ∧
      rowsPass board.rows 0 = some (left, (longRuns board).card)) ↔
    (longRuns board).card + (columnStarts board).card ≤ intMax := by
  have hsum : (countedCells board).card = (longRuns board).card + (columnStarts board).card := by
    rw [card_countedCells, ← rowRuns_eq, rowRuns_eq_card]
  have hrows := rowsPass_eq board.rows (Nat.zero_le intMax)
  rw [Nat.zero_add, rowRuns_eq_card] at hrows
  rw [countBattleships_counted, hsum]
  constructor
  · rintro ⟨left, count, hrun, -⟩
    exact (bounded_eq_some_iff.mp hrun).1
  · intro hle
    refine ⟨left board, _, bounded_of_le hle, length_erase board.rows, ?_, left_cell board, ?_⟩
    · intro i
      rw [left, getD_erase, length_eraseLong]
    · rw [hrows, bounded_of_le (Nat.le_trans (Nat.le_add_right _ _) hle)]
      rfl

/-! ### A board that is too tall -/

/-- A board of rows `xx`. -/
def tallBoard (rows : ℕ) : Board where
  rows := List.replicate (rows + 1) ['x', 'x']
  width := 2
  ne_nil := List.cons_ne_nil _ _
  rectangular := by
    intro i hi
    rw [List.length_replicate] at hi
    rw [List.getD_replicate _ hi]
    rfl

theorem rowRuns_replicate (n : ℕ) : rowRuns (List.replicate n ['x', 'x']) = n := by
  induction n with
  | zero => rfl
  | succ n ih =>
    have hrow : Nat.count (StartsLong (IsX ['x', 'x'])) 2 = 1 := by decide
    rw [List.replicate_succ, rowRuns_cons, ih, Nat.add_comm]
    exact congrArg (n + ·) hrow

/-- The run of the last of `2 ^ 31` rows is one too many for `++count` of the row pass. -/
theorem countBattleships_tall :
    rowsPass (tallBoard intMax).rows 0 = none ∧
      countBattleships (tallBoard intMax).rows = none := by
  have hrows : rowsPass (tallBoard intMax).rows 0 = none := by
    have hruns : rowRuns (tallBoard intMax).rows = intMax + 1 := rowRuns_replicate (intMax + 1)
    rw [rowsPass_eq _ (Nat.zero_le intMax), hruns, Nat.zero_add]
    exact bounded_of_not_le (Nat.not_succ_le_self intMax)
  refine ⟨hrows, ?_⟩
  unfold countBattleships
  rw [hrows]
  rfl

end Battleships
