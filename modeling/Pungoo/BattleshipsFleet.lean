/-
# Fleets, and how many ships are counted

A `Fleet` places straight ships on a board so that they make up its `x` cells and no two of
them touch.  Each ship has a start, its topmost or leftmost cell.  A start is found by one
pass only: by the row pass for the horizontal ships of at least two cells, by the column
pass for all others, unless the narrowed width hides their column.

* `card_ships` : the starts that can be found are as many as the ships.
* `countBattleships_counted` : the result is the number of those that are counted.
* `countBattleships_fleet_iff` : so it is the number of ships when no start is hidden.
-/
import Pungoo.Battleships
import Mathlib.Algebra.BigOperators.Group.Finset.Piecewise
import Mathlib.Algebra.BigOperators.Group.Finset.Sigma
import Mathlib.Data.Finset.Prod
import Mathlib.Tactic.Choose

namespace Battleships

/-! ## Boards and fleets -/

/-- A board as `countBattleships` expects it. -/
structure Board where
  rows : Grid
  width : ℕ
  ne_nil : rows ≠ []
  rectangular : Rectangular rows width

/-- The cell `k` steps behind row `i` and column `j`. -/
def cellFrom (vertical : Bool) (i j k : ℕ) : ℕ × ℕ :=
  if vertical then (i + k, j) else (i, j + k)

/-- A straight segment of `len` cells that starts at row `i` and column `j`. -/
def segment (vertical : Bool) (i j len : ℕ) : Finset (ℕ × ℕ) :=
  (Finset.range len).image (cellFrom vertical i j)

/-- The cells are orthogonal neighbours. -/
def Adjacent (a b : ℕ × ℕ) : Prop :=
  a.1 = b.1 ∧ (a.2 + 1 = b.2 ∨ b.2 + 1 = a.2) ∨ a.2 = b.2 ∧ (a.1 + 1 = b.1 ∨ b.1 + 1 = a.1)

/-- Ships on a board: straight segments that make up the `x` cells, the cells of different
ships not adjacent. -/
structure Fleet (board : Board) where
  ships : Finset (Finset (ℕ × ℕ))
  straight : ∀ s ∈ ships, ∃ vertical i j len, 1 ≤ len ∧ s = segment vertical i j len
  cover : ∀ i j, XAt board.rows i j ↔ ∃ s ∈ ships, (i, j) ∈ s
  apart : ∀ s ∈ ships, ∀ t ∈ ships, s ≠ t → ∀ a ∈ s, ∀ b ∈ t, ¬ Adjacent a b

/-! ## Segments -/

variable {vertical : Bool} {i j len k : ℕ} {a b : ℕ × ℕ}

/-- The cells of a segment. -/
theorem mem_segment : a ∈ segment vertical i j len ↔ ∃ k < len, a = cellFrom vertical i j k := by
  unfold segment
  rw [Finset.mem_image]
  constructor
  · rintro ⟨k, hk, rfl⟩
    exact ⟨k, Finset.mem_range.mp hk, rfl⟩
  · rintro ⟨k, hk, rfl⟩
    exact ⟨k, Finset.mem_range.mpr hk, rfl⟩

theorem cellFrom_zero : cellFrom vertical i j 0 = (i, j) := by
  cases vertical <;> rfl

/-- A segment that is not empty has its first cell. -/
theorem start_mem_segment (h : 1 ≤ len) : (i, j) ∈ segment vertical i j len :=
  mem_segment.mpr ⟨0, h, cellFrom_zero.symm⟩

theorem Adjacent.symm (h : Adjacent a b) : Adjacent b a := by
  rcases h with ⟨h1, h2⟩ | ⟨h1, h2⟩
  · exact Or.inl ⟨h1.symm, h2.symm⟩
  · exact Or.inr ⟨h1.symm, h2.symm⟩

/-- Cells of a segment one behind the other are adjacent. -/
theorem adjacent_cellFrom (vertical : Bool) (i j k : ℕ) :
    Adjacent (cellFrom vertical i j k) (cellFrom vertical i j (k + 1)) := by
  cases vertical with
  | true => exact Or.inr ⟨rfl, Or.inl rfl⟩
  | false => exact Or.inl ⟨rfl, Or.inl rfl⟩

/-- A cell of a segment is its only one or has a neighbour there. -/
theorem exists_adjacent (ha : a ∈ segment vertical i j len) :
    segment vertical i j len = {a} ∨ ∃ b ∈ segment vertical i j len, Adjacent a b := by
  obtain ⟨k, hk, rfl⟩ := mem_segment.mp ha
  rcases Nat.eq_zero_or_pos k with rfl | hpos
  · rcases Nat.eq_or_lt_of_le hk with rfl | hlt
    · exact Or.inl (Finset.image_singleton _ 0)
    · exact Or.inr ⟨_, mem_segment.mpr ⟨1, hlt, rfl⟩, adjacent_cellFrom vertical i j 0⟩
  · obtain ⟨m, rfl⟩ : ∃ m, k = m + 1 := ⟨k - 1, by omega⟩
    exact Or.inr ⟨_, mem_segment.mpr ⟨m, by omega, rfl⟩, (adjacent_cellFrom vertical i j m).symm⟩

variable {board : Board} (fleet : Fleet board)

/-- Cells that coincide or are adjacent belong to the same ship. -/
theorem same_ship {s t : Finset (ℕ × ℕ)} (hs : s ∈ fleet.ships) (ht : t ∈ fleet.ships)
    (ha : a ∈ s) (hb : b ∈ t) (hab : a = b ∨ Adjacent a b) : s = t := by
  by_contra hne
  rcases hab with rfl | hadj
  · -- a shared cell has a neighbour in one of the ships, or both are that cell
    have hs' : s = {a} := by
      obtain ⟨v, i, j, len, -, hseg⟩ := fleet.straight s hs
      rcases exists_adjacent (hseg ▸ ha) with h | ⟨b, hbs, hadj⟩
      · exact hseg.trans h
      · exact absurd hadj.symm (fleet.apart s hs t ht hne b (hseg ▸ hbs) a hb)
    have ht' : t = {a} := by
      obtain ⟨v, i, j, len, -, hseg⟩ := fleet.straight t ht
      rcases exists_adjacent (hseg ▸ hb) with h | ⟨b, hbt, hadj⟩
      · exact hseg.trans h
      · exact absurd hadj (fleet.apart s hs t ht hne a ha b (hseg ▸ hbt))
    exact hne (hs'.trans ht'.symm)
  · exact fleet.apart s hs t ht hne a ha b hb hadj

/-- An `x` next to a cell of a ship belongs to the ship. -/
theorem mem_of_adjacent {s : Finset (ℕ × ℕ)} (hs : s ∈ fleet.ships) (ha : a ∈ s)
    (hb : XAt board.rows b.1 b.2) (hab : Adjacent a b) : b ∈ s := by
  obtain ⟨t, ht, hbt⟩ := (fleet.cover b.1 b.2).mp hb
  rw [same_ship fleet hs ht ha hbt (Or.inr hab)]
  exact hbt

/-! ## The starts of ships -/

/-- The board behind the row pass. -/
def left (board : Board) : Grid := erase board.rows

/-- The row pass counts a run that starts here. -/
def FoundByRows (board : Board) (i j : ℕ) : Prop := StartsLong (XAt board.rows i) j

/-- The column pass counts a run that starts here. -/
def FoundByColumns (board : Board) (i j : ℕ) : Prop := Starts (ColumnX (left board) j) i

instance (board : Board) (i j : ℕ) : Decidable (FoundByRows board i j) :=
  inferInstanceAs (Decidable (StartsLong _ _))

instance (board : Board) (i j : ℕ) : Decidable (FoundByColumns board i j) :=
  inferInstanceAs (Decidable (Starts _ _))

/-- What the row pass leaves. -/
theorem left_iff : XAt (left board) i j ↔
    XAt board.rows i j ∧ ¬ InLong (XAt board.rows i) j :=
  erase_xAt board.rows i j

theorem FoundByRows.xAt (h : FoundByRows board i j) : XAt board.rows i j := h.1.1

theorem FoundByColumns.xAt (h : FoundByColumns board i j) : XAt board.rows i j :=
  (left_iff.mp h.1).1

/-- A segment does not go up or to the left from its start. -/
theorem le_of_mem_segment (ha : a ∈ segment vertical i j len) : i ≤ a.1 ∧ j ≤ a.2 := by
  obtain ⟨k, -, rfl⟩ := mem_segment.mp ha
  cases vertical with
  | true => exact ⟨Nat.le_add_right i k, le_refl j⟩
  | false => exact ⟨le_refl i, Nat.le_add_right j k⟩

/-- The start of a ship is found by one of the passes. -/
theorem start_found (hs : segment vertical i j len ∈ fleet.ships) (hlen : 1 ≤ len) :
    FoundByRows board i j ∨ FoundByColumns board i j := by
  have hstart : (i, j) ∈ segment vertical i j len := start_mem_segment hlen
  have hx : XAt board.rows i j := (fleet.cover i j).mpr ⟨_, hs, hstart⟩
  have hleft : 0 < j → ¬ XAt board.rows i (j - 1) := by
    intro hj hx'
    have hmem := mem_of_adjacent fleet (b := (i, j - 1)) hs hstart hx'
      (Or.inl ⟨rfl, Or.inr (Nat.sub_add_cancel hj)⟩)
    have hle : j ≤ j - 1 := (le_of_mem_segment hmem).2
    omega
  have habove : 0 < i → ¬ XAt board.rows (i - 1) j := by
    intro hi hx'
    have hmem := mem_of_adjacent fleet (b := (i - 1, j)) hs hstart hx'
      (Or.inr ⟨rfl, Or.inr (Nat.sub_add_cancel hi)⟩)
    have hle : i ≤ i - 1 := (le_of_mem_segment hmem).1
    omega
  by_cases hright : XAt board.rows i (j + 1)
  · exact Or.inl ⟨⟨hx, hleft⟩, hright⟩
  · -- the cell survives the row pass, and the one above is water
    refine Or.inr ⟨left_iff.mpr ⟨hx, ?_⟩, ?_⟩
    · rintro ⟨-, h | h⟩
      · exact hright h
      · exact hleft h.1 h.2
    · intro hi hx'
      exact habove hi (left_iff.mp hx').1

/-- The cells beside a vertical ship are water. -/
theorem not_xAt_beside {s : Finset (ℕ × ℕ)} (hs : s ∈ fleet.ships) {i₀ j₀ j' : ℕ}
    (hseg : s = segment true i₀ j₀ len) (hmem : (i, j) ∈ s) (hside : j + 1 = j' ∨ j' + 1 = j) :
    ¬ XAt board.rows i j' := by
  intro hx
  have hcol : ∀ b ∈ s, b.2 = j₀ := by
    intro b hb
    obtain ⟨k, -, rfl⟩ := mem_segment.mp (hseg ▸ hb)
    rfl
  have hbeside : (i, j') ∈ s := mem_of_adjacent fleet hs hmem hx (Or.inl ⟨rfl, hside⟩)
  have hj : j = j₀ := hcol _ hmem
  have hj' : j' = j₀ := hcol _ hbeside
  omega

/-- A cell of a ship that is found is the start of the ship. -/
theorem found_eq_start {s : Finset (ℕ × ℕ)} (hs : s ∈ fleet.ships) {i₀ j₀ : ℕ}
    (hseg : s = segment vertical i₀ j₀ len) (hmem : (i, j) ∈ s)
    (hfound : FoundByRows board i j ∨ FoundByColumns board i j) : (i, j) = (i₀, j₀) := by
  obtain ⟨k, hk, hcell⟩ := mem_segment.mp (hseg ▸ hmem)
  rcases Nat.eq_zero_or_pos k with rfl | hpos
  · rw [hcell, cellFrom_zero]
  · -- the cell before it in the ship contradicts what the passes look for
    exfalso
    have hprev : cellFrom vertical i₀ j₀ (k - 1) ∈ s :=
      hseg ▸ mem_segment.mpr ⟨k - 1, by omega, rfl⟩
    cases vertical with
    | false =>
      obtain ⟨rfl, rfl⟩ := Prod.mk.inj hcell
      have hleft : (i, j₀ + k - 1) ∈ s := by
        rw [Nat.add_sub_assoc hpos]
        exact hprev
      have hx : XAt board.rows i (j₀ + k - 1) := (fleet.cover _ _).mpr ⟨s, hs, hleft⟩
      have hj : 0 < j₀ + k := by omega
      rcases hfound with h | h
      · exact h.1.2 hj hx
      · exact (left_iff.mp h.1).2 ⟨h.xAt, Or.inr ⟨hj, hx⟩⟩
    | true =>
      obtain ⟨rfl, rfl⟩ := Prod.mk.inj hcell
      have habove : (i₀ + k - 1, j) ∈ s := by
        rw [Nat.add_sub_assoc hpos]
        exact hprev
      have hx : XAt board.rows (i₀ + k - 1) j := (fleet.cover _ _).mpr ⟨s, hs, habove⟩
      have hi : 0 < i₀ + k := by omega
      rcases hfound with h | h
      · exact not_xAt_beside fleet hs hseg hmem (Or.inl rfl) h.2
      · apply h.2 hi
        refine left_iff.mpr ⟨hx, ?_⟩
        rintro ⟨-, hr | ⟨hj, hl⟩⟩
        · exact not_xAt_beside fleet hs hseg habove (Or.inl rfl) hr
        · exact not_xAt_beside fleet hs hseg habove (Or.inr (Nat.sub_add_cancel hj)) hl

/-! ## Counting -/

/-- The cells that are found by one of the passes. -/
def foundCells (board : Board) : Finset (ℕ × ℕ) :=
  (Finset.range board.rows.length ×ˢ Finset.range board.width).filter fun p =>
    FoundByRows board p.1 p.2 ∨ FoundByColumns board p.1 p.2

/-- The starts that one of the passes can find. -/
theorem mem_foundCells : a ∈ foundCells board ↔
    FoundByRows board a.1 a.2 ∨ FoundByColumns board a.1 a.2 := by
  unfold foundCells
  rw [Finset.mem_filter]
  refine ⟨And.right, fun h => ⟨?_, h⟩⟩
  have hx : XAt board.rows a.1 a.2 := h.elim FoundByRows.xAt FoundByColumns.xAt
  rw [Finset.mem_product, Finset.mem_range, Finset.mem_range]
  refine ⟨xAt_lt hx, ?_⟩
  rw [← board.rectangular a.1 (xAt_lt hx)]
  exact isX_lt hx

/-- There are as many ships as cells that are found. -/
theorem card_ships : fleet.ships.card = (foundCells board).card := by
  choose! vertical i j len hlen hseg using fleet.straight
  have hstart : ∀ s ∈ fleet.ships, (i s, j s) ∈ s := by
    intro s hs
    have hmem : (i s, j s) ∈ segment (vertical s) (i s) (j s) (len s) :=
      start_mem_segment (hlen s hs)
    rwa [← hseg s hs] at hmem
  apply Finset.card_nbij fun s => (i s, j s)
  · intro s hs
    apply mem_foundCells.mpr
    exact start_found fleet (hseg s hs ▸ hs) (hlen s hs)
  · intro s hs t ht hst
    have hs' := hstart s hs
    have ht' := hstart t ht
    exact same_ship fleet hs ht hs' ht' (Or.inl hst)
  · intro p hp
    have hfound := mem_foundCells.mp hp
    have hx : XAt board.rows p.1 p.2 := hfound.elim FoundByRows.xAt FoundByColumns.xAt
    obtain ⟨s, hs, hmem⟩ := (fleet.cover p.1 p.2).mp hx
    exact ⟨s, hs, (found_eq_start fleet hs (hseg s hs) hmem hfound).symm⟩

/-- A sum of counts over the rows is a number of cells. -/
theorem sum_count_rows (h w : ℕ) (P : ℕ → ℕ → Prop) [∀ i, DecidablePred (P i)] :
    ∑ i ∈ Finset.range h, Nat.count (P i) w
      = ((Finset.range h ×ˢ Finset.range w).filter fun p => P p.1 p.2).card := by
  rw [Finset.card_filter, Finset.sum_product]
  apply Finset.sum_congr rfl
  intro i _
  rw [Nat.count_eq_card_filter_range, Finset.card_filter]

/-- A sum of counts over the columns is a number of cells. -/
theorem sum_count_columns (h w : ℕ) (P : ℕ → ℕ → Prop) [∀ j, DecidablePred (P j)] :
    ∑ j ∈ Finset.range w, Nat.count (P j) h
      = ((Finset.range h ×ˢ Finset.range w).filter fun p => P p.2 p.1).card := by
  rw [Finset.card_filter, Finset.sum_product_right]
  apply Finset.sum_congr rfl
  intro j _
  rw [Nat.count_eq_card_filter_range, Finset.card_filter]

/-- The starts of the horizontal ships of at least two cells. -/
def rowStarts (board : Board) : Finset (ℕ × ℕ) :=
  (Finset.range board.rows.length ×ˢ Finset.range board.width).filter fun p =>
    FoundByRows board p.1 p.2

/-- The starts of the runs in the columns that the column pass looks at, on what the row pass
leaves. -/
def columnStarts (board : Board) : Finset (ℕ × ℕ) :=
  (Finset.range board.rows.length ×ˢ Finset.range (toInt board.width).toNat).filter fun p =>
    FoundByColumns board p.1 p.2

/-- The row pass counts its starts. -/
theorem rowRuns_eq (board : Board) : rowRuns board.rows = (rowStarts board).card := by
  unfold rowRuns
  refine Eq.trans ?_ (sum_count_rows _ _ fun i => StartsLong (XAt board.rows i))
  apply Finset.sum_congr rfl
  intro i hi
  rw [board.rectangular i (Finset.mem_range.mp hi)]

/-- The column pass counts its starts. -/
theorem columnRuns_eq (board : Board) :
    columnRuns (left board) board.width = (columnStarts board).card := by
  unfold columnRuns left
  rw [length_erase]
  exact sum_count_columns _ _ fun j => Starts (ColumnX (erase board.rows) j)

/-- The row pass erases what it counts. -/
theorem disjoint_starts (board : Board) : Disjoint (rowStarts board) (columnStarts board) := by
  rw [Finset.disjoint_left]
  intro p hrow hcol
  have hfound := (Finset.mem_filter.mp hrow).2
  exact (left_iff.mp (Finset.mem_filter.mp hcol).2.1).2 ⟨hfound.xAt, Or.inl hfound.2⟩

/-- The starts that are counted. -/
def countedCells (board : Board) : Finset (ℕ × ℕ) :=
  (rowStarts board).disjUnion (columnStarts board) (disjoint_starts board)

theorem card_countedCells (board : Board) :
    (countedCells board).card = (rowStarts board).card + (columnStarts board).card :=
  Finset.card_disjUnion _ _ _

/-- The starts that are counted. -/
theorem mem_countedCells : a ∈ countedCells board ↔ FoundByRows board a.1 a.2 ∨
    FoundByColumns board a.1 a.2 ∧ (a.2 : ℤ) < toInt board.width := by
  have hin (hfound : FoundByRows board a.1 a.2 ∨ FoundByColumns board a.1 a.2) :
      a.1 < board.rows.length ∧ a.2 < board.width := by
    have hmem := (Finset.mem_filter.mp (mem_foundCells.mpr hfound)).1
    rwa [Finset.mem_product, Finset.mem_range, Finset.mem_range] at hmem
  unfold countedCells
  rw [Finset.mem_disjUnion, rowStarts, columnStarts, Finset.mem_filter, Finset.mem_filter,
    Finset.mem_product, Finset.mem_product, Finset.mem_range, Finset.mem_range, Finset.mem_range,
    Int.lt_toNat]
  constructor
  · rintro (⟨-, h⟩ | ⟨⟨-, hseen⟩, h⟩)
    · exact Or.inl h
    · exact Or.inr ⟨h, hseen⟩
  · rintro (h | ⟨h, hseen⟩)
    · exact Or.inl ⟨hin (Or.inl h), h⟩
    · exact Or.inr ⟨⟨(hin (Or.inr h)).1, hseen⟩, h⟩

theorem countedCells_subset (board : Board) : countedCells board ⊆ foundCells board := by
  intro p hp
  apply mem_foundCells.mpr
  exact (mem_countedCells.mp hp).imp_right And.left

/-- The result on every board: the starts that are counted, when there are at most `INT_MAX`. -/
theorem countBattleships_counted (board : Board) :
    countBattleships board.rows
      = bounded (countedCells board).card (left board, (countedCells board).card) := by
  rw [card_countedCells, ← rowRuns_eq, ← columnRuns_eq]
  exact countBattleships_eq board.ne_nil board.rectangular

/-- The start of a vertical ship is counted when the column pass sees its column. -/
theorem vertical_counted_iff {s : Finset (ℕ × ℕ)} (hs : s ∈ fleet.ships) (hlen : 1 ≤ len)
    (hseg : s = segment true i j len) :
    (i, j) ∈ countedCells board ↔ (j : ℤ) < toInt board.width := by
  have hstart : (i, j) ∈ s := hseg ▸ start_mem_segment hlen
  have hno : ¬ FoundByRows board i j := fun h =>
    not_xAt_beside fleet hs hseg hstart (Or.inl rfl) h.2
  have hcolumns := (start_found fleet (hseg ▸ hs) hlen).resolve_left hno
  rw [mem_countedCells]
  exact ⟨fun h => (h.resolve_left hno).2, fun h => Or.inr ⟨hcolumns, h⟩⟩

/-- A start that only the column pass can find is that of a vertical ship. -/
theorem vertical_of_columns (h : FoundByColumns board i j) :
    ∃ s ∈ fleet.ships, ∃ len, 1 ≤ len ∧ s = segment true i j len := by
  obtain ⟨s, hs, hmem⟩ := (fleet.cover i j).mp h.xAt
  obtain ⟨vertical, i₀, j₀, len, hlen, hseg⟩ := fleet.straight s hs
  obtain ⟨rfl, rfl⟩ := Prod.mk.inj (found_eq_start fleet hs hseg hmem (Or.inr h))
  refine ⟨s, hs, ?_⟩
  cases vertical with
  | true => exact ⟨len, hlen, hseg⟩
  | false =>
    rcases Nat.eq_or_lt_of_le hlen with rfl | hlong
    · exact ⟨1, hlen, hseg⟩
    · -- the row pass would have erased the cell
      have hnext : (i, j + 1) ∈ s := hseg ▸ mem_segment.mpr ⟨1, hlong, rfl⟩
      have hx : XAt board.rows i (j + 1) := (fleet.cover i (j + 1)).mpr ⟨s, hs, hnext⟩
      exact absurd ⟨h.xAt, Or.inl hx⟩ (left_iff.mp h.1).2

/-- Every start is counted when the column pass sees the columns of the vertical ships. -/
theorem counted_eq_found_iff : countedCells board = foundCells board ↔
    ∀ s ∈ fleet.ships, ∀ i j len, 1 ≤ len → s = segment true i j len →
      (j : ℤ) < toInt board.width := by
  constructor
  · intro heq s hs i j len hlen hseg
    rw [← vertical_counted_iff fleet hs hlen hseg, heq, mem_foundCells]
    exact start_found fleet (hseg ▸ hs) hlen
  · intro hseen
    apply Finset.Subset.antisymm (countedCells_subset board)
    intro p hp
    rcases mem_foundCells.mp hp with h | h
    · exact mem_countedCells.mpr (Or.inl h)
    · obtain ⟨s, hs, len, hlen, hseg⟩ := vertical_of_columns fleet h
      exact (vertical_counted_iff fleet hs hlen hseg).mpr (hseen s hs _ _ len hlen hseg)

/-- On a board of an `int` width the column pass sees every column. -/
theorem sees_of_width (fleet : Fleet board) (hwidth : board.width ≤ intMax) :
    ∀ s ∈ fleet.ships, ∀ i j len, 1 ≤ len → s = segment true i j len →
      (j : ℤ) < toInt board.width := by
  intro s hs i j len hlen hseg
  have hx := (fleet.cover i j).mpr ⟨s, hs, hseg ▸ start_mem_segment hlen⟩
  rw [toInt_of_le hwidth]
  exact Int.ofNat_lt.mpr (Nat.lt_of_lt_of_eq (isX_lt hx) (board.rectangular i (xAt_lt hx)))

/-- Boards and fleets whose sizes are `int`s are counted exactly. -/
theorem countBattleships_of_width (fleet : Fleet board) (hwidth : board.width ≤ intMax)
    (hcard : fleet.ships.card ≤ intMax) :
    ∃ rows, countBattleships board.rows = some (rows, fleet.ships.card) := by
  have hseen := (counted_eq_found_iff fleet).mpr (sees_of_width fleet hwidth)
  rw [countBattleships_counted, hseen, ← card_ships fleet]
  exact ⟨_, bounded_of_le hcard⟩

/-- **When battleships are counted exactly.**  On every rectangular board that is not empty, the
result is the number of ships of any fleet that makes up its `x` cells exactly when that number
is an `int` and every vertical ship, also one of a single cell, is in a column before the
narrowed width. -/
theorem countBattleships_fleet_iff (board : Board) (fleet : Fleet board) :
    (∃ rows, countBattleships board.rows = some (rows, fleet.ships.card)) ↔
      fleet.ships.card ≤ intMax ∧
        ∀ s ∈ fleet.ships, ∀ i j len, 1 ≤ len → s = segment true i j len →
          (j : ℤ) < toInt board.width := by
  rw [countBattleships_counted, ← counted_eq_found_iff, card_ships fleet]
  constructor
  · rintro ⟨rows, hrows⟩
    obtain ⟨hle, heq⟩ := bounded_eq_some_iff.mp hrows
    have hcard := (Prod.mk.inj heq).2
    exact ⟨hcard ▸ hle,
      Finset.eq_of_subset_of_card_le (countedCells_subset board) (le_of_eq hcard.symm)⟩
  · rintro ⟨hle, heq⟩
    rw [heq]
    exact ⟨_, bounded_of_le hle⟩

/-! ### A board that is too wide -/

/-- One row: an `x` and then dots. -/
def wideBoard (dots : ℕ) : Board where
  rows := ['x' :: List.replicate dots '.']
  width := dots + 1
  ne_nil := List.cons_ne_nil _ _
  rectangular := by
    intro i hi
    obtain rfl : i = 0 := Nat.lt_one_iff.mp hi
    exact congrArg Nat.succ List.length_replicate

/-- The wide board has one ship of one cell. -/
theorem wideBoard_xAt {dots : ℕ} : XAt (wideBoard dots).rows i j ↔ i = 0 ∧ j = 0 := by
  cases i with
  | zero =>
    cases j with
    | zero => exact iff_of_true rfl ⟨rfl, rfl⟩
    | succ j =>
      refine iff_of_false ?_ fun h => absurd h.2 (Nat.succ_ne_zero j)
      intro h
      have hdot : (List.replicate dots '.').getD j '.' = 'x' := h
      rw [List.getD_eq_getElem?_getD, List.getElem?_getD_replicate_default_eq] at hdot
      exact absurd hdot (by decide)
  | succ i =>
    refine iff_of_false ?_ fun h => absurd h.1 (Nat.succ_ne_zero i)
    intro h
    exact absurd (xAt_lt h) (Nat.not_lt_of_le (Nat.succ_le_succ (Nat.zero_le i)))

/-- Its only ship. -/
def wideFleet (dots : ℕ) : Fleet (wideBoard dots) where
  ships := {segment true 0 0 1}
  straight := by
    intro s hs
    rw [Finset.mem_singleton] at hs
    exact ⟨true, 0, 0, 1, le_refl 1, hs⟩
  cover := by
    intro i j
    rw [wideBoard_xAt]
    constructor
    · rintro ⟨rfl, rfl⟩
      exact ⟨_, Finset.mem_singleton_self _, start_mem_segment (le_refl 1)⟩
    · rintro ⟨s, hs, hmem⟩
      rw [Finset.mem_singleton.mp hs] at hmem
      obtain ⟨k, hk, hcell⟩ := mem_segment.mp hmem
      obtain ⟨rfl, rfl⟩ := Prod.mk.inj hcell
      omega
  apart := by
    intro s hs t ht hne
    rw [Finset.mem_singleton] at hs ht
    exact absurd (hs.trans ht.symm) hne

/-- In a row of `2 ^ 31` cells the column pass looks at no column, and the ship is missed. -/
theorem countBattleships_wide :
    (∃ rows, countBattleships (wideBoard intMax).rows = some (rows, 0)) ∧
      (wideFleet intMax).ships.card = 1 := by
  have hwidth : toInt (intMax + 1) < 0 := by decide
  have hnone : countedCells (wideBoard intMax) = ∅ := by
    apply Finset.eq_empty_of_forall_notMem
    intro p hp
    rcases mem_countedCells.mp hp with h | ⟨-, h⟩
    · exact absurd (wideBoard_xAt.mp h.2).2 (Nat.succ_ne_zero p.2)
    · exact absurd (lt_trans h hwidth) (not_lt.mpr (Int.natCast_nonneg p.2))
  refine ⟨⟨left (wideBoard intMax), ?_⟩, Finset.card_singleton _⟩
  rw [countBattleships_counted, hnone]
  exact bounded_of_le (Nat.zero_le intMax)

/-! ### The board of `main` -/

instance (a b : ℕ × ℕ) : Decidable (Adjacent a b) := inferInstanceAs (Decidable (_ ∨ _))

/-- The board of `main`. -/
def mainBoard : Board where
  rows := ["x..x".toList, "...x".toList, "...x".toList]
  width := 4
  ne_nil := List.cons_ne_nil _ _
  rectangular := by
    unfold Rectangular
    decide

/-- A ship of one cell and a vertical one of three. -/
def mainFleet : Fleet mainBoard where
  ships := {segment true 0 0 1, segment true 0 3 3}
  straight := by
    intro s hs
    rw [Finset.mem_insert, Finset.mem_singleton] at hs
    rcases hs with rfl | rfl
    · exact ⟨true, 0, 0, 1, le_refl 1, rfl⟩
    · exact ⟨true, 0, 3, 3, by decide, rfl⟩
  cover := by
    intro i j
    have hin : ∀ i < 3, ∀ j < 4, XAt mainBoard.rows i j ↔
        ∃ s ∈ ({segment true 0 0 1, segment true 0 3 3} : Finset (Finset (ℕ × ℕ))),
          (i, j) ∈ s := by decide
    by_cases h : i < 3 ∧ j < 4
    · exact hin i h.1 j h.2
    · refine iff_of_false ?_ ?_
      · intro hx
        have hi : i < 3 := xAt_lt hx
        have hj : j < 4 := Nat.lt_of_lt_of_eq (isX_lt hx) (mainBoard.rectangular i hi)
        exact h ⟨hi, hj⟩
      · rintro ⟨s, hs, hmem⟩
        rw [Finset.mem_insert, Finset.mem_singleton] at hs
        rcases hs with rfl | rfl
        · obtain ⟨k, hk, hcell⟩ := mem_segment.mp hmem
          obtain ⟨rfl, rfl⟩ := Prod.mk.inj hcell
          omega
        · obtain ⟨k, hk, hcell⟩ := mem_segment.mp hmem
          obtain ⟨rfl, rfl⟩ := Prod.mk.inj hcell
          omega
  apart := by decide

/-- The board of `main` has two ships. -/
theorem countBattleships_main : ∃ rows, countBattleships mainBoard.rows = some (rows, 2) := by
  exact (countBattleships_fleet_iff mainBoard mainFleet).mpr
    ⟨by decide, sees_of_width mainFleet (by decide)⟩

end Battleships
