/-
# The pointers of `partition`

`partition` as a machine whose steps are the single moves of its pointers.  A move keeps
`l <= i <= j <= r`, because every loop asks for `i < j` first, so the pointers are equal when
they are not `i < j`, and the branch that prints `how ?` is never taken.

* `partition_returns` : the machine stops with what `partition` returns;
* `partition_checked` : no `int` operation overflows;
* `partition_postcondition` : the pointers on the way and the array at the end.
-/
import Pungoo.Machine
import Pungoo.Quicksort

namespace Quicksort

open Shuffle IntArray Failing Machine

/-! ## The steps -/

/-- The points of control of `partition`: the condition of the outer loop, those of the two
inner loops, and the tests behind them. -/
inductive Point
  | outer
  | lower
  | raise
  | meet
  deriving DecidableEq, Repr

/-- A state of a run of `partition`. -/
structure Config extends State where
  point : Point

/-- The tests behind the two inner loops. -/
def meet (number : ℤ) (s : State) : Except Fault State :=
  if s.i < s.j then do
    let temp ← read s.arr s.i
    let aj ← read s.arr s.j
    let arr ← write s.arr s.i aj
    let arr ← write arr s.j temp
    return { s with arr := arr }
  else if s.i = s.j then
    if s.i ≠ s.pivot then do
      let ai ← read s.arr s.i
      let arr ← write s.arr s.pivot ai
      let arr ← write arr s.i number
      return { s with arr := arr, pivot := s.i }
    else
      return s
  else
    return { s with how := s.how + 1 }

/-- One step of `partition`. -/
def tick (number : ℤ) (c : Config) : Config ⊕ Except Fault State :=
  ofExcept <|
    match c.point with
    | .outer =>
      if c.i < c.j then
        return .inl { c with point := .lower }
      else
        return .inr c.toState
    | .lower =>
      if c.i < c.j then do
        let aj ← read c.arr c.j
        if aj > number then
          return .inl { c with j := c.j - 1 }
        else
          return .inl { c with point := .raise }
      else
        return .inl { c with point := .raise }
    | .raise =>
      if c.i < c.j then do
        let ai ← read c.arr c.i
        if ai ≤ number then
          return .inl { c with i := c.i + 1 }
        else
          return .inl { c with point := .meet }
      else
        return .inl { c with point := .meet }
    | .meet => do
      let s ← meet number c.toState
      return .inl ⟨s, .outer⟩

/-- The start of a run: `pivot` and `i` at `l`, `j` at `r`. -/
def entry (arr : List ℤ) (l r : ℤ) : Config := ⟨⟨arr, l, r, l, 0⟩, .outer⟩

/-! ## The steps at each point -/

variable {arr : List ℤ} {number i j i' j' pivot : ℤ} {how : ℕ} {s s' : State}

theorem tick_outer (number : ℤ) (s : State) :
    tick number ⟨s, .outer⟩ = if s.i < s.j then .inl ⟨s, .lower⟩ else .inr (.ok s) := by
  unfold tick
  dsimp only
  split_ifs <;> rfl

/-- The scan from the right takes one step. -/
theorem tick_lower (number : ℤ) {aj : ℤ} (hlt : s.i < s.j) (hread : read s.arr s.j = .ok aj) :
    tick number ⟨s, .lower⟩
      = if aj > number then .inl ⟨{ s with j := s.j - 1 }, .lower⟩ else .inl ⟨s, .raise⟩ := by
  unfold tick
  dsimp only
  rw [if_pos hlt, hread, ok_bind]
  split_ifs <;> rfl

/-- The scan from the right ends where the pointers meet. -/
theorem tick_lower_met (hge : ¬ s.i < s.j) : tick number ⟨s, .lower⟩ = .inl ⟨s, .raise⟩ := by
  unfold tick
  dsimp only
  rw [if_neg hge]
  rfl

/-- The scan from the left takes one step. -/
theorem tick_raise (number : ℤ) {ai : ℤ} (hlt : s.i < s.j) (hread : read s.arr s.i = .ok ai) :
    tick number ⟨s, .raise⟩
      = if ai ≤ number then .inl ⟨{ s with i := s.i + 1 }, .raise⟩ else .inl ⟨s, .meet⟩ := by
  unfold tick
  dsimp only
  rw [if_pos hlt, hread, ok_bind]
  split_ifs <;> rfl

/-- The scan from the left ends where the pointers meet. -/
theorem tick_raise_met (hge : ¬ s.i < s.j) : tick number ⟨s, .raise⟩ = .inl ⟨s, .meet⟩ := by
  unfold tick
  dsimp only
  rw [if_neg hge]
  rfl

theorem tick_meet (hmeet : meet number s = .ok s') :
    tick number ⟨s, .meet⟩ = .inl ⟨s', .outer⟩ := by
  unfold tick
  dsimp only
  rw [hmeet, ok_bind]
  rfl

/-! ## The function and the machine -/

/-- The first inner loop moves `j`. -/
theorem lowerJ_visits (fuel : ℕ) (h : lowerJ arr number i fuel j = .ok j') :
    Visits (tick number) ⟨⟨arr, i, j, pivot, how⟩, .lower⟩ ⟨⟨arr, i, j', pivot, how⟩, .raise⟩ := by
  induction fuel generalizing j with
  | zero => exact absurd h (by simp [lowerJ])
  | succ fuel ih =>
    rw [lowerJ] at h
    by_cases hij : i < j
    · rw [if_pos hij] at h
      obtain ⟨aj, hread, h⟩ := bind_eq_ok_iff.mp h
      have htick := tick_lower number (s := ⟨arr, i, j, pivot, how⟩) hij hread
      by_cases haj : aj > number
      · rw [if_pos haj] at h htick
        exact (visits_of_goes htick).trans (ih h)
      · rw [if_neg haj] at h htick
        obtain rfl := Except.ok.inj h
        exact visits_of_goes htick
    · rw [if_neg hij] at h
      obtain rfl := Except.ok.inj h
      exact visits_of_goes (tick_lower_met hij)

/-- The second inner loop moves `i`. -/
theorem raiseI_visits (fuel : ℕ) (h : raiseI arr number j fuel i = .ok i') :
    Visits (tick number) ⟨⟨arr, i, j, pivot, how⟩, .raise⟩ ⟨⟨arr, i', j, pivot, how⟩, .meet⟩ := by
  induction fuel generalizing i with
  | zero => exact absurd h (by simp [raiseI])
  | succ fuel ih =>
    rw [raiseI] at h
    by_cases hij : i < j
    · rw [if_pos hij] at h
      obtain ⟨ai, hread, h⟩ := bind_eq_ok_iff.mp h
      have htick := tick_raise number (s := ⟨arr, i, j, pivot, how⟩) hij hread
      by_cases hai : ai ≤ number
      · rw [if_pos hai] at h htick
        exact (visits_of_goes htick).trans (ih h)
      · rw [if_neg hai] at h htick
        obtain rfl := Except.ok.inj h
        exact visits_of_goes htick
    · rw [if_neg hij] at h
      obtain rfl := Except.ok.inj h
      exact visits_of_goes (tick_raise_met hij)

/-- A pass is the two inner loops and the tests behind them. -/
theorem pass_eq (number : ℤ) (s : State) :
    pass number s = (do
      let j ← lowerJ s.arr number s.i ((s.j - s.i).toNat + 1) s.j
      let i ← raiseI s.arr number j ((j - s.i).toNat + 1) s.i
      meet number { s with i := i, j := j }) := rfl

/-- A pass of the outer loop is a run of ticks. -/
theorem pass_visits (h : pass number s = .ok s') :
    Visits (tick number) ⟨s, .lower⟩ ⟨s', .outer⟩ := by
  rw [pass_eq] at h
  obtain ⟨j, hlower, h⟩ := bind_eq_ok_iff.mp h
  obtain ⟨i, hraise, hmeet⟩ := bind_eq_ok_iff.mp h
  exact ((lowerJ_visits _ hlower).trans (raiseI_visits _ hraise)).trans
    (visits_of_goes (tick_meet hmeet))

/-- The outer loop is a run of ticks. -/
theorem partitionLoop_returns (fuel : ℕ) (h : partitionLoop number fuel s = .ok s') :
    Returns (tick number) ⟨s, .outer⟩ (.ok s') := by
  induction fuel generalizing s with
  | zero => exact absurd h (by simp [partitionLoop])
  | succ fuel ih =>
    rw [partitionLoop] at h
    have htick := tick_outer number s
    by_cases hij : s.i < s.j
    · rw [if_pos hij] at h htick
      obtain ⟨t, hpass, h⟩ := bind_eq_ok_iff.mp h
      exact returns_of_goes htick ((pass_visits hpass).returns (ih h))
    · rw [if_neg hij] at h htick
      obtain rfl := Except.ok.inj h
      exact returns_of_stop htick

/-- **The machine stops with what `partition` returns.** -/
theorem partition_returns {l r : ℤ} (hread : read arr l = .ok number)
    (h : partition arr l r = .ok s) : Returns (tick number) (entry arr l r) (.ok s) := by
  unfold partition at h
  rw [hread, ok_bind] at h
  exact partitionLoop_returns _ h

/-! ## The pointers -/

/-- The pointers are in the range and have not crossed. -/
structure Pointers (l r : ℤ) (s : State) : Prop where
  l_le : l ≤ s.i
  i_le : s.i ≤ s.j
  j_le : s.j ≤ r
  how_eq : s.how = 0

variable {l r : ℤ} {c d : Config}

/-- An exchange keeps the pointers. -/
theorem meet_pointers (h : Pointers l r s) (hmeet : meet number s = .ok s') :
    Pointers l r s' := by
  unfold meet at hmeet
  have hle := h.i_le
  split_ifs at hmeet with hlt heq hne
  · obtain ⟨temp, -, hmeet⟩ := bind_eq_ok_iff.mp hmeet
    obtain ⟨aj, -, hmeet⟩ := bind_eq_ok_iff.mp hmeet
    obtain ⟨arr₁, -, hmeet⟩ := bind_eq_ok_iff.mp hmeet
    obtain ⟨arr₂, -, hmeet⟩ := bind_eq_ok_iff.mp hmeet
    obtain rfl := Except.ok.inj hmeet
    exact ⟨h.l_le, h.i_le, h.j_le, h.how_eq⟩
  · obtain ⟨ai, -, hmeet⟩ := bind_eq_ok_iff.mp hmeet
    obtain ⟨arr₁, -, hmeet⟩ := bind_eq_ok_iff.mp hmeet
    obtain ⟨arr₂, -, hmeet⟩ := bind_eq_ok_iff.mp hmeet
    obtain rfl := Except.ok.inj hmeet
    exact ⟨h.l_le, h.i_le, h.j_le, h.how_eq⟩
  · obtain rfl := Except.ok.inj hmeet
    exact h
  · omega

/-- **A move keeps the pointers in order**: it is made after a test of `i < j`. -/
theorem tick_pointers (h : Pointers l r c.toState) (hgoes : tick number c = .inl d) :
    Pointers l r d.toState := by
  obtain ⟨s, point⟩ := c
  obtain ⟨hl, hij, hr, hhow⟩ := h
  rw [tick, ofExcept_eq_inl_iff] at hgoes
  cases point with
  | outer =>
    dsimp only at hgoes
    split_ifs at hgoes
    · obtain rfl := Sum.inl.inj (Except.ok.inj hgoes)
      exact ⟨hl, hij, hr, hhow⟩
    · exact absurd (Except.ok.inj hgoes) Sum.inr_ne_inl
  | lower =>
    dsimp only at hgoes hl hij hr
    split_ifs at hgoes with hlt
    · obtain ⟨aj, -, hgoes⟩ := bind_eq_ok_iff.mp hgoes
      split_ifs at hgoes
      · obtain rfl := Sum.inl.inj (Except.ok.inj hgoes)
        exact ⟨hl, by dsimp only; omega, by dsimp only; omega, hhow⟩
      · obtain rfl := Sum.inl.inj (Except.ok.inj hgoes)
        exact ⟨hl, hij, hr, hhow⟩
    · obtain rfl := Sum.inl.inj (Except.ok.inj hgoes)
      exact ⟨hl, hij, hr, hhow⟩
  | raise =>
    dsimp only at hgoes hl hij hr
    split_ifs at hgoes with hlt
    · obtain ⟨ai, -, hgoes⟩ := bind_eq_ok_iff.mp hgoes
      split_ifs at hgoes
      · obtain rfl := Sum.inl.inj (Except.ok.inj hgoes)
        exact ⟨by dsimp only; omega, by dsimp only; omega, hr, hhow⟩
      · obtain rfl := Sum.inl.inj (Except.ok.inj hgoes)
        exact ⟨hl, hij, hr, hhow⟩
    · obtain rfl := Sum.inl.inj (Except.ok.inj hgoes)
      exact ⟨hl, hij, hr, hhow⟩
  | meet =>
    obtain ⟨s', hmeet, hgoes⟩ := bind_eq_ok_iff.mp hgoes
    obtain rfl := Sum.inl.inj (Except.ok.inj hgoes)
    exact meet_pointers ⟨hl, hij, hr, hhow⟩ hmeet

/-- In every state of a run the pointers are in order. -/
theorem pointers_of_visits (hl : l ≤ r) (h : Visits (tick number) (entry arr l r) c) :
    Pointers l r c.toState := by
  apply h.invariant (I := fun c => Pointers l r c.toState)
  · exact fun _ _ => tick_pointers
  · exact ⟨le_refl l, hl, le_refl r, rfl⟩

/-- The `int`s that are computed stay in range: `--j` and `++i` come behind a test of `i < j`, and
`sort` computes `pivot - 1` and `pivot + 1` for a pivot in the range. -/
theorem partition_checked {l r : ℕ} (hl : l < r) (hr : r < arr.length)
    (hmax : (arr.length : ℤ) ≤ intMax) :
    (∀ c, Visits (tick number) (entry arr l r) c → c.i < c.j →
      checked (c.j - 1) = .ok (c.j - 1) ∧ checked (c.i + 1) = .ok (c.i + 1)) ∧
    ∃ s, partition arr l r = .ok s ∧
      checked (s.pivot - 1) = .ok (s.pivot - 1) ∧ checked (s.pivot + 1) = .ok (s.pivot + 1) := by
  have hmin : intMin ≤ -1 := by decide
  constructor
  · intro c hc hlt
    have h := pointers_of_visits (by omega) hc
    have hi := h.l_le
    have hj := h.j_le
    exact ⟨if_pos (by omega), if_pos (by omega)⟩
  · obtain ⟨arr', p, hrun, h⟩ := partition_spec hl hr
    have hp := h.p_le
    exact ⟨_, hrun, if_pos (by dsimp only; omega), if_pos (by dsimp only; omega)⟩

/-- **Partition.**  For two indices `l < r` of an array, `partition` stops with the range
split around the old `arr[l]`, at the returned index `p`; the range is rearranged and the rest
of the array is as before.  In every state of the run `l <= i <= j <= r`, and nothing is
printed. -/
theorem partition_postcondition (arr : List ℤ) (l r : ℕ) (hl : l < r) (hr : r < arr.length) :
    (∃ s p, partition arr l r = .ok s ∧
      Returns (tick (cell arr l)) (entry arr l r) (.ok s) ∧ s.pivot = (p : ℕ) ∧ s.how = 0 ∧
      l ≤ p ∧ p ≤ r ∧ s.arr.length = arr.length ∧
      Shuffled {k | l ≤ k ∧ k ≤ r} (cell arr) (cell s.arr) ∧
      (∀ k, ¬ (l ≤ k ∧ k ≤ r) → cell s.arr k = cell arr k) ∧ cell s.arr p = cell arr l ∧
      (∀ k, l ≤ k → k < p → cell s.arr k ≤ cell s.arr p) ∧
      ∀ k, p < k → k ≤ r → cell s.arr p < cell s.arr k) ∧
    ∀ c, Visits (tick (cell arr l)) (entry arr l r) c →
      (l : ℤ) ≤ c.i ∧ c.i ≤ c.j ∧ c.j ≤ r ∧ c.how = 0 := by
  constructor
  · obtain ⟨arr', p, hrun, h⟩ := partition_spec hl hr
    have hret := partition_returns (read_eq (by omega)) hrun
    exact ⟨_, p, hrun, hret, rfl, rfl, h.l_le, h.p_le, h.length_eq, h.shuffled,
      fun k hk => h.shuffled.eq_of_notMem hk, h.cell_p, h.small, h.large⟩
  · intro c hc
    have h := pointers_of_visits (by omega) hc
    exact ⟨h.l_le, h.i_le, h.j_le, h.how_eq⟩

/-- The third array of `main`, as a whole. -/
theorem partition_main :
    ∃ s p, partition [1, 9, 2, 8, 3, 7, 4, 6, 0, 5] 0 9 = .ok s ∧ s.pivot = (p : ℕ) ∧ s.how = 0 ∧
      cell s.arr p = 1 ∧ (∀ k, 0 ≤ k → k < p → cell s.arr k ≤ cell s.arr p) ∧
      ∀ k, p < k → k ≤ 9 → cell s.arr p < cell s.arr k := by
  obtain ⟨s, p, hrun, -, hp, hhow, -, -, -, -, -, hpivot, hsmall, hlarge⟩ :=
    (partition_postcondition [1, 9, 2, 8, 3, 7, 4, 6, 0, 5] 0 9 (by decide) (by decide)).1
  exact ⟨s, p, hrun, hp, hhow, hpivot, hsmall, hlarge⟩

end Quicksort
