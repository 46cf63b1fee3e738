/-
# The heap sort of `cpp/sort/hsort.cpp`

The array is 0-based, but `heapAjust` computes the children of `pos` as `pos * 2` and
`pos * 2 + 1`.  So the tree it works on is not the usual one: the parent of `k` is
`k / 2`, the root `0` has the one child `1`, and the first child computed for the root is
the root itself.

* `heapAjust_spec` : `heapAjust` sifts down in that tree, and it terminates.
* `heapAjust_restores` : what this means for the subtree and for the rest of the array.
* `sort_ascending` : `sort` sorts every array whose doubled length is an `int`.
-/
import Pungoo.HeapArray

namespace Hsort

open Shuffle IntArray Failing Heap HeapArray

/-! ## The code -/

/-- `temp < arr[i] || temp < arr[j]`. -/
def lessThanAny (arr : List ℤ) (temp i j : ℤ) : Except Fault Bool := do
  let ai ← read arr i
  if temp < ai then
    return true
  else
    let aj ← read arr j
    return decide (temp < aj)

/-- `arr[pos] = arr[i]; arr[i] = temp`. -/
def moveDown (arr : List ℤ) (pos i temp : ℤ) : Except Fault (List ℤ) := do
  let ai ← read arr i
  let arr ← write arr pos ai
  write arr i temp

/-- The loop of `heapAjust`, at its condition. -/
def heapAjustLoop (n : ℤ) : ℕ → List ℤ → ℤ → ℤ → Except Fault (List ℤ)
  | 0, _, _, _ => .error .outOfFuel
  | fuel + 1, arr, pos, i =>
    if i < n then do
      let temp ← read arr pos
      let next ← checked (i + 1)
      if next < n then
        if ← lessThanAny arr temp i next then
          let ai ← read arr i
          let anext ← read arr next
          if ai < anext then
            let arr ← moveDown arr pos next temp
            let i ← checked (next * 2)
            heapAjustLoop n fuel arr next i
          else
            let arr ← moveDown arr pos i temp
            let i' ← checked (i * 2)
            heapAjustLoop n fuel arr i i'
        else
          return arr
      else
        let ai ← read arr i
        if temp < ai then
          let arr ← moveDown arr pos i temp
          let i' ← checked (i * 2)
          heapAjustLoop n fuel arr i i'
        else
          return arr
    else
      return arr

/-- `heapAjust(arr, n, pos)`. -/
def heapAjust (arr : List ℤ) (n pos : ℤ) : Except Fault (List ℤ) :=
  if n ≤ pos then
    return arr
  else do
    let i ← checked (pos * 2)
    heapAjustLoop n (n.toNat + 1) arr pos i

/-- The body of the second loop of `sort`. -/
def takeRoot (i : ℤ) (arr : List ℤ) : Except Fault (List ℤ) := do
  let temp ← read arr 0
  let ai ← read arr i
  let arr ← write arr 0 ai
  let arr ← write arr i temp
  heapAjust arr i 0

/-- `sort(arr, n)`. -/
def sort (arr : List ℤ) (n : ℤ) : Except Fault (List ℤ) := do
  let arr ← forDown (n.tdiv 2) (-1) (fun i arr => heapAjust arr n i) arr
  forDown (n - 1) 0 takeRoot arr

/-! ## The tree -/

/-- The parent of `k` is `k / 2`. -/
def tree : Tree where
  parent k := k / 2
  parent_lt h := Nat.div_lt_self h (by decide)

/-- The children of a node. -/
theorem isChild_iff {c p : ℕ} : tree.IsChild c p ↔ 0 < c ∧ (c = 2 * p ∨ c = 2 * p + 1) := by
  unfold Tree.IsChild
  show 0 < c ∧ c / 2 = p ↔ _
  omega

/-! ## One round -/

variable {arr : List ℤ} {n pos i j : ℕ}

/-- The comparison with both children. -/
theorem lessThanAny_eq (temp : ℤ) (hi : i < arr.length) (hj : j < arr.length) :
    lessThanAny arr temp i j = .ok (decide (temp < cell arr i ∨ temp < cell arr j)) := by
  unfold lessThanAny
  rw [read_eq hi, ok_bind, read_eq hj]
  by_cases h : temp < cell arr i
  · rw [if_pos h, decide_eq_true (Or.inl h)]
    rfl
  · rw [if_neg h, ok_bind]
    show Except.ok _ = Except.ok _
    congr 1
    simp [h]

/-- A value moves down by an exchange. -/
theorem moveDown_eq (hpos : pos < arr.length) (hi : i < arr.length) :
    moveDown arr pos i (cell arr pos) = .ok (exchange arr pos i) := by
  unfold moveDown
  rw [read_eq hi, ok_bind, write_eq hpos, ok_bind, write_eq (by rw [List.length_set]; exact hi)]
  rfl

/-- A node without children. -/
theorem heapAjustLoop_none (fuel : ℕ) (hi : n ≤ i) :
    heapAjustLoop n (fuel + 1) arr pos i = .ok arr := by
  rw [heapAjustLoop, if_neg (by omega)]
  rfl

/-- The index arithmetic of a round stays within `int`. -/
theorem checked_next (hi : i < n) (hmax : (n : ℤ) ≤ intMax) :
    checked ((i : ℤ) + 1) = .ok ((i + 1 : ℕ) : ℤ) := by
  rw [checked_nonneg (by omega) (by omega)]
  rfl

theorem checked_child (hmax : 2 * (i : ℤ) ≤ intMax) :
    checked ((i : ℤ) * 2) = .ok ((2 * i : ℕ) : ℤ) := by
  rw [checked_nonneg (by omega) (by omega)]
  congr 1
  omega

/-- A node with one child. -/
theorem heapAjustLoop_one (fuel : ℕ) (hpos : pos < n) (hn : n ≤ arr.length)
    (hint : (n : ℤ) ≤ intMax) (hi : i + 1 = n) :
    heapAjustLoop n (fuel + 1) arr pos i =
      if cell arr pos < cell arr i then do
        let next ← checked ((i : ℤ) * 2)
        heapAjustLoop n fuel (exchange arr pos i) i next
      else .ok arr := by
  rw [heapAjustLoop, if_pos (by omega), read_eq (by omega), ok_bind,
    checked_next (n := n) (by omega) hint, ok_bind, if_neg (by omega), read_eq (by omega), ok_bind]
  by_cases h : cell arr pos < cell arr i
  · rw [if_pos h, if_pos h, moveDown_eq (by omega) (by omega), ok_bind]
  · rw [if_neg h, if_neg h]
    rfl

/-- A node with two children. -/
theorem heapAjustLoop_two (fuel : ℕ) (hpos : pos < n) (hn : n ≤ arr.length)
    (hint : (n : ℤ) ≤ intMax) (hi : i + 1 < n) :
    heapAjustLoop n (fuel + 1) arr pos i =
      if cell arr pos < cell arr i ∨ cell arr pos < cell arr (i + 1) then
        if cell arr i < cell arr (i + 1) then do
          let next ← checked (((i + 1 : ℕ) : ℤ) * 2)
          heapAjustLoop n fuel (exchange arr pos (i + 1)) (i + 1 : ℕ) next
        else do
          let next ← checked ((i : ℤ) * 2)
          heapAjustLoop n fuel (exchange arr pos i) i next
      else .ok arr := by
  rw [heapAjustLoop, if_pos (by omega), read_eq (by omega), ok_bind,
    checked_next (n := n) (by omega) hint, ok_bind, if_pos (by omega),
    lessThanAny_eq _ (by omega) (by omega), ok_bind]
  by_cases h : cell arr pos < cell arr i ∨ cell arr pos < cell arr (i + 1)
  · rw [decide_eq_true h, if_pos rfl, if_pos h, read_eq (by omega), ok_bind, read_eq (by omega),
      ok_bind]
    by_cases h' : cell arr i < cell arr (i + 1)
    · rw [if_pos h', if_pos h', moveDown_eq (by omega) (by omega), ok_bind]
    · rw [if_neg h', if_neg h', moveDown_eq (by omega) (by omega), ok_bind]
  · rw [decide_eq_false h, if_neg (by decide), if_neg h]
    rfl

/-- The loop goes on at a child whose own children have indices. -/
theorem heapAjustLoop_at (fuel : ℕ) (hmax : 2 * (i : ℤ) ≤ intMax) :
    (checked ((i : ℤ) * 2) >>= fun next => heapAjustLoop n fuel arr i next)
      = heapAjustLoop n fuel arr i ((2 * i : ℕ) : ℤ) := by
  rw [checked_child hmax, ok_bind]

/-- What holds of the two positions below `pos` holds of its children. -/
theorem forall_child {P : ℕ → Prop} (hleft : P (2 * pos))
    (hright : 2 * pos + 1 < n → P (2 * pos + 1)) : ∀ s, tree.IsChild s pos → s < n → P s := by
  intro s hs hsn
  rcases (isChild_iff.mp hs).2 with rfl | rfl
  · exact hleft
  · exact hright hsn

/-- A larger value at the first position belongs to a child, not to the root itself. -/
theorem left_isChild (h : cell arr pos < cell arr (2 * pos)) : tree.IsChild (2 * pos) pos := by
  have hne : 2 * pos ≠ pos := by
    intro heq
    rw [heq] at h
    exact lt_irrefl _ h
  exact isChild_iff.mpr (by omega)

/-- A round of the loop sifts down in the tree.  At the root the first computed child is
the root itself; it is never the larger one, as the comparisons are strict. -/
theorem heapAjustLoop_rounds (hmax : 2 * ((n : ℤ) - 1) ≤ intMax) :
    Rounds tree (· ≥ ·) n
      (fun fuel arr pos => heapAjustLoop n fuel arr pos ((2 * pos : ℕ) : ℤ)) := by
  intro fuel arr pos hpos hn
  have hint : (n : ℤ) ≤ intMax := by
    unfold intMax at hmax ⊢
    omega
  have hat : ∀ c a, c < n → (checked ((c : ℤ) * 2) >>= fun next => heapAjustLoop n fuel a c next)
      = heapAjustLoop n fuel a c ((2 * c : ℕ) : ℤ) :=
    fun c a hc => heapAjustLoop_at fuel (by omega)
  dsimp only
  rcases Nat.lt_trichotomy (2 * pos + 1) n with h2 | h2 | h2
  · rw [heapAjustLoop_two fuel hpos hn hint h2]
    split_ifs with h h'
    · have hgt : cell arr pos ≤ cell arr (2 * pos + 1) := by omega
      refine Or.inr ⟨2 * pos + 1, isChild_iff.mpr (by omega), h2, hgt, ?_, hat _ _ h2⟩
      exact forall_child (le_of_lt h') fun _ => le_refl _
    · have hgt : cell arr pos < cell arr (2 * pos) := by omega
      refine Or.inr ⟨2 * pos, left_isChild hgt, by omega, le_of_lt hgt, ?_, hat _ _ (by omega)⟩
      exact forall_child (le_refl _) fun _ => not_lt.mp h'
    · obtain ⟨hleft, hright⟩ := not_or.mp h
      refine Or.inl ⟨rfl, ?_⟩
      exact forall_child (not_lt.mp hleft) fun _ => not_lt.mp hright
  · rw [heapAjustLoop_one fuel hpos hn hint h2]
    split_ifs with h
    · refine Or.inr ⟨2 * pos, left_isChild h, by omega, le_of_lt h, ?_, hat _ _ (by omega)⟩
      exact forall_child (le_refl _) fun hright => absurd hright (by omega)
    · refine Or.inl ⟨rfl, ?_⟩
      exact forall_child (not_lt.mp h) fun hright => absurd hright (by omega)
  · have hnone : n ≤ 2 * pos := by omega
    rw [heapAjustLoop_none fuel hnone]
    refine Or.inl ⟨rfl, ?_⟩
    intro s hs hsn
    have hchild := (isChild_iff.mp hs).2
    omega

/-! ## The two phases -/

/-- **`heapAjust`** terminates and sifts down from `pos`. -/
theorem heapAjust_spec (hmax : 2 * ((n : ℤ) - 1) ≤ intMax) (hpos : pos < n) (hn : n ≤ arr.length) :
    ∃ arr', heapAjust arr n pos = .ok arr' ∧ Sifted tree (· ≥ ·) n pos arr arr' := by
  unfold heapAjust
  rw [if_neg (by omega), checked_child (by omega), ok_bind, Int.toNat_natCast]
  exact sifted_of_rounds (heapAjustLoop_rounds hmax) (n + 1) (by omega) hpos hn

/-- **`heapAjust` restores a heap.**  It terminates for every `pos`, the root included.  The
subtree of `pos` is rearranged, the rest of the array is as before, and when only `pos` was out
of order in its subtree, the subtree is ordered. -/
theorem heapAjust_restores (arr : List ℤ) (n pos : ℕ) (hmax : 2 * (n : ℤ) ≤ intMax)
    (hpos : pos < n) (hn : n ≤ arr.length) :
    ∃ arr', heapAjust arr n pos = .ok arr' ∧ arr'.length = arr.length ∧
      Shuffled (tree.subtree pos ∩ {k | k < n}) (cell arr) (cell arr') ∧
      (∀ k, k ∉ tree.subtree pos ∨ n ≤ k → cell arr' k = cell arr k) ∧
      (Ordered tree (· ≥ ·) n (cell arr) (tree.subtree pos \ {pos}) →
        Ordered tree (· ≥ ·) n (cell arr') (tree.subtree pos)) := by
  obtain ⟨arr', hrun, h⟩ := heapAjust_spec (by omega) hpos hn
  exact ⟨arr', hrun, h.length_eq, h.shuffled, fun _ => h.cell_eq, h.ordered⟩

/-- At the root, whose first computed child is the root itself. -/
theorem heapAjust_root :
    ∃ arr', heapAjust [0, 5, 3, 7] 3 0 = .ok arr' ∧ cell arr' 3 = 7 ∧
      Ordered tree (· ≥ ·) 3 (cell arr') (tree.subtree 0) := by
  obtain ⟨arr', hrun, -, -, hframe, hord⟩ :=
    heapAjust_restores [0, 5, 3, 7] 3 0 (by decide) (by decide) (by decide)
  refine ⟨arr', hrun, hframe 3 (Or.inr (le_refl 3)), hord ?_⟩
  rintro c p hc hn ⟨-, hp⟩
  rw [Set.mem_singleton_iff] at hp
  obtain ⟨rfl, rfl⟩ : c = 2 ∧ p = 1 := by
    have hchild := isChild_iff.mp hc
    omega
  decide

/-- The first loop of `sort` builds a heap. -/
theorem build_spec (arr : List ℤ) (hmax : 2 * ((arr.length : ℤ) - 1) ≤ intMax) :
    ∃ a, forDown ((arr.length : ℤ).tdiv 2) (-1) (fun i a => heapAjust a arr.length i) arr
        = .ok a ∧ Emptying tree (· ≥ ·) arr arr.length a := by
  have hhalf : (arr.length : ℤ).tdiv 2 = ((arr.length / 2 : ℕ) : ℤ) :=
    Int.tdiv_eq_ediv_of_nonneg (by omega)
  have hbody : ∀ i a, -1 < i → i ≤ (arr.length : ℤ).tdiv 2 →
      Building tree (· ≥ ·) arr i a →
      ∃ a', heapAjust a arr.length i = .ok a' ∧ Building tree (· ≥ ·) arr (i - 1) a' := by
    intro i a hi0 hi h
    rw [hhalf] at hi
    obtain ⟨p, rfl⟩ := Int.eq_ofNat_of_zero_le (show 0 ≤ i by omega)
    have hlen := h.length_eq
    rcases Nat.lt_or_ge p arr.length with hp | hp
    · obtain ⟨a', hrun, hs⟩ := heapAjust_spec hmax hp (Nat.le_of_eq hlen.symm)
      exact ⟨a', hrun, h.sift hs⟩
    · -- the array is empty, and the call for `0` returns at once
      have hrun : heapAjust a arr.length p = .ok a := if_pos (Int.ofNat_le.mpr hp)
      refine ⟨a, hrun, h.toRearranged, ?_⟩
      intro c k _ hc
      omega
  have hstart : Building tree (· ≥ ·) arr ((arr.length : ℤ).tdiv 2) arr := by
    rw [hhalf]
    apply building_start
    intro c p hc hn
    have hchild := (isChild_iff.mp hc).2
    omega
  obtain ⟨a, hrun, i, hi, h⟩ := forDown_rule hbody hstart
  exact ⟨a, hrun, h.emptying (by omega)⟩

/-- The largest value goes behind the heap, and the heap is restored. -/
theorem takeRoot_spec {a : List ℤ} (hmax : 2 * ((arr.length : ℤ) - 1) ≤ intMax) {m : ℕ}
    (hm0 : 0 < m) (hm : m < arr.length) (h : Emptying tree (· ≥ ·) arr (m + 1) a) :
    ∃ a', takeRoot m a = .ok a' ∧ Emptying tree (· ≥ ·) arr m a' := by
  have hlen := h.length_eq
  have hrun : takeRoot m a = heapAjust (exchange a 0 m) m 0 := by
    unfold takeRoot
    have h0 : read a 0 = .ok (cell a 0) := read_eq (k := 0) (by omega)
    have hw : write a 0 (cell a m) = .ok (a.set 0 (cell a m)) := write_eq (k := 0) (by omega)
    rw [h0, ok_bind, read_eq (by omega), ok_bind, hw, ok_bind,
      write_eq (by rw [List.length_set]; omega), ok_bind]
    rfl
  have hle : m ≤ (exchange a 0 m).length := by
    rw [length_exchange]
    omega
  obtain ⟨a', hadj, hs⟩ := heapAjust_spec (by omega) hm0 hle
  exact ⟨a', hrun.trans hadj, h.sift hm hs⟩

/-- The indices are `int`s as long as the doubled last index is. -/
theorem sort_spec (arr : List ℤ) (hmax : 2 * ((arr.length : ℤ) - 1) ≤ intMax) :
    ∃ arr', sort arr arr.length = .ok arr' ∧ arr'.Pairwise (· ≤ ·) ∧ arr'.Perm arr := by
  obtain ⟨a, hbuild, h⟩ := build_spec arr hmax
  have hbody : ∀ i a, 0 < i → i ≤ (arr.length : ℤ) - 1 →
      Emptying tree (· ≥ ·) arr (i + 1).toNat a →
      ∃ a', takeRoot i a = .ok a' ∧ Emptying tree (· ≥ ·) arr (i - 1 + 1).toNat a' := by
    intro i a hi0 hi h
    obtain ⟨m, rfl⟩ := Int.eq_ofNat_of_zero_le (show 0 ≤ i by omega)
    rw [show ((m : ℤ) - 1 + 1).toNat = m by omega]
    exact takeRoot_spec hmax (by omega) (by omega) h
  have hstart : Emptying tree (· ≥ ·) arr ((arr.length : ℤ) - 1 + 1).toNat a := by
    rw [show ((arr.length : ℤ) - 1 + 1).toNat = arr.length by omega]
    exact h
  obtain ⟨arr', hrun, i, hi, h'⟩ := forDown_rule hbody hstart
  refine ⟨arr', ?_, h'.sorted (by omega)⟩
  unfold sort
  rw [hbuild, ok_bind, hrun]

/-- **`sort` sorts.**  For every array whose doubled length is an `int`, the run ends
without a fault, and the result is the array in ascending order. -/
theorem sort_ascending (arr : List ℤ) (hmax : 2 * (arr.length : ℤ) ≤ intMax) :
    ∃ arr', sort arr arr.length = .ok arr' ∧ arr'.Pairwise (· ≤ ·) ∧ arr'.Perm arr :=
  sort_spec arr (by omega)

/-- The third array of `main`. -/
theorem sort_main :
    ∃ arr', sort [1, 9, 2, 7, 3, 7, 4, 6, 0, 5] 10 = .ok arr' ∧ arr'.Pairwise (· ≤ ·) ∧
      arr'.Perm [1, 9, 2, 7, 3, 7, 4, 6, 0, 5] :=
  sort_ascending [1, 9, 2, 7, 3, 7, 4, 6, 0, 5] (by decide)

end Hsort
