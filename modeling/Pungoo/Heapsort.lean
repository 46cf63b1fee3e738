/-
# The heap sort of `cpp/sort/heapsort.cpp`

A heap with the smallest element at its root, in the usual tree: the children of `i` are
`2 * i + 1` and `2 * i + 2`.  Taking the root away again and again leaves the array in
descending order.

* `heapify_spec` : `heapify` sifts down, and its recursion ends.
* `heapify_restores` : what this means for the subtree and for the rest of the array.
* `heapsort_descending` : what `heapsort` returns, for every array whose indices are `int`s.
-/
import Pungoo.HeapArray

namespace Heapsort

open Shuffle IntArray Failing Heap HeapArray

/-! ## The code -/

/-- The choice between the smallest node so far and a child, which counts only below
`heapsize`. -/
def smallerNode (arr : List ℤ) (smallest child heapsize : ℤ) : Except Fault ℤ :=
  if child < heapsize then do
    let asmallest ← read arr smallest
    let achild ← read arr child
    return if asmallest > achild then child else smallest
  else
    return smallest

/-- `heapify(arr, i, heapsize)`; `fuel` bounds the depth of the recursion. -/
def heapify : ℕ → List ℤ → ℤ → ℤ → Except Fault (List ℤ)
  | 0, _, _, _ => .error .outOfFuel
  | fuel + 1, arr, i, heapsize => do
    let left ← checked (2 * i + 1)
    let right ← checked (2 * i + 2)
    let smallest ← smallerNode arr i left heapsize
    let smallest ← smallerNode arr smallest right heapsize
    if smallest ≠ i then
      let temp ← read arr i
      let asmallest ← read arr smallest
      let arr ← write arr i asmallest
      let arr ← write arr smallest temp
      heapify fuel arr smallest heapsize
    else
      return arr

/-- A call of `heapify` with as much fuel as there are nodes. -/
def heapifyCall (arr : List ℤ) (i heapsize : ℤ) : Except Fault (List ℤ) :=
  heapify (heapsize.toNat + 1) arr i heapsize

/-- `buildheap(arr, length)`. -/
def buildheap (arr : List ℤ) (length : ℤ) : Except Fault (List ℤ) :=
  forDown (length.tdiv 2 - 1) (-1) (fun i arr => heapifyCall arr i length) arr

/-- The body of the loop of `heapsort`, on the array and `heapsize`. -/
def takeRoot : List ℤ × ℤ → Except Fault (List ℤ × ℤ)
  | (arr, heapsize) => do
    let temp ← read arr 0
    let last ← read arr (heapsize - 1)
    let arr ← write arr 0 last
    let arr ← write arr (heapsize - 1) temp
    let arr ← heapifyCall arr 0 (heapsize - 1)
    return (arr, heapsize - 1)

/-- `heapsort(arr, length)`. -/
def heapsort (arr : List ℤ) (length : ℤ) : Except Fault (List ℤ) := do
  let arr ← buildheap arr length
  let (arr, _) ← forUp 0 (length - 1) (fun _ => takeRoot) (arr, length)
  return arr

/-! ## The tree -/

/-- The parent of `k` is `(k - 1) / 2`. -/
def tree : Tree where
  parent k := (k - 1) / 2
  parent_lt h := Nat.lt_of_le_of_lt (Nat.div_le_self _ _) (Nat.sub_lt h (by decide))

theorem isChild_iff {c p : ℕ} : tree.IsChild c p ↔ c = 2 * p + 1 ∨ c = 2 * p + 2 := by
  unfold Tree.IsChild
  show 0 < c ∧ (c - 1) / 2 = p ↔ _
  omega

/-! ## One call -/

variable {arr : List ℤ} {n i c s : ℕ}

/-- The node that `smallerNode` chooses. -/
def chosen (arr : List ℤ) (s c n : ℕ) : ℕ :=
  if c < n ∧ cell arr s > cell arr c then c else s

theorem smallerNode_eq (hs : s < n) (hn : n ≤ arr.length) :
    smallerNode arr s c n = .ok ((chosen arr s c n : ℕ) : ℤ) := by
  unfold smallerNode chosen
  by_cases hc : c < n
  · rw [if_pos (Int.ofNat_lt.mpr hc), read_eq (by omega), ok_bind, read_eq (by omega), ok_bind]
    by_cases h : cell arr s > cell arr c
    · rw [if_pos h, if_pos ⟨hc, h⟩]
      rfl
    · rw [if_neg h, if_neg (fun h' => h h'.2)]
      rfl
  · rw [if_neg (fun h => hc (Int.ofNat_lt.mp h)), if_neg (fun h => hc h.1)]
    rfl

theorem chosen_lt (hs : s < n) : chosen arr s c n < n := by
  unfold chosen
  split_ifs with h
  · exact h.1
  · exact hs

theorem chosen_eq (arr : List ℤ) (s c n : ℕ) : chosen arr s c n = c ∨ chosen arr s c n = s := by
  unfold chosen
  split_ifs
  · exact Or.inl rfl
  · exact Or.inr rfl

/-- The chosen node is at most as large as both. -/
theorem cell_chosen_le (arr : List ℤ) (s c n : ℕ) :
    cell arr (chosen arr s c n) ≤ cell arr s ∧
      (c < n → cell arr (chosen arr s c n) ≤ cell arr c) := by
  unfold chosen
  split_ifs with h
  · exact ⟨Int.le_of_lt h.2, fun _ => le_refl _⟩
  · refine ⟨le_refl _, ?_⟩
    intro hc
    by_contra hlt
    exact h ⟨hc, by omega⟩

/-- The smallest of a node and its children. -/
def smallestNode (arr : List ℤ) (i n : ℕ) : ℕ :=
  chosen arr (chosen arr i (2 * i + 1) n) (2 * i + 2) n

theorem heapify_eq (fuel : ℕ) (hi : i < n) (hn : n ≤ arr.length)
    (hmax : 2 * (i : ℤ) + 2 ≤ intMax) :
    heapify (fuel + 1) arr i n =
      if smallestNode arr i n ≠ i then
        heapify fuel (exchange arr i (smallestNode arr i n)) (smallestNode arr i n) n
      else .ok arr := by
  have hleft : checked (2 * (i : ℤ) + 1) = .ok ((2 * i + 1 : ℕ) : ℤ) :=
    checked_nonneg (by omega) (by omega)
  have hright : checked (2 * (i : ℤ) + 2) = .ok ((2 * i + 2 : ℕ) : ℤ) :=
    checked_nonneg (by omega) (by omega)
  have hlt : smallestNode arr i n < n := chosen_lt (chosen_lt hi)
  rw [heapify, hleft, ok_bind, hright, ok_bind, smallerNode_eq hi hn, ok_bind,
    smallerNode_eq (chosen_lt hi) hn, ok_bind,
    show chosen arr (chosen arr i (2 * i + 1) n) (2 * i + 2) n = smallestNode arr i n from rfl]
  by_cases h : smallestNode arr i n = i
  · rw [if_neg (by omega), if_neg (by omega)]
    rfl
  · rw [if_pos (by omega), if_pos h, read_eq (by omega), ok_bind, read_eq (by omega), ok_bind,
      write_eq (by omega), ok_bind, write_eq (by rw [List.length_set]; omega), ok_bind]
    rfl

/-- The smallest node is at most as large as the node and its children. -/
theorem cell_smallestNode_le (arr : List ℤ) (hi : s = i ∨ tree.IsChild s i) (hs : s < n) :
    cell arr (smallestNode arr i n) ≤ cell arr s := by
  have h1 := cell_chosen_le arr i (2 * i + 1) n
  have h2 := cell_chosen_le arr (chosen arr i (2 * i + 1) n) (2 * i + 2) n
  show cell arr (chosen arr (chosen arr i (2 * i + 1) n) (2 * i + 2) n) ≤ cell arr s
  rw [isChild_iff] at hi
  rcases hi with rfl | rfl | rfl
  · exact h2.1.trans h1.1
  · exact h2.1.trans (h1.2 hs)
  · exact h2.2 hs

theorem smallestNode_child (h : smallestNode arr i n ≠ i) :
    tree.IsChild (smallestNode arr i n) i := by
  rw [isChild_iff]
  rcases chosen_eq arr (chosen arr i (2 * i + 1) n) (2 * i + 2) n with h2 | h2
  · exact Or.inr h2
  · rcases chosen_eq arr i (2 * i + 1) n with h1 | h1
    · exact Or.inl (h2.trans h1)
    · exact absurd (h2.trans h1) h

theorem heapify_rounds (hmax : 2 * (n : ℤ) ≤ intMax) :
    Rounds tree (· ≤ ·) n (fun fuel arr i => heapify fuel arr i n) := by
  intro fuel arr i hi hn
  dsimp only
  rw [heapify_eq fuel hi hn (by omega)]
  by_cases h : smallestNode arr i n = i
  · rw [if_neg (not_not.mpr h)]
    refine Or.inl ⟨rfl, ?_⟩
    intro s hs hsn
    have hle := cell_smallestNode_le arr (Or.inr hs) hsn
    rw [h] at hle
    exact hle
  · rw [if_pos h]
    refine Or.inr ⟨smallestNode arr i n, smallestNode_child h, chosen_lt (chosen_lt hi), ?_, ?_, rfl⟩
    · exact cell_smallestNode_le arr (Or.inl rfl) hi
    · intro s hs hsn
      exact cell_smallestNode_le arr (Or.inr hs) hsn

/-- **`heapify`** terminates and sifts down from `i`. -/
theorem heapify_spec (hmax : 2 * (n : ℤ) ≤ intMax) (hi : i < n) (hn : n ≤ arr.length) :
    ∃ arr', heapifyCall arr i n = .ok arr' ∧ Sifted tree (· ≤ ·) n i arr arr' := by
  unfold heapifyCall
  rw [Int.toNat_natCast]
  exact sifted_of_rounds (heapify_rounds hmax) (n + 1) (by omega) hi hn

/-- **`heapify` restores a heap.**  It terminates; the subtree of `i` is rearranged, the rest of
the array is as before, and when the subtrees of the two children are ordered, the subtree of
`i` is ordered afterwards. -/
theorem heapify_restores (arr : List ℤ) (n i : ℕ) (hmax : 2 * (n : ℤ) + 2 ≤ intMax) (hi : i < n)
    (hn : n ≤ arr.length) :
    ∃ arr', heapifyCall arr i n = .ok arr' ∧ arr'.length = arr.length ∧
      Shuffled (tree.subtree i ∩ {k | k < n}) (cell arr) (cell arr') ∧
      (∀ k, k ∉ tree.subtree i ∨ n ≤ k → cell arr' k = cell arr k) ∧
      (Ordered tree (· ≤ ·) n (cell arr) (tree.subtree (2 * i + 1)) →
        Ordered tree (· ≤ ·) n (cell arr) (tree.subtree (2 * i + 2)) →
        Ordered tree (· ≤ ·) n (cell arr') (tree.subtree i)) := by
  obtain ⟨arr', hrun, h⟩ := heapify_spec (by omega) hi hn
  refine ⟨arr', hrun, h.length_eq, h.shuffled, fun _ => h.cell_eq, ?_⟩
  intro hleft hright
  apply h.ordered
  apply Ordered.below_root
  intro c hc
  rcases isChild_iff.mp hc with rfl | rfl
  · exact hleft
  · exact hright

/-- A root with two leaves, in front of an element that is no longer in the heap. -/
theorem heapify_root :
    ∃ arr', heapifyCall [5, 3, 4, 0] 0 3 = .ok arr' ∧ cell arr' 3 = 0 ∧
      Ordered tree (· ≤ ·) 3 (cell arr') (tree.subtree 0) := by
  obtain ⟨arr', hrun, -, -, hframe, hord⟩ :=
    heapify_restores [5, 3, 4, 0] 3 0 (by decide) (by decide) (by decide)
  have hleaf : ∀ i, 1 ≤ i → Ordered tree (· ≤ ·) 3 (cell [5, 3, 4, 0]) (tree.subtree i) := by
    intro i hi c p hc hn hp
    have hchild := isChild_iff.mp hc
    have hle := le_of_mem_subtree hp
    omega
  exact ⟨arr', hrun, hframe 3 (Or.inr (le_refl 3)), hord (hleaf 1 (by omega)) (hleaf 2 (by omega))⟩

/-! ## The two phases -/

/-- `buildheap` builds a heap. -/
theorem buildheap_spec (arr : List ℤ) (hmax : 2 * (arr.length : ℤ) ≤ intMax) :
    ∃ a, buildheap arr arr.length = .ok a ∧ Emptying tree (· ≤ ·) arr arr.length a := by
  have hhalf : (arr.length : ℤ).tdiv 2 = ((arr.length / 2 : ℕ) : ℤ) :=
    Int.tdiv_eq_ediv_of_nonneg (by omega)
  have hbody : ∀ i a, -1 < i → i ≤ (arr.length : ℤ).tdiv 2 - 1 →
      Building tree (· ≤ ·) arr i a →
      ∃ a', heapifyCall a i arr.length = .ok a' ∧ Building tree (· ≤ ·) arr (i - 1) a' := by
    intro i a hi0 hi h
    rw [hhalf] at hi
    obtain ⟨p, rfl⟩ := Int.eq_ofNat_of_zero_le (show 0 ≤ i by omega)
    obtain ⟨a', hrun, hs⟩ :=
      heapify_spec hmax (show p < arr.length by omega) (Nat.le_of_eq h.length_eq.symm)
    exact ⟨a', hrun, h.sift hs⟩
  have hstart : Building tree (· ≤ ·) arr ((arr.length : ℤ).tdiv 2 - 1) arr := by
    rw [hhalf]
    apply building_start
    intro c p hc hn
    have hchild := isChild_iff.mp hc
    omega
  obtain ⟨a, hrun, i, hi, h⟩ := forDown_rule hbody hstart
  exact ⟨a, hrun, h.emptying (by omega)⟩

theorem takeRoot_spec {a : List ℤ} (hmax : 2 * (arr.length : ℤ) ≤ intMax) {m : ℕ}
    (hm0 : 0 < m) (hm : m < arr.length) (h : Emptying tree (· ≤ ·) arr (m + 1) a) :
    ∃ a', takeRoot (a, ((m + 1 : ℕ) : ℤ)) = .ok (a', (m : ℤ)) ∧
      Emptying tree (· ≤ ·) arr m a' := by
  have hlen := h.length_eq
  have hle : m ≤ (exchange a 0 m).length := by
    rw [length_exchange]
    omega
  obtain ⟨a', hheap, hs⟩ := heapify_spec (by omega) hm0 hle
  refine ⟨a', ?_, h.sift hm hs⟩
  have h0 : read a 0 = .ok (cell a 0) := read_eq (k := 0) (by omega)
  have hw : write a 0 (cell a m) = .ok (a.set 0 (cell a m)) := write_eq (k := 0) (by omega)
  rw [takeRoot, show ((m + 1 : ℕ) : ℤ) - 1 = m by omega, h0, ok_bind, read_eq (by omega), ok_bind,
    hw, ok_bind, write_eq (by rw [List.length_set]; omega), ok_bind]
  show (heapifyCall (exchange a 0 m) ((0 : ℕ) : ℤ) m >>= fun arr => _) = _
  rw [hheap]
  rfl

/-- The indices are `int`s as long as the doubled length is. -/
theorem heapsort_spec (arr : List ℤ) (hmax : 2 * (arr.length : ℤ) ≤ intMax) :
    ∃ arr', heapsort arr arr.length = .ok arr' ∧ arr'.Pairwise (· ≥ ·) ∧ arr'.Perm arr := by
  obtain ⟨a, hbuild, h⟩ := buildheap_spec arr hmax
  have hbody : ∀ i (s : List ℤ × ℤ), 0 ≤ i → i < (arr.length : ℤ) - 1 →
      (s.2 = arr.length - i ∧ Emptying tree (· ≤ ·) arr s.2.toNat s.1) →
      ∃ s', takeRoot s = .ok s' ∧
        s'.2 = arr.length - (i + 1) ∧ Emptying tree (· ≤ ·) arr s'.2.toNat s'.1 := by
    rintro i ⟨a, size⟩ hi0 hi ⟨hsize, h⟩
    dsimp only at hsize h
    obtain ⟨m, rfl⟩ : ∃ m : ℕ, size = ((m + 1 : ℕ) : ℤ) := ⟨(size - 1).toNat, by omega⟩
    obtain ⟨a', hrun, h'⟩ := takeRoot_spec hmax (by omega) (by omega) h
    refine ⟨(a', (m : ℤ)), hrun, ?_, h'⟩
    show (m : ℤ) = _
    omega
  have hstart : ((arr.length : ℤ) = arr.length - 0 ∧
      Emptying tree (· ≤ ·) arr (arr.length : ℤ).toNat a) := ⟨by omega, h⟩
  obtain ⟨⟨arr', size⟩, hrun, i, hi, hsize, h'⟩ :=
    forUp_rule (s := (a, (arr.length : ℤ))) hbody hstart
  dsimp only at hsize h'
  refine ⟨arr', ?_, h'.sorted (by omega)⟩
  unfold heapsort
  rw [hbuild, ok_bind, hrun]
  rfl

/-- **`heapsort` sorts.**  For every array for which `2 * length + 2` is an `int`, the run ends
without a fault, and the result is the array in descending order. -/
theorem heapsort_descending (arr : List ℤ) (hmax : 2 * (arr.length : ℤ) + 2 ≤ intMax) :
    ∃ arr', heapsort arr arr.length = .ok arr' ∧ arr'.Pairwise (· ≥ ·) ∧ arr'.Perm arr :=
  heapsort_spec arr (by omega)

/-- The third array of `main`. -/
theorem heapsort_main :
    ∃ arr', heapsort [1, 9, 2, 8, 3, 7, 4, 6, 0, 5] 10 = .ok arr' ∧ arr'.Pairwise (· ≥ ·) ∧
      arr'.Perm [1, 9, 2, 8, 3, 7, 4, 6, 0, 5] :=
  heapsort_descending [1, 9, 2, 8, 3, 7, 4, 6, 0, 5] (by decide)

end Heapsort
