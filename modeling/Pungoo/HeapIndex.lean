/-
# How large an array the heap sorts can index

`heapify` and `heapAjust` compute the indices of children before they compare them with the
size of the heap.  Whether an index overflows depends on the nodes that the sifts come to,
`reached`.  A sift may go down to the last node, and the children of that node have the largest
indices of all.

* `guarded_heapsort`, `guarded_sort` : a run overflows exactly on its way;
* `heap_index_iff` : the arrays on which no index overflows;
* `lastOut n v` : an array whose last element has to move up from the last node;
* `heapsort_ok_iff`, `sort_ok_iff` : the lengths for which no index overflows, whatever is in
  the array.
-/
import Pungoo.Heapsort
import Pungoo.Hsort

open IntArray Failing HeapArray

/-! ## The array -/

namespace IntArray

/-- Zeros, and `v` behind them. -/
def lastOut (n : ℕ) (v : ℤ) : List ℤ := List.replicate (n - 1) 0 ++ [v]

theorem length_lastOut {n : ℕ} (hn : 0 < n) (v : ℤ) : (lastOut n v).length = n := by
  unfold lastOut
  rw [List.length_append, List.length_replicate, List.length_singleton]
  omega

theorem cell_lastOut {n k : ℕ} (v : ℤ) (hk : k < n) :
    cell (lastOut n v) k = if k = n - 1 then v else 0 := by
  unfold cell lastOut
  rw [List.getD_eq_getElem?_getD]
  split_ifs with h
  · rw [List.getElem?_append_right (by rw [List.length_replicate]; omega), List.length_replicate,
      show k - (n - 1) = 0 by omega]
    rfl
  · rw [List.getElem?_append_left (by rw [List.length_replicate]; omega),
      List.getElem?_replicate, if_pos (by omega)]
    rfl

end IntArray

namespace Heapsort

variable {arr : List ℤ} {n i : ℕ}

/-- The children of a node that is too far behind have no `int` for an index. -/
theorem heapify_overflow (fuel : ℕ) (heapsize : ℤ) (h : intMax < 2 * (i : ℤ) + 2) :
    heapify (fuel + 1) arr i heapsize = .error .overflow := by
  unfold heapify
  rcases lt_or_ge intMax (2 * (i : ℤ) + 1) with hleft | hleft
  · rw [checked_above hleft, error_bind]
  · rw [checked_nonneg (by omega) hleft, ok_bind, checked_above h, error_bind]

/-! ### The nodes that are reached -/

/-- The node at which `heapify` goes on. -/
def nextNode (n : ℕ) (arr : List ℤ) (i : ℕ) : Option ℕ :=
  if smallestNode arr i n ≠ i then some (smallestNode arr i n) else none

/-- The root is exchanged with the last node of a heap of `m + 2`, and sifted down. -/
def rootDescent (m : ℕ) (arr : List ℤ) : List ℕ × List ℤ :=
  descent (nextNode (m + 1)) (m + 2) (exchange arr 0 (m + 1)) 0

/-- The nodes at which `heapify` is called in the two loops of `heapsort`, with the array behind
each loop. -/
def descents (arr : List ℤ) : List ℕ × List ℤ :=
  let build := traceDown (fun i a => descent (nextNode arr.length) (arr.length + 1) a i)
    (arr.length / 2) arr
  let empty := traceDown rootDescent (arr.length - 1) build.2
  (build.1 ++ empty.1, empty.2)

/-- The nodes at which `heapify` is called during `heapsort`. -/
def reached (arr : List ℤ) : List ℕ := (descents arr).1

theorem guarded_heapify (hi : i < n) (hn : n ≤ arr.length) :
    Guarded (fun p : ℕ => 2 * (p : ℤ) + 2 ≤ intMax) (heapifyCall arr i n)
      (descent (nextNode n) (n + 1) arr i) := by
  unfold heapifyCall
  rw [Int.toNat_natCast]
  refine guarded_descent (fun fuel arr i => heapify fuel arr i n) ?_ ?_ ?_ (n + 1)
    (by omega) hi hn
  · intro fuel arr pos hfail
    exact heapify_overflow fuel n (not_le.mp hfail)
  · intro fuel arr pos hpos hn hok
    rw [heapify_eq fuel hpos hn hok, nextNode]
    split_ifs <;> rfl
  · intro arr pos c hc hpos
    unfold nextNode at hc
    rw [Option.ite_none_right_eq_some, Option.some.injEq] at hc
    obtain ⟨hne, rfl⟩ := hc
    exact ⟨(smallestNode_child hne).lt, chosen_lt (chosen_lt hpos)⟩

/-- One pass of the second loop. -/
theorem guarded_takeRoot {m : ℕ} (hm : m + 1 < arr.length) :
    Guarded (fun p : ℕ => 2 * (p : ℤ) + 2 ≤ intMax) (takeRoot (arr, ((m + 2 : ℕ) : ℤ)))
      ((rootDescent m arr).1, (rootDescent m arr).2, ((m + 1 : ℕ) : ℤ)) := by
  have h0 : read arr 0 = .ok (cell arr 0) := read_eq (k := 0) (by omega)
  have hw : write arr 0 (cell arr (m + 1)) = .ok (arr.set 0 (cell arr (m + 1))) :=
    write_eq (k := 0) (by omega)
  have hlen : m + 1 ≤ (exchange arr 0 (m + 1)).length := by
    rw [length_exchange]
    exact Nat.le_of_lt hm
  have hsift := guarded_heapify (i := 0) (Nat.succ_pos m) hlen
  rw [takeRoot, show ((m + 2 : ℕ) : ℤ) - 1 = ((m + 1 : ℕ) : ℤ) by omega, h0, ok_bind,
    read_eq hm, ok_bind, hw, ok_bind, write_eq (by rw [List.length_set]; exact hm), ok_bind]
  have hboth := hsift.bind (f := fun arr => .ok (arr, ((m + 1 : ℕ) : ℤ))) (guarded_ok _)
  rw [List.append_nil] at hboth
  exact hboth

theorem guarded_ascend {m : ℕ} (i : ℤ) (hm : m < arr.length) :
    Guarded (fun p : ℕ => 2 * (p : ℤ) + 2 ≤ intMax)
      (ascend (fun _ => takeRoot) m i (arr, ((m + 1 : ℕ) : ℤ)))
      ((traceDown rootDescent m arr).1, (traceDown rootDescent m arr).2, 1) := by
  induction m generalizing i arr with
  | zero => exact guarded_ok _
  | succ m ih =>
    have hlen : (rootDescent m arr).2.length = arr.length :=
      (length_descent _ _ 0).trans (length_exchange arr 0 (m + 1))
    exact (guarded_takeRoot hm).bind (ih (i + 1) (by omega))

/-- The second loop. -/
theorem guarded_empty (hn : arr.length = n) :
    Guarded (fun p : ℕ => 2 * (p : ℤ) + 2 ≤ intMax)
      (forUp 0 ((n : ℤ) - 1) (fun _ => takeRoot) (arr, (n : ℤ)) >>= fun s => .ok s.1)
      (traceDown rootDescent (n - 1) arr) := by
  unfold forUp
  rw [Int.sub_zero]
  cases n with
  | zero => exact guarded_ok arr
  | succ m =>
    have hloop := guarded_ascend 0 (show m < arr.length by omega)
    have hboth := hloop.bind (f := fun s => .ok s.1) (guarded_ok _)
    rw [List.append_nil] at hboth
    rw [show (((m + 1 : ℕ) : ℤ) - 1).toNat = m by omega]
    exact hboth

/-- **The way of `heapsort`**: it overflows exactly when a node on it has children without an
index. -/
theorem guarded_heapsort (arr : List ℤ) :
    Guarded (fun p : ℕ => 2 * (p : ℤ) + 2 ≤ intMax) (heapsort arr arr.length) (descents arr) := by
  have hbuild : Guarded (fun p : ℕ => 2 * (p : ℤ) + 2 ≤ intMax) (buildheap arr arr.length)
      (traceDown (fun i a => descent (nextNode arr.length) (arr.length + 1) a i)
        (arr.length / 2) arr) := by
    have hhalf : (arr.length : ℤ).tdiv 2 - 1 = 0 + ((arr.length / 2 : ℕ) : ℤ) - 1 := by
      rw [Int.tdiv_eq_ediv_of_nonneg (by omega)]
      omega
    unfold buildheap forDown
    rw [hhalf, show (0 + ((arr.length / 2 : ℕ) : ℤ) - 1 - -1).toNat = arr.length / 2 by omega]
    refine guarded_descend 0 (fun i a => length_descent _ a i) ?_ rfl
    intro i a hi ha
    rw [Int.zero_add]
    exact guarded_heapify (by omega) (Nat.le_of_eq ha.symm)
  exact hbuild.bind (guarded_empty (length_traceDown fun i a => length_descent _ a i))

/-! ### The array that goes down to the last node -/

/-- The smallest element of `lastOut n (-1)` is at its last node, and moves up from there. -/
theorem smallestNode_lastOut (hi : tree.IsChild (n - 1) i) (hn : i < n) :
    smallestNode (lastOut n (-1)) i n = n - 1 := by
  by_contra hne
  have hle := cell_smallestNode_le (lastOut n (-1)) (Or.inr hi) (show n - 1 < n by omega)
  have hlt : smallestNode (lastOut n (-1)) i n < n := chosen_lt (chosen_lt hn)
  rw [cell_lastOut _ hlt, if_neg hne, cell_lastOut _ (by omega), if_pos rfl] at hle
  omega

/-- The first call of `buildheap` goes down to the last node. -/
theorem heapsort_overflow (hn : (n : ℤ) ≤ intMax) (hover : intMax < 2 * (n : ℤ)) :
    heapsort (lastOut n (-1)) n = .error .overflow := by
  have hbig : 2 ≤ n := by
    unfold intMax at hover
    omega
  have hhalf : (n : ℤ).tdiv 2 - 1 = ((n / 2 - 1 : ℕ) : ℤ) := by
    rw [Int.tdiv_eq_ediv_of_nonneg (by omega)]
    omega
  have hchild : tree.IsChild (n - 1) (n / 2 - 1) := by
    rw [isChild_iff]
    omega
  have hlen : n ≤ (lastOut n (-1)).length := (length_lastOut (by omega) (-1)).ge
  have hfirst : heapifyCall (lastOut n (-1)) ((n / 2 - 1 : ℕ) : ℤ) n = .error .overflow := by
    unfold heapifyCall
    rw [Int.toNat_natCast, heapify_eq n (by omega) hlen (by omega),
      smallestNode_lastOut hchild (by omega), if_pos (by omega)]
    obtain ⟨fuel, rfl⟩ : ∃ fuel, n = fuel + 1 := ⟨n - 1, by omega⟩
    exact heapify_overflow fuel _ (by omega)
  unfold heapsort buildheap
  rw [forDown_eq (by omega), hhalf, hfirst, error_bind, error_bind]

/-- Every array of the length is sorted without an overflow exactly when the doubled length is
an `int`. -/
theorem heapsort_ok_iff (hn : (n : ℤ) ≤ intMax) :
    (∀ arr : List ℤ, arr.length = n → ∃ arr', heapsort arr n = .ok arr') ↔
      2 * (n : ℤ) ≤ intMax := by
  constructor
  · intro h
    by_contra hover
    have hpos : 0 < n := by
      unfold intMax at hover
      omega
    obtain ⟨arr', hok⟩ := h (lastOut n (-1)) (length_lastOut hpos (-1))
    rw [heapsort_overflow hn (by omega)] at hok
    exact absurd hok (by simp)
  · rintro hmax arr rfl
    obtain ⟨arr', hok, -⟩ := heapsort_spec arr hmax
    exact ⟨arr', hok⟩

end Heapsort

namespace Hsort

variable {arr : List ℤ} {n pos : ℕ}

/-! ### The nodes that are reached -/

/-- The node at which `heapAjust` goes on. -/
def nextNode (n : ℕ) (arr : List ℤ) (pos : ℕ) : Option ℕ :=
  if 2 * pos + 1 < n then
    if cell arr pos < cell arr (2 * pos) ∨ cell arr pos < cell arr (2 * pos + 1) then
      if cell arr (2 * pos) < cell arr (2 * pos + 1) then some (2 * pos + 1) else some (2 * pos)
    else none
  else if 2 * pos + 1 = n ∧ cell arr pos < cell arr (2 * pos) then some (2 * pos)
  else none

/-- The nodes of a call of `heapAjust`, which returns at once for a node behind the heap. -/
def callDescent (n pos : ℕ) (arr : List ℤ) : List ℕ × List ℤ :=
  if n ≤ pos then ([], arr) else descent (nextNode n) (n + 1) arr pos

/-- The root is exchanged with the last node of a heap of `m + 2`, and sifted down. -/
def rootDescent (m : ℕ) (arr : List ℤ) : List ℕ × List ℤ :=
  callDescent (m + 1) 0 (exchange arr 0 (m + 1))

/-- The nodes at which `heapAjust` computes a child in the two loops of `sort`, with the array
behind each loop. -/
def descents (arr : List ℤ) : List ℕ × List ℤ :=
  let build := traceDown (callDescent arr.length) (arr.length / 2 + 1) arr
  let empty := traceDown rootDescent (arr.length - 1) build.2
  (build.1 ++ empty.1, empty.2)

/-- The nodes at which `heapAjust` computes a child during `sort`. -/
def reached (arr : List ℤ) : List ℕ := (descents arr).1

theorem nextNode_child {c : ℕ} (h : nextNode n arr pos = some c) : tree.IsChild c pos ∧ c < n := by
  unfold nextNode at h
  split_ifs at h with h2 hany hright hone
  · obtain rfl := Option.some.inj h
    exact ⟨isChild_iff.mpr (by omega), h2⟩
  · obtain rfl := Option.some.inj h
    have hgt : cell arr pos < cell arr (2 * pos) := by omega
    exact ⟨left_isChild hgt, by omega⟩
  · obtain rfl := Option.some.inj h
    exact ⟨left_isChild hone.2, by omega⟩

/-- The call at a node, from the computation of its first child on. -/
theorem heapAjustLoop_eq (fuel : ℕ) (hpos : pos < n) (hn : n ≤ arr.length)
    (hint : (n : ℤ) ≤ intMax) :
    heapAjustLoop n (fuel + 1) arr pos ((2 * pos : ℕ) : ℤ) = match nextNode n arr pos with
      | none => .ok arr
      | some c => checked ((c : ℤ) * 2) >>= heapAjustLoop n fuel (exchange arr pos c) c := by
  unfold nextNode
  rcases Nat.lt_trichotomy (2 * pos + 1) n with h2 | h2 | h2
  · rw [heapAjustLoop_two fuel hpos hn hint h2, if_pos h2]
    split_ifs <;> rfl
  · rw [heapAjustLoop_one fuel hpos hn hint h2, if_neg (show ¬ 2 * pos + 1 < n by omega)]
    by_cases h : cell arr pos < cell arr (2 * pos)
    · rw [if_pos h, if_pos ⟨h2, h⟩]
    · rw [if_neg h, if_neg fun h' => h h'.2]
  · rw [heapAjustLoop_none fuel (by omega), if_neg (show ¬ 2 * pos + 1 < n by omega),
      if_neg (by omega)]

theorem guarded_heapAjust (pos : ℕ) (hint : (n : ℤ) ≤ intMax) (hn : n ≤ arr.length) :
    Guarded (fun p : ℕ => 2 * (p : ℤ) ≤ intMax) (heapAjust arr n pos) (callDescent n pos arr) := by
  unfold heapAjust callDescent
  by_cases hpos : n ≤ pos
  · rw [if_pos (Int.ofNat_le.mpr hpos), if_pos hpos]
    exact guarded_ok arr
  · rw [if_neg (by omega), if_neg hpos, Int.toNat_natCast]
    refine guarded_descent (fun fuel arr pos =>
      checked ((pos : ℤ) * 2) >>= fun i => heapAjustLoop n fuel arr pos i) ?_ ?_ ?_ (n + 1)
      (by omega) (not_le.mp hpos) hn
    · intro fuel arr pos hfail
      rw [checked_above (by omega), error_bind]
    · intro fuel arr pos hpos hn hok
      rw [checked_child hok, ok_bind]
      refine (heapAjustLoop_eq fuel hpos hn hint).trans ?_
      cases nextNode n arr pos <;> rfl
    · intro arr pos c hc _
      obtain ⟨hchild, hcn⟩ := nextNode_child hc
      exact ⟨hchild.lt, hcn⟩

theorem length_callDescent (pos : ℕ) (arr : List ℤ) :
    (callDescent n pos arr).2.length = arr.length := by
  unfold callDescent
  split_ifs
  · rfl
  · exact length_descent _ arr pos

/-- One pass of the second loop. -/
theorem guarded_takeRoot {m : ℕ} (hint : (arr.length : ℤ) ≤ intMax) (hm : m + 1 < arr.length) :
    Guarded (fun p : ℕ => 2 * (p : ℤ) ≤ intMax) (takeRoot ((m + 1 : ℕ) : ℤ) arr)
      (rootDescent m arr) := by
  have h0 : read arr 0 = .ok (cell arr 0) := read_eq (k := 0) (by omega)
  have hw : write arr 0 (cell arr (m + 1)) = .ok (arr.set 0 (cell arr (m + 1))) :=
    write_eq (k := 0) (by omega)
  have hlen : m + 1 ≤ (exchange arr 0 (m + 1)).length := by
    rw [length_exchange]
    exact Nat.le_of_lt hm
  unfold takeRoot
  rw [h0, ok_bind, read_eq hm, ok_bind, hw, ok_bind,
    write_eq (by rw [List.length_set]; exact hm), ok_bind]
  exact guarded_heapAjust 0 (by omega) hlen

/-- **The way of `sort`**: it overflows exactly when a node on it has a first child without an
index. -/
theorem guarded_sort (arr : List ℤ) (hint : (arr.length : ℤ) ≤ intMax) :
    Guarded (fun p : ℕ => 2 * (p : ℤ) ≤ intMax) (sort arr arr.length) (descents arr) := by
  have hbuild : Guarded (fun p : ℕ => 2 * (p : ℤ) ≤ intMax)
      (forDown ((arr.length : ℤ).tdiv 2) (-1) (fun i a => heapAjust a arr.length i) arr)
      (traceDown (callDescent arr.length) (arr.length / 2 + 1) arr) := by
    have hhalf : (arr.length : ℤ).tdiv 2 = 0 + ((arr.length / 2 + 1 : ℕ) : ℤ) - 1 := by
      rw [Int.tdiv_eq_ediv_of_nonneg (by omega)]
      omega
    unfold forDown
    rw [hhalf,
      show (0 + ((arr.length / 2 + 1 : ℕ) : ℤ) - 1 - -1).toNat = arr.length / 2 + 1 by omega]
    refine guarded_descend 0 length_callDescent ?_ rfl
    intro i a _ ha
    rw [Int.zero_add]
    exact guarded_heapAjust _ hint (Nat.le_of_eq ha.symm)
  have hempty (a : List ℤ) (ha : a.length = arr.length) :
      Guarded (fun p : ℕ => 2 * (p : ℤ) ≤ intMax) (forDown ((arr.length : ℤ) - 1) 0 takeRoot a)
        (traceDown rootDescent (arr.length - 1) a) := by
    have hcount : ((arr.length : ℤ) - 1 - 0).toNat = arr.length - 1 := by omega
    unfold forDown
    rw [hcount]
    cases hlen : arr.length - 1 with
    | zero => exact guarded_ok a
    | succ m =>
      rw [show (arr.length : ℤ) - 1 = 1 + ((m + 1 : ℕ) : ℤ) - 1 by omega]
      refine guarded_descend 1 (fun k b => (length_callDescent 0 _).trans (length_exchange b _ _))
        ?_ ha
      intro k b hk hb
      rw [show (1 : ℤ) + k = ((k + 1 : ℕ) : ℤ) by omega]
      exact guarded_takeRoot (by omega) (by omega)
  exact hbuild.bind (hempty _ (length_traceDown length_callDescent))

/-! ### The array that goes down to the last node -/

/-- The largest element of `lastOut n 1` is at its last node, and moves up from there. -/
theorem heapAjustLoop_overflow {pos : ℕ} (fuel : ℕ) (hpos : 0 < pos)
    (hchild : tree.IsChild (n - 1) pos) (hn : (n : ℤ) ≤ intMax)
    (hover : intMax < 2 * ((n : ℤ) - 1)) :
    heapAjustLoop n (fuel + 1) (lastOut n 1) pos ((2 * pos : ℕ) : ℤ) = .error .overflow := by
  have hlast := isChild_iff.mp hchild
  have hlen : n ≤ (lastOut n 1).length := (length_lastOut (by omega) 1).ge
  have hcell : ∀ k, k < n → cell (lastOut n 1) k = if k = n - 1 then 1 else 0 :=
    fun k hk => cell_lastOut 1 hk
  have hroot : cell (lastOut n 1) pos = 0 := by
    rw [hcell pos (by omega), if_neg (by omega)]
  have hend : cell (lastOut n 1) (n - 1) = 1 := by
    rw [hcell (n - 1) (by omega), if_pos rfl]
  have hindex : checked (((n - 1 : ℕ) : ℤ) * 2) = .error .overflow := checked_above (by omega)
  rcases hlast.2 with hleft | hright
  · -- the last node is an only child
    rw [heapAjustLoop_one fuel (by omega) hlen hn (by omega), ← hleft, hroot, hend,
      if_pos (by decide), hindex]
    rfl
  · have hzero : cell (lastOut n 1) (2 * pos) = 0 := by
      rw [hcell (2 * pos) (by omega), if_neg (by omega)]
    rw [heapAjustLoop_two fuel (by omega) hlen hn (by omega), ← hright, hroot, hend, hzero,
      if_pos (by decide), if_pos (by decide), hindex]
    rfl

theorem heapAjust_overflow {pos : ℕ} (hpos : 0 < pos) (hchild : tree.IsChild (n - 1) pos)
    (hn : (n : ℤ) ≤ intMax) (hover : intMax < 2 * ((n : ℤ) - 1)) :
    heapAjust (lastOut n 1) n pos = .error .overflow := by
  have hlast := isChild_iff.mp hchild
  unfold heapAjust
  rw [if_neg (by omega), checked_child (by omega), ok_bind]
  exact heapAjustLoop_overflow _ hpos hchild hn hover

/-- The first loop of `sort` goes down to the last node. -/
theorem sort_overflow (hn : (n : ℤ) ≤ intMax) (hover : intMax < 2 * ((n : ℤ) - 1)) :
    sort (lastOut n 1) n = .error .overflow := by
  have hbig : 4 ≤ n := by
    unfold intMax at hover
    omega
  have hhalf : (n : ℤ).tdiv 2 = ((n / 2 : ℕ) : ℤ) := Int.tdiv_eq_ediv_of_nonneg (by omega)
  unfold sort
  rw [hhalf, forDown_eq (by omega)]
  obtain ⟨m, hm | hm⟩ : ∃ m, n = 2 * m ∨ n = 2 * m + 1 := ⟨n / 2, by omega⟩
  · -- the call for `n / 2` finds no child and returns
    have hnone : heapAjust (lastOut n 1) n ((n / 2 : ℕ) : ℤ) = .ok (lastOut n 1) := by
      unfold heapAjust
      rw [if_neg (by omega), checked_child (by omega), ok_bind]
      exact heapAjustLoop_none _ (by omega)
    have hchild : tree.IsChild (n - 1) (n / 2 - 1) := isChild_iff.mpr (by omega)
    rw [hnone, ok_bind, forDown_eq (by omega),
      show ((n / 2 : ℕ) : ℤ) - 1 = ((n / 2 - 1 : ℕ) : ℤ) by omega,
      heapAjust_overflow (by omega) hchild hn hover, error_bind, error_bind]
  · have hchild : tree.IsChild (n - 1) (n / 2) := isChild_iff.mpr (by omega)
    rw [heapAjust_overflow (by omega) hchild hn hover, error_bind, error_bind]

/-- Every array of the length is sorted without an overflow exactly when the doubled last index
is an `int`. -/
theorem sort_ok_iff (hn : (n : ℤ) ≤ intMax) :
    (∀ arr : List ℤ, arr.length = n → ∃ arr', sort arr n = .ok arr') ↔
      2 * ((n : ℤ) - 1) ≤ intMax := by
  constructor
  · intro h
    by_contra hover
    have hpos : 0 < n := by
      unfold intMax at hover
      omega
    obtain ⟨arr', hok⟩ := h (lastOut n 1) (length_lastOut hpos 1)
    rw [sort_overflow hn (by omega)] at hok
    exact absurd hok (by simp)
  · rintro hmax arr rfl
    obtain ⟨arr', hok, -⟩ := sort_spec arr hmax
    exact ⟨arr', hok⟩

end Hsort

namespace IntArray

/-- **Index arithmetic.**  For every array of an `int` length, no index of `heapsort` overflows
exactly when the children of all nodes that its sifts come to have `int` indices, and none of
`sort` exactly when the first children have. -/
theorem heap_index_iff (arr : List ℤ) (hn : (arr.length : ℤ) ≤ intMax) :
    ((∃ arr', Heapsort.heapsort arr arr.length = .ok arr') ↔
      ∀ p ∈ Heapsort.reached arr, 2 * (p : ℤ) + 2 ≤ intMax) ∧
    ((∃ arr', Hsort.sort arr arr.length = .ok arr') ↔
      ∀ p ∈ Hsort.reached arr, 2 * (p : ℤ) ≤ intMax) :=
  ⟨(Heapsort.guarded_heapsort arr).returns_iff, (Hsort.guarded_sort arr hn).returns_iff⟩

/-- An array of both `main`s. -/
theorem heap_index_main :
    (∃ arr', Heapsort.heapsort [1, 9, 2, 8, 3, 7, 4, 6, 0, 5] 10 = .ok arr') ∧
      ∃ arr', Hsort.sort [1, 9, 2, 8, 3, 7, 4, 6, 0, 5] 10 = .ok arr' := by
  obtain ⟨hheap, hsort⟩ := heap_index_iff [1, 9, 2, 8, 3, 7, 4, 6, 0, 5] (by decide)
  exact ⟨hheap.mpr (by decide), hsort.mpr (by decide)⟩

/-- The shortest arrays whose indices overflow, one for each of the sorts. -/
theorem heap_index_overflow :
    Heapsort.heapsort (lastOut 1073741824 (-1)) (1073741824 : ℕ) = .error .overflow ∧
      Hsort.sort (lastOut 1073741825 1) (1073741825 : ℕ) = .error .overflow :=
  ⟨Heapsort.heapsort_overflow (by decide) (by decide),
    Hsort.sort_overflow (by decide) (by decide)⟩

end IntArray
