/-
# Heaps on a numbered tree

A `Tree` is given by the parent of every node; the root is `0` and a parent has a smaller
number than its children.  Which children a node has is left open, so the theory applies to
every numbering of an array.

* `Ordered t r n v S` : among the first `n` nodes, each parent in `S` stands in relation
  `r` to its children.
* `Sifting` : the state of sifting down within one subtree, closed under the exchange with
  the first child (`Sifting.swap`) and finished when no child comes before (`Sifting.done`).
* `Ordered.grow` : building the heap from the last parent up to the root.
* `Draining` : a heap on the first `m` nodes and the others placed behind it
  (`Draining.step`), which is a sorted family at the end (`Draining.sorted`).
-/
import Pungoo.Shuffle
import Mathlib.Data.Set.Insert
import Mathlib.Order.Defs.Unbundled

namespace Heap

open Shuffle

/-- A tree on the natural numbers with root `0`. -/
structure Tree where
  parent : ℕ → ℕ
  parent_lt : ∀ {c : ℕ}, 0 < c → parent c < c

/-- The node `c` is a child of `p`; the root is nobody's child. -/
def Tree.IsChild (t : Tree) (c p : ℕ) : Prop := 0 < c ∧ t.parent c = p

/-- The node is in the subtree with root `p`. -/
inductive Tree.Below (t : Tree) (p : ℕ) : ℕ → Prop
  | root : t.Below p p
  | child {k c : ℕ} : t.Below p k → t.IsChild c k → t.Below p c

/-- The nodes of the subtree with root `p`. -/
def Tree.subtree (t : Tree) (p : ℕ) : Set ℕ := {k | t.Below p k}

variable {t : Tree} {α : Type*} {r : α → α → Prop} {n m p q c k : ℕ} {v w : ℕ → α} {S : Set ℕ}

/-! ## The tree -/

theorem Tree.IsChild.lt (h : t.IsChild c p) : p < c := by
  have hlt := t.parent_lt h.1
  rw [h.2] at hlt
  exact hlt

theorem Tree.IsChild.parent_unique (h : t.IsChild c p) (h' : t.IsChild c q) : p = q :=
  h.2.symm.trans h'.2

theorem self_mem_subtree (t : Tree) (p : ℕ) : p ∈ t.subtree p := Tree.Below.root

theorem child_mem_subtree (hk : k ∈ t.subtree p) (hc : t.IsChild c k) : c ∈ t.subtree p :=
  Tree.Below.child hk hc

theorem le_of_mem_subtree (h : k ∈ t.subtree p) : p ≤ k := by
  induction h with
  | root => exact le_refl p
  | child _ hc ih => exact ih.trans (Nat.le_of_lt hc.lt)

/-- A node of a subtree other than its root has its parent there. -/
theorem parent_mem_subtree (hc : t.IsChild c k) (h : c ∈ t.subtree p) (hne : c ≠ p) :
    k ∈ t.subtree p := by
  cases h with
  | root => exact absurd rfl hne
  | child hk hc' =>
    rw [hc.parent_unique hc']
    exact hk

/-- A node of a subtree other than its root is in the subtree of a child of the root. -/
theorem exists_child_of_mem_subtree (h : k ∈ t.subtree p) (hne : k ≠ p) :
    ∃ c, t.IsChild c p ∧ k ∈ t.subtree c := by
  induction h with
  | root => exact absurd rfl hne
  | @child k' c hk hc ih =>
    by_cases hkp : k' = p
    · subst hkp
      exact ⟨c, hc, self_mem_subtree t c⟩
    · obtain ⟨d, hd, hmem⟩ := ih hkp
      exact ⟨d, hd, child_mem_subtree hmem hc⟩

/-- Every node is in the subtree of the root. -/
theorem mem_subtree_zero (t : Tree) (k : ℕ) : k ∈ t.subtree 0 := by
  induction k using Nat.strong_induction_on with
  | _ k ih =>
    rcases Nat.eq_zero_or_pos k with rfl | hk
    · exact self_mem_subtree t 0
    · exact child_mem_subtree (ih (t.parent k) (t.parent_lt hk)) ⟨hk, rfl⟩

/-! ## Ordered parents -/

/-- Among the first `n` nodes, each parent in `S` stands in relation `r` to its children. -/
def Ordered (t : Tree) (r : α → α → Prop) (n : ℕ) (v : ℕ → α) (S : Set ℕ) : Prop :=
  ∀ ⦃c p : ℕ⦄, t.IsChild c p → c < n → p ∈ S → r (v p) (v c)

theorem Ordered.mono {T : Set ℕ} (h : Ordered t r n v T) (hST : S ⊆ T) : Ordered t r n v S := by
  intro c p hc hn hp
  exact h hc hn (hST hp)

/-- With ordered subtrees of the children, only the root itself can be out of order. -/
theorem Ordered.below_root (h : ∀ c, t.IsChild c p → Ordered t r n v (t.subtree c)) :
    Ordered t r n v (t.subtree p \ {p}) := by
  rintro d k hd hn ⟨hk, hne⟩
  obtain ⟨c, hc, hmem⟩ := exists_child_of_mem_subtree hk hne
  exact h c hc hd hn hmem

/-- The root of a heap stands in relation to every node. -/
theorem Ordered.root [Std.Refl r] [IsTrans α r] (h : Ordered t r n v Set.univ) :
    k < n → r (v 0) (v k) := by
  induction k using Nat.strong_induction_on with
  | _ k ih =>
    intro hk
    rcases Nat.eq_zero_or_pos k with rfl | hpos
    · exact refl_of r (v 0)
    · have hlt := t.parent_lt hpos
      have hparent := ih (t.parent k) hlt (hlt.trans hk)
      exact trans_of r hparent (h ⟨hpos, rfl⟩ hk (Set.mem_univ _))

/-- **Building.**  When the parents behind `p` are ordered and a rearrangement of the
subtree of `p` orders that subtree, the parents from `p` on are ordered. -/
theorem Ordered.grow (h : Ordered t r n v {k | p < k})
    (hw : Ordered t r n w (t.subtree p)) (hvw : Shuffled (t.subtree p) v w) :
    Ordered t r n w {k | p ≤ k} := by
  intro c q hc hn hq
  by_cases hmem : q ∈ t.subtree p
  · exact hw hc hn hmem
  · have hpq : p < q := by
      apply lt_of_le_of_ne hq
      rintro rfl
      exact hmem (self_mem_subtree t p)
    -- the pair is not touched: the child is not in the subtree either
    have hcmem : c ∉ t.subtree p := by
      intro hc'
      exact hmem (parent_mem_subtree hc hc' (Nat.ne_of_gt (hpq.trans hc.lt)))
    rw [hvw.eq_of_notMem hmem, hvw.eq_of_notMem hcmem]
    exact h hc hn hpq

/-! ## Sifting down -/

/-- Sifting down in the subtree of `p` has come to `pos`: all parents but `pos` are ordered,
and the parent of `pos` is already ordered with the children of `pos`. -/
structure Sifting (t : Tree) (r : α → α → Prop) (n p : ℕ) (v : ℕ → α) (pos : ℕ) : Prop where
  except : Ordered t r n v (t.subtree p \ {pos})
  across : pos ≠ p → ∀ c, t.IsChild c pos → c < n → r (v (t.parent pos)) (v c)

theorem sifting_start (h : Ordered t r n v (t.subtree p \ {p})) : Sifting t r n p v p :=
  ⟨h, fun hne => absurd rfl hne⟩

/-- The exchange with a child that comes before the node and before its siblings. -/
theorem Sifting.swap (h : Sifting t r n p v q) (hq : q ∈ t.subtree p) (hc : t.IsChild c q)
    (hn : c < n) (hqc : r (v c) (v q)) (hmin : ∀ s, t.IsChild s q → s < n → r (v c) (v s)) :
    Sifting t r n p (v ∘ Equiv.swap q c) c := by
  have hlt := hc.lt
  have hother : ∀ k, k ≠ q → k ≠ c → (v ∘ Equiv.swap q c) k = v k := by
    intro k hkq hkc
    exact congrArg v (Equiv.swap_apply_of_ne_of_ne hkq hkc)
  have hatq : (v ∘ Equiv.swap q c) q = v c := congrArg v (Equiv.swap_apply_left q c)
  have hatc : (v ∘ Equiv.swap q c) c = v q := congrArg v (Equiv.swap_apply_right q c)
  constructor
  · rintro s k hs hsn ⟨hk, hkc⟩
    rw [Set.mem_singleton_iff] at hkc
    have hks := hs.lt
    by_cases hkq : k = q
    · subst hkq
      rw [hatq]
      by_cases hsc : s = c
      · rw [hsc, hatc]
        exact hqc
      · rw [hother s (Nat.ne_of_gt hks) hsc]
        exact hmin s hs hsn
    · rw [hother k hkq hkc]
      by_cases hsq : s = q
      · -- the exchanged child comes below the old parent of the node
        subst hsq
        have hpk := le_of_mem_subtree hk
        have hacross := h.across (by omega) c hc hn
        rw [hs.2] at hacross
        rw [hatq]
        exact hacross
      · have hsc : s ≠ c := by
          rintro rfl
          exact hkq (hs.parent_unique hc)
        rw [hother s hsq hsc]
        exact h.except hs hsn ⟨hk, hkq⟩
  · intro _ d hd hdn
    have hcd := hd.lt
    rw [hc.2, hatq, hother d (by omega) (by omega)]
    exact h.except hd hdn ⟨child_mem_subtree hq hc, by rw [Set.mem_singleton_iff]; omega⟩

theorem Sifting.done (h : Sifting t r n p v q)
    (hq : ∀ s, t.IsChild s q → s < n → r (v q) (v s)) : Ordered t r n v (t.subtree p) := by
  intro c k hc hn hk
  by_cases hkq : k = q
  · subst hkq
    exact hq c hc hn
  · exact h.except hc hn ⟨hk, hkq⟩

/-! ## Taking the root away -/

/-- A heap on the first `m` of `n` nodes, behind which every node comes before all nodes
with a smaller number. -/
structure Draining (t : Tree) (r : α → α → Prop) (n m : ℕ) (v : ℕ → α) : Prop where
  heap : Ordered t r m v Set.univ
  placed : ∀ ⦃i j : ℕ⦄, i ≤ j → m ≤ j → j < n → r (v j) (v i)

theorem draining_start (h : Ordered t r n v Set.univ) : Draining t r n n v := by
  refine ⟨h, ?_⟩
  intro i j _ h1 h2
  omega

/-- After the exchange of the root and the last node, only the root can be out of order. -/
theorem Draining.rest (h : Draining t r n (m + 1) v) :
    Ordered t r m (v ∘ Equiv.swap 0 m) (t.subtree 0 \ {0}) := by
  rintro c k hc hcm ⟨-, hk⟩
  rw [Set.mem_singleton_iff] at hk
  have hkc := hc.lt
  show r (v (Equiv.swap 0 m k)) (v (Equiv.swap 0 m c))
  rw [Equiv.swap_apply_of_ne_of_ne hk (by omega),
    Equiv.swap_apply_of_ne_of_ne (by omega) (by omega)]
  exact h.heap hc (by omega) (Set.mem_univ _)

theorem swap_zero_le {i j : ℕ} (hm : m ≤ j) (hi : i ≤ j) : Equiv.swap 0 m i ≤ j := by
  rcases eq_or_ne i 0 with rfl | hi0
  · rw [Equiv.swap_apply_left]
    exact hm
  · rcases eq_or_ne i m with rfl | him
    · rw [Equiv.swap_apply_right]
      exact Nat.zero_le j
    · rw [Equiv.swap_apply_of_ne_of_ne hi0 him]
      exact hi

/-- **Draining.**  The root is exchanged with the last node of the heap, and the others
are made a heap again. -/
theorem Draining.step [Std.Refl r] [IsTrans α r] (h : Draining t r n (m + 1) v)
    (hw : Shuffled {k | k < m} (v ∘ Equiv.swap 0 m) w) (heap : Ordered t r m w Set.univ) :
    Draining t r n m w := by
  refine ⟨heap, ?_⟩
  intro i j hij hmj hjn
  have hwj : w j = v (Equiv.swap 0 m j) := hw.eq_of_notMem (not_lt.mpr hmj)
  -- all old values up to the position `j` come after the one that is now there
  have hold : ∀ k, k ≤ j → r (w j) (v (Equiv.swap 0 m k)) := by
    intro k hkj
    rw [hwj]
    have hle := swap_zero_le hmj hkj
    rcases Nat.eq_or_lt_of_le hmj with rfl | hlt
    · rw [Equiv.swap_apply_right]
      exact h.heap.root (Nat.lt_succ_of_le hle)
    · rw [Equiv.swap_apply_of_ne_of_ne (by omega) (by omega)]
      exact h.placed hle hlt hjn
  by_cases him : i < m
  · exact hw.forall_mem (P := fun x => r (w j) x)
      (fun k (hk : k < m) => hold k (by omega)) i him
  · rw [show w i = v (Equiv.swap 0 m i) from hw.eq_of_notMem him]
    exact hold i hij

/-- A drained heap is sorted. -/
theorem Draining.sorted [Std.Refl r] (h : Draining t r n m v) (hm : m ≤ 1) {i j : ℕ}
    (hij : i ≤ j) (hj : j < n) : r (v j) (v i) := by
  rcases Nat.eq_zero_or_pos j with rfl | hpos
  · obtain rfl := Nat.le_zero.mp hij
    exact refl_of r (v 0)
  · exact h.placed hij (by omega) hj

end Heap
