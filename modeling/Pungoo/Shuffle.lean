/-
# Rearrangements that stay within a set of positions

`Shuffled S v w` : the family `w` is the family `v` with the values at the positions of
`S` permuted among themselves.  In one statement this is the permutation of the range
`S` and the frame around it, and it composes:

* `Shuffled.trans`, `Shuffled.mono`, `shuffled_swap` : how rearrangements are built;
* `Shuffled.eq_of_notMem`, `Shuffled.forall_mem` : what they keep;
* `Shuffled.perm` : two lists shuffled within their length are permutations of each other.
-/
import Mathlib.Data.List.Nodup
import Mathlib.Data.List.Range
import Mathlib.Data.Set.Basic
import Mathlib.Logic.Equiv.Basic

namespace Shuffle

variable {ι α : Type*} {S T : Set ι} {u v w : ι → α}

/-- `w` is `v` with the values at the positions of `S` permuted among themselves. -/
def Shuffled (S : Set ι) (v w : ι → α) : Prop :=
  ∃ σ : Equiv.Perm ι, (∀ k, k ∉ S → σ k = k) ∧ w = v ∘ σ

theorem Shuffled.refl (S : Set ι) (v : ι → α) : Shuffled S v v :=
  ⟨Equiv.refl ι, fun _ _ => rfl, rfl⟩

/-- One shuffle behind another. -/
theorem Shuffled.trans (h : Shuffled S u v) (h' : Shuffled S v w) : Shuffled S u w := by
  obtain ⟨σ, hσ, rfl⟩ := h
  obtain ⟨τ, hτ, rfl⟩ := h'
  refine ⟨τ.trans σ, ?_, rfl⟩
  intro k hk
  show σ (τ k) = k
  rw [hτ k hk, hσ k hk]

/-- A shuffle of fewer places. -/
theorem Shuffled.mono (hST : S ⊆ T) (h : Shuffled S v w) : Shuffled T v w := by
  obtain ⟨σ, hσ, rfl⟩ := h
  refine ⟨σ, ?_, rfl⟩
  intro k hk
  apply hσ
  intro hS
  exact hk (hST hS)

/-- A swap of two places shuffles. -/
theorem shuffled_swap [DecidableEq ι] {i j : ι} (hi : i ∈ S) (hj : j ∈ S) (v : ι → α) :
    Shuffled S v (v ∘ Equiv.swap i j) := by
  refine ⟨Equiv.swap i j, ?_, rfl⟩
  intro k hk
  apply Equiv.swap_apply_of_ne_of_ne
  · rintro rfl
    exact hk hi
  · rintro rfl
    exact hk hj

/-- Outside of `S` nothing changes. -/
theorem Shuffled.eq_of_notMem (h : Shuffled S v w) {k : ι} (hk : k ∉ S) : w k = v k := by
  obtain ⟨σ, hσ, rfl⟩ := h
  show v (σ k) = v k
  rw [hσ k hk]

/-- The values within `S` are the old values within `S`. -/
theorem Shuffled.exists_eq (h : Shuffled S v w) {k : ι} (hk : k ∈ S) : ∃ i ∈ S, w k = v i := by
  obtain ⟨σ, hσ, rfl⟩ := h
  refine ⟨σ k, ?_, rfl⟩
  by_contra hmem
  -- a position outside is its own image, so the image of `k` would be the image of `σ k`
  have hfix : σ (σ k) = σ k := hσ (σ k) hmem
  rw [σ.injective hfix] at hmem
  exact hmem hk

/-- What holds of all values within `S` holds of them after the rearrangement. -/
theorem Shuffled.forall_mem {P : α → Prop} (h : Shuffled S v w) (hv : ∀ k ∈ S, P (v k)) :
    ∀ k ∈ S, P (w k) := by
  intro k hk
  obtain ⟨i, hi, heq⟩ := h.exists_eq hk
  rw [heq]
  exact hv i hi

/-! ## Lists -/

/-- A list is its cells. -/
theorem map_getD_range (xs : List α) (d : α) :
    (List.range xs.length).map (fun k => xs.getD k d) = xs := by
  apply List.ext_getElem
  · simp
  · intro k hk hk'
    simp [hk']

/-- A permutation of the positions below `n` permutes the list of them. -/
theorem map_perm_range {n : ℕ} {σ : Equiv.Perm ℕ} (hσ : ∀ k, ¬ k < n → σ k = k) :
    ((List.range n).map σ).Perm (List.range n) := by
  have hnodup : ((List.range n).map σ).Nodup := List.Nodup.map σ.injective List.nodup_range
  apply (List.perm_ext_iff_of_nodup hnodup List.nodup_range).mpr
  intro k
  rw [List.mem_map, List.mem_range]
  constructor
  · rintro ⟨i, hi, rfl⟩
    rw [List.mem_range] at hi
    by_contra hk
    rw [σ.injective (hσ (σ i) hk)] at hk
    exact hk hi
  · intro hk
    refine ⟨σ.symm k, ?_, σ.apply_symm_apply k⟩
    rw [List.mem_range]
    by_contra hi
    have hfix := hσ (σ.symm k) hi
    rw [σ.apply_symm_apply] at hfix
    rw [← hfix] at hi
    exact hi hk

/-- Lists that are shuffled within their length are permutations of each other. -/
theorem Shuffled.perm {xs ys : List α} {d : α} (hlen : ys.length = xs.length)
    (h : Shuffled {k | k < xs.length} (fun k => xs.getD k d) (fun k => ys.getD k d)) :
    ys.Perm xs := by
  obtain ⟨σ, hσ, heq⟩ := h
  rw [← map_getD_range ys d, ← map_getD_range xs d, heq, hlen, ← List.map_map]
  exact (map_perm_range hσ).map _

end Shuffle
