/-
# Distinct values in windows of a sequence

For a sequence `f : ℕ → α` and positions `a ≤ b` the window `[a, b)` has the set of
values `values f a b`; `distinct f a b` is its size and `occ f a b c` counts how often
`c` occurs.  All three change by at most one when an end of the window moves by one.

On a periodic sequence a window of a whole period has all the values
(`values_period`), and a value that occurs once a period is found at one place
only (`eq_of_single`).
-/
import Mathlib.Data.Finset.Card
import Mathlib.Data.Finset.Image
import Mathlib.Order.Interval.Finset.Nat
import Mathlib.Data.Nat.SuccPred
import Mathlib.Algebra.Order.Interval.Finset.SuccPred

namespace Window

variable {α : Type*} [DecidableEq α] (f : ℕ → α)

/-- The values in the window `[a, b)`. -/
def values (a b : ℕ) : Finset α := (Finset.Ico a b).image f

/-- The number of distinct values in the window `[a, b)`. -/
def distinct (a b : ℕ) : ℕ := (values f a b).card

/-- The number of positions of the window `[a, b)` that hold `c`. -/
def occ (a b : ℕ) (c : α) : ℕ := ((Finset.Ico a b).filter fun p => f p = c).card

variable {f} {a a' b b' n m : ℕ} {c : α}

/-- The values of a window. -/
theorem mem_values : c ∈ values f a b ↔ ∃ p, a ≤ p ∧ p < b ∧ f p = c := by
  simp only [values, Finset.mem_image, Finset.mem_Ico]
  exact ⟨fun ⟨p, ⟨h1, h2⟩, h⟩ => ⟨p, h1, h2, h⟩, fun ⟨p, h1, h2, h⟩ => ⟨p, ⟨h1, h2⟩, h⟩⟩

/-! ## Moving an end -/

@[simp] theorem values_self : values f a a = ∅ := by
  unfold values
  rw [Finset.Ico_self, Finset.image_empty]

/-- A window that grows at its end. -/
theorem values_succ_right (h : a ≤ b) : values f a (b + 1) = insert (f b) (values f a b) := by
  rw [values, values, ← Finset.image_insert, Finset.insert_Ico_right_eq_Ico_add_one h]

/-- A window without its first place. -/
theorem values_left (h : a < b) : values f a b = insert (f a) (values f (a + 1) b) := by
  rw [values, values, ← Finset.image_insert, Finset.insert_Ico_add_one_left_eq_Ico h]

/-- A window inside another has fewer values. -/
theorem values_subset (ha : a' ≤ a) (hb : b ≤ b') : values f a b ⊆ values f a' b' :=
  Finset.image_subset_image (Finset.Ico_subset_Ico ha hb)

@[simp] theorem distinct_self : distinct f a a = 0 := by
  unfold distinct
  rw [values_self, Finset.card_empty]

/-- A window inside another has fewer distinct values. -/
theorem distinct_mono (ha : a' ≤ a) (hb : b ≤ b') : distinct f a b ≤ distinct f a' b' :=
  Finset.card_le_card (values_subset ha hb)

/-- One more place brings at most one more value. -/
theorem distinct_succ_right_le (h : a ≤ b) : distinct f a (b + 1) ≤ distinct f a b + 1 := by
  unfold distinct
  rw [values_succ_right h]
  exact Finset.card_insert_le _ _

/-- A window has at most as many values as places. -/
theorem distinct_le_length : distinct f a b ≤ b - a := by
  unfold distinct
  rw [values, ← Nat.card_Ico]
  exact Finset.card_image_le

/-- A window that is not empty has a value. -/
theorem distinct_pos (h : a < b) : 0 < distinct f a b :=
  Finset.card_pos.mpr ⟨f a, mem_values.mpr ⟨a, le_refl a, h, rfl⟩⟩

/-- Growing a window one by one meets every number of distinct values on the way. -/
theorem exists_distinct_eq {len : ℕ} (h : m ≤ distinct f a (a + len)) :
    ∃ k, k ≤ len ∧ distinct f a (a + k) = m := by
  induction len with
  | zero =>
    rw [Nat.add_zero, distinct_self] at h
    exact ⟨0, le_refl 0, by rw [Nat.add_zero, distinct_self]; omega⟩
  | succ len ih =>
    have hsucc := distinct_succ_right_le (f := f) (Nat.le_add_right a len)
    by_cases hm : m ≤ distinct f a (a + len)
    · obtain ⟨k, hk, heq⟩ := ih hm
      exact ⟨k, by omega, heq⟩
    · exact ⟨len + 1, le_refl _, by rw [← Nat.add_assoc] at h ⊢; omega⟩

/-- Dropping a value that occurs again leaves the set of values. -/
theorem values_drop_left_of_mem (h : a < b) (hmem : f a ∈ values f (a + 1) b) :
    values f (a + 1) b = values f a b := by
  rw [values_left h, Finset.insert_eq_of_mem hmem]

/-- Dropping a value that does not occur again loses exactly it. -/
theorem distinct_drop_left_of_not_mem (h : a < b) (hmem : f a ∉ values f (a + 1) b) :
    distinct f a b = distinct f (a + 1) b + 1 := by
  rw [distinct, distinct, values_left h, Finset.card_insert_of_notMem hmem]

/-- A value that raises the number of distinct values was not there before. -/
theorem not_mem_of_distinct_lt (h : a ≤ b) (hlt : distinct f a b < distinct f a (b + 1)) :
    f b ∉ values f a b := by
  intro hmem
  rw [distinct, distinct, values_succ_right h, Finset.insert_eq_of_mem hmem] at hlt
  exact lt_irrefl _ hlt

/-! ## Counting occurrences -/

theorem occ_self : occ f a a c = 0 := by
  unfold occ
  rw [Finset.Ico_self, Finset.filter_empty, Finset.card_empty]

/-- The occurrences in a window that grows at its end. -/
theorem occ_succ_right (h : a ≤ b) :
    occ f a (b + 1) c = occ f a b c + if f b = c then 1 else 0 := by
  rw [occ, ← Finset.insert_Ico_right_eq_Ico_add_one h, Finset.filter_insert]
  by_cases hb : f b = c
  · rw [if_pos hb, if_pos hb, Finset.card_insert_of_notMem (by simp), occ]
  · rw [if_neg hb, if_neg hb, occ, Nat.add_zero]

/-- The occurrences in a window without its first place. -/
theorem occ_left (h : a < b) :
    occ f a b c = occ f (a + 1) b c + if f a = c then 1 else 0 := by
  rw [occ, ← Finset.insert_Ico_add_one_left_eq_Ico h, Finset.filter_insert]
  by_cases ha : f a = c
  · rw [if_pos ha, if_pos ha, Finset.card_insert_of_notMem (by simp), occ]
  · rw [if_neg ha, if_neg ha, occ, Nat.add_zero]

/-- What occurs is a value. -/
theorem occ_pos_iff : 0 < occ f a b c ↔ c ∈ values f a b := by
  unfold occ
  rw [Finset.card_pos, mem_values]
  constructor
  · rintro ⟨p, hp⟩
    rw [Finset.mem_filter, Finset.mem_Ico] at hp
    exact ⟨p, hp.1.1, hp.1.2, hp.2⟩
  · rintro ⟨p, h1, h2, h⟩
    exact ⟨p, Finset.mem_filter.mpr ⟨Finset.mem_Ico.mpr ⟨h1, h2⟩, h⟩⟩

/-! ## Periodic sequences -/

/-- `f` repeats after `n` positions. -/
def Periodic (f : ℕ → α) (n : ℕ) : Prop := 0 < n ∧ ∀ p, f p = f (p % n)

/-- The position `p` of the first period holds a value that no other one holds. -/
def Single (f : ℕ → α) (n p : ℕ) : Prop := p < n ∧ ∀ q < n, f q = f p → q = p

/-- A position with remainder `p` is `p` itself or at least a period later. -/
theorem eq_or_add_le_of_mod_eq {p q : ℕ} (h : q % n = p) : q = p ∨ p + n ≤ q := by
  by_cases hq : q < n
  · rw [Nat.mod_eq_of_lt hq] at h
    exact Or.inl h
  · have hle := Nat.mod_le (q - n) n
    rw [Nat.mod_eq_sub_mod (not_lt.mp hq)] at h
    omega

/-- Every remainder has its position in a window of a whole period. -/
theorem exists_mod_eq (a : ℕ) {p : ℕ} (hp : p < n) :
    ∃ q, a ≤ q ∧ q < a + n ∧ q % n = p := by
  have hdiv := Nat.div_add_mod a n
  have hmod := Nat.mod_lt a (Nat.lt_of_le_of_lt (Nat.zero_le p) hp)
  by_cases hle : a % n ≤ p
  · refine ⟨n * (a / n) + p, by omega, by omega, ?_⟩
    rw [Nat.mul_add_mod, Nat.mod_eq_of_lt hp]
  · refine ⟨n * (a / n + 1) + p, by rw [Nat.mul_add]; omega, by rw [Nat.mul_add]; omega, ?_⟩
    rw [Nat.mul_add_mod, Nat.mod_eq_of_lt hp]

/-- Every window of a periodic sequence has its values in one period. -/
theorem values_subset_period (hf : Periodic f n) : values f a b ⊆ values f 0 n := by
  intro c hc
  obtain ⟨p, -, -, rfl⟩ := mem_values.mp hc
  exact mem_values.mpr ⟨p % n, Nat.zero_le _, Nat.mod_lt _ hf.1, (hf.2 p).symm⟩

/-- No window has more values than a period. -/
theorem distinct_le_period (hf : Periodic f n) : distinct f a b ≤ distinct f 0 n :=
  Finset.card_le_card (values_subset_period hf)

/-- A window of a whole period has all the values. -/
theorem values_period (hf : Periodic f n) (h : a + n ≤ b) : values f a b = values f 0 n := by
  apply Finset.Subset.antisymm (values_subset_period hf)
  intro c hc
  obtain ⟨p, -, hp, rfl⟩ := mem_values.mp hc
  obtain ⟨q, hq1, hq2, hq⟩ := exists_mod_eq a hp
  exact mem_values.mpr ⟨q, hq1, by omega, by rw [hf.2 q, hq]⟩

/-- A window of a period or more has all values. -/
theorem distinct_period (hf : Periodic f n) (h : a + n ≤ b) :
    distinct f a b = distinct f 0 n := by
  rw [distinct, distinct, values_period hf h]

omit [DecidableEq α] in
/-- A value held once a period is found only at the positions congruent to it. -/
theorem eq_of_single (hf : Periodic f n) {p q : ℕ} (hp : Single f n p) (h : f q = f p) :
    q % n = p :=
  hp.2 (q % n) (Nat.mod_lt _ hf.1) (by rw [← hf.2 q, h])

/-- With all the values in a window, a value held once a period is in it. -/
theorem exists_single_of_distinct_eq (hf : Periodic f n) {p : ℕ} (hp : Single f n p)
    (h : distinct f a b = distinct f 0 n) : ∃ q, a ≤ q ∧ q < b ∧ q % n = p := by
  have hall : values f a b = values f 0 n :=
    Finset.eq_of_subset_of_card_le (values_subset_period hf) (le_of_eq h.symm)
  have hmem : f p ∈ values f a b := by
    rw [hall]
    exact mem_values.mpr ⟨p, Nat.zero_le _, hp.1, rfl⟩
  obtain ⟨q, h1, h2, hq⟩ := mem_values.mp hmem
  exact ⟨q, h1, h2, eq_of_single hf hp hq⟩

/-- A window one short of a period that misses the next value: that value is held once. -/
theorem single_of_not_mem (hf : Periodic f n) (h : f (a + n - 1) ∉ values f a (a + n - 1)) :
    Single f n ((a + n - 1) % n) := by
  have hn := hf.1
  refine ⟨Nat.mod_lt _ hn, ?_⟩
  intro q hq heq
  rw [← hf.2 (a + n - 1)] at heq
  by_contra hne
  -- `[a, a + n - 1)` holds every position but one of the period
  obtain ⟨r, hr1, hr2, hr⟩ := exists_mod_eq a hq
  have hr3 : r ≠ a + n - 1 := by
    rintro rfl
    exact hne hr.symm
  exact h (mem_values.mpr ⟨r, hr1, by omega, by rw [hf.2 r, hr, heq]⟩)

end Window
