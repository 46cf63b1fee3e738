/-
# Hashing by blocks

A hash keeps a state and the elements of a block that is not full.  An element is added to these;
when the block is full, the state is transformed with it.  What a sequence leaves does not depend
on how it is divided, since `feed` is a fold.
-/
import Mathlib.Data.List.Basic
import Mathlib.Tactic.Common

namespace BlockHash

variable {σ α : Type*} (n : ℕ) (f : σ → List α → σ)

/-- An element is added. -/
def absorb (c : σ × List α) (b : α) : σ × List α :=
  if c.2.length + 1 = n then (f c.1 (c.2 ++ [b]), []) else (c.1, c.2 ++ [b])

/-- A sequence is added. -/
def feed (c : σ × List α) (bs : List α) : σ × List α := bs.foldl (absorb n f) c

variable {n : ℕ} {f : σ → List α → σ} {c : σ × List α} {s : σ} {r bs cs : List α}

theorem feed_append : feed n f c (bs ++ cs) = feed n f (feed n f c bs) cs := List.foldl_append

/-- Elements that do not fill the block. -/
theorem feed_short (h : r.length + bs.length < n) : feed n f (s, r) bs = (s, r ++ bs) := by
  induction bs generalizing r with
  | nil => simp [feed]
  | cons b bs ih =>
    rw [List.length_cons] at h
    have hstep : absorb n f (s, r) b = (s, r ++ [b]) := if_neg (by simp only; omega)
    have hrest : (r ++ [b]).length + bs.length < n := by
      rw [List.length_append, List.length_singleton]
      omega
    calc feed n f (s, r) (b :: bs) = feed n f (absorb n f (s, r) b) bs := rfl
      _ = (s, r ++ b :: bs) := by rw [hstep, ih hrest, List.append_assoc, List.singleton_append]

/-- Elements that fill the block. -/
theorem feed_fill (hne : bs ≠ []) (h : r.length + bs.length = n) :
    feed n f (s, r) bs = (f s (r ++ bs), []) := by
  obtain ⟨front, b, rfl⟩ := (List.eq_nil_or_concat bs).resolve_left hne
  rw [List.concat_eq_append] at h ⊢
  rw [List.length_append, List.length_singleton] at h
  have hlast : (r ++ front).length + 1 = n := by
    rw [List.length_append]
    omega
  have hfront : feed n f (s, r) front = (s, r ++ front) := feed_short (by omega)
  rw [feed_append, hfront]
  calc feed n f (s, r ++ front) [b] = absorb n f (s, r ++ front) b := rfl
    _ = (f s (r ++ (front ++ [b])), []) := by rw [absorb, if_pos hlast, List.append_assoc]

/-- The elements of the block that is not full. -/
theorem length_feed (bs : List α) (hr : r.length < n) :
    (feed n f (s, r) bs).2.length = (r.length + bs.length) % n := by
  induction bs generalizing s r with
  | nil => simpa [feed] using (Nat.mod_eq_of_lt hr).symm
  | cons b bs ih =>
    rw [List.length_cons]
    change (feed n f (absorb n f (s, r) b) bs).2.length = _
    by_cases hfull : r.length + 1 = n
    · have hstep : absorb n f (s, r) b = (f s (r ++ [b]), []) := if_pos hfull
      have hsum : r.length + (bs.length + 1) = bs.length + n := by omega
      rw [hstep, ih (by simp only [List.length_nil]; omega), List.length_nil, Nat.zero_add, hsum,
        Nat.add_mod_right]
    · have hstep : absorb n f (s, r) b = (s, r ++ [b]) := if_neg hfull
      have hlen : (r ++ [b]).length = r.length + 1 := by simp
      have hsum : r.length + 1 + bs.length = r.length + (bs.length + 1) := by omega
      rw [hstep, ih (by omega), hlen, hsum]

end BlockHash
