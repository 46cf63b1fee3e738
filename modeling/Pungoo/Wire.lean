/-
# Bytes on a wire

Numbers as big-endian bytes, and a buffer of fixed size into which bytes are copied at an
offset.  A message with a length in front of its body is often written body first: the
length is patched in when it is known.  `write` is the copy; two copies that touch are one
copy, in either order.
-/
import Mathlib.Data.List.Basic
import Mathlib.Tactic.Ring

namespace Wire

/-! ## Big-endian numbers -/

/-- A sequence of bytes. -/
abbrev Bytes := List UInt8

/-- The lowest `k` bytes of `n`, the highest of them first. -/
def be : ℕ → ℕ → Bytes
  | 0, _ => []
  | k + 1, n => UInt8.ofNat (n / 256 ^ k) :: be k n

/-- The number written by `bs`, the highest byte first. -/
def ofBe : Bytes → ℕ
  | [] => 0
  | b :: bs => b.toNat * 256 ^ bs.length + ofBe bs

@[simp] theorem length_be (k n : ℕ) : (be k n).length = k := by
  induction k with
  | zero => rfl
  | succ k ih => simp [be, ih]

/-- Reading back gives the number modulo the width. -/
theorem ofBe_be (k n : ℕ) : ofBe (be k n) = n % 256 ^ k := by
  induction k with
  | zero => simp [be, ofBe, Nat.mod_one]
  | succ k ih =>
    have hhead : (UInt8.ofNat (n / 256 ^ k)).toNat = n / 256 ^ k % 256 := by simp
    rw [be, ofBe, hhead, ih, length_be, Nat.mod_pow_succ]
    ring

/-- A number that fits is read back. -/
theorem ofBe_be_of_lt {k n : ℕ} (h : n < 256 ^ k) : ofBe (be k n) = n := by
  rw [ofBe_be, Nat.mod_eq_of_lt h]

/-- Only the number modulo the width is written. -/
theorem be_mod (k n : ℕ) : be k (n % 256 ^ k) = be k n := by
  induction k generalizing n with
  | zero => rfl
  | succ k ih =>
    have hhead : n % 256 ^ (k + 1) / 256 ^ k = n / 256 ^ k % 256 := by
      rw [Nat.pow_succ, Nat.mod_mul_right_div_self]
    have htail : be k (n % 256 ^ (k + 1)) = be k n := by
      rw [← ih (n % 256 ^ (k + 1)), Nat.mod_mod_of_dvd n (Nat.pow_dvd_pow 256 (Nat.le_succ k)),
        ih]
    have hbyte : UInt8.ofNat (n / 256 ^ k % 256) = UInt8.ofNat (n / 256 ^ k) :=
      UInt8.ofNat_mod_size
    rw [be, be, hhead, htail, hbyte]

theorem be_ne_nil {k : ℕ} (n : ℕ) (hk : 0 < k) : be k n ≠ [] := by
  rw [← List.length_pos_iff, length_be]
  exact hk

/-! ## Copying into a buffer -/

variable {α : Type*}

/-- `memcpy` of `bs` to offset `o` of `buf`. -/
def write (buf : List α) (o : ℕ) (bs : List α) : List α :=
  buf.take o ++ bs ++ buf.drop (o + bs.length)

/-- The `n` elements from offset `o` on. -/
def slice (buf : List α) (o n : ℕ) : List α := (buf.drop o).take n

variable {buf as bs : List α} {o n : ℕ}

/-- A copy that fits keeps the size of the buffer. -/
theorem length_write (h : o + bs.length ≤ buf.length) :
    (write buf o bs).length = buf.length := by
  simp only [write, List.length_append, List.length_take, List.length_drop]
  omega

/-- The elements of a buffer after a copy. -/
theorem getElem?_write (h : o + bs.length ≤ buf.length) (i : ℕ) :
    (write buf o bs)[i]? =
      if i < o then buf[i]? else if i < o + bs.length then bs[i - o]? else buf[i]? := by
  have ho : (buf.take o).length = o := by rw [List.length_take]; omega
  rcases lt_or_ge i o with hi | hi
  · rw [write, List.append_assoc, List.getElem?_append_left (by omega), if_pos hi,
      List.getElem?_take_of_lt hi]
  · rw [write, List.append_assoc, List.getElem?_append_right (by omega), ho,
      if_neg (by omega)]
    rcases lt_or_ge i (o + bs.length) with hin | hin
    · rw [List.getElem?_append_left (by omega), if_pos hin]
    · rw [List.getElem?_append_right (by omega), if_neg (by omega), List.getElem?_drop]
      congr 1
      omega

@[simp] theorem write_nil (h : o ≤ buf.length) : write buf o ([] : List α) = buf := by
  apply List.ext_getElem?
  intro i
  rw [getElem?_write (by simpa using h)]
  split_ifs with h₁ h₂
  · rfl
  · simp only [List.length_nil] at h₂; omega
  · rfl

/-- Two copies, the second where the first ends. -/
theorem write_write_after (h : o + as.length + bs.length ≤ buf.length) :
    write (write buf o as) (o + as.length) bs = write buf o (as ++ bs) := by
  have has : o + as.length ≤ buf.length := by omega
  have hboth : o + (as ++ bs).length ≤ buf.length := by rw [List.length_append]; omega
  apply List.ext_getElem?
  intro i
  rw [getElem?_write (by rw [length_write has]; exact h), getElem?_write has,
    getElem?_write hboth]
  simp only [List.length_append, List.getElem?_append]
  split_ifs <;> first | rfl | omega | (congr 1; omega)

/-- Two copies, the second in front of the first: a length patched in. -/
theorem write_write_before (h : o + as.length + bs.length ≤ buf.length) :
    write (write buf (o + as.length) bs) o as = write buf o (as ++ bs) := by
  have hbs : o + as.length + bs.length ≤ buf.length := h
  have has : o + as.length ≤ buf.length := by omega
  have hboth : o + (as ++ bs).length ≤ buf.length := by rw [List.length_append]; omega
  apply List.ext_getElem?
  intro i
  rw [getElem?_write (by rw [length_write hbs]; exact has), getElem?_write hbs,
    getElem?_write hboth]
  simp only [List.length_append, List.getElem?_append]
  split_ifs <;> first | rfl | omega | (congr 1; omega)

/-- The buffer around a copy. -/
theorem take_write (h : o ≤ buf.length) : (write buf o bs).take o = buf.take o := by
  rw [write, List.append_assoc, List.take_append_of_le_length (by rw [List.length_take]; omega),
    List.take_take, Nat.min_self]

/-- Up to its end, the buffer is what it was before the copy and the copied elements. -/
theorem take_write_end (bs : List α) (h : o ≤ buf.length) :
    (write buf o bs).take (o + bs.length) = buf.take o ++ bs := by
  have hlen : (buf.take o ++ bs).length = o + bs.length := by
    rw [List.length_append, List.length_take]; omega
  rw [write, List.take_append_of_le_length (by omega), ← hlen, List.take_length]

theorem drop_write (bs : List α) (h : o ≤ buf.length) :
    (write buf o bs).drop (o + bs.length) = buf.drop (o + bs.length) := by
  have hlen : (buf.take o ++ bs).length = o + bs.length := by
    rw [List.length_append, List.length_take]; omega
  rw [write, List.drop_left' hlen]

/-- What was copied is there. -/
theorem slice_write (h : o ≤ buf.length) : slice (write buf o bs) o bs.length = bs := by
  have ho : (buf.take o).length = o := by rw [List.length_take]; omega
  rw [slice, write, List.append_assoc, List.drop_left' ho, List.take_left]

theorem length_slice (h : o + n ≤ buf.length) : (slice buf o n).length = n := by
  rw [slice, List.length_take, List.length_drop]
  omega

theorem getElem?_slice (i : ℕ) :
    (slice buf o n)[i]? = if i < n then buf[o + i]? else none := by
  simp [slice, List.getElem?_take]

/-- The middle of three parts. -/
theorem slice_append (as bs cs : List α) (ho : o = as.length) (hn : n = bs.length) :
    slice (as ++ (bs ++ cs)) o n = bs := by
  subst ho hn
  rw [slice, List.drop_left, List.take_left]

/-- A copy into a part of a buffer is a copy into the buffer. -/
theorem write_slice (h : o + n ≤ buf.length) (hbs : bs.length ≤ n) :
    write buf o (write (slice buf o n) 0 bs) = write buf o bs := by
  have hslice : (slice buf o n).length = n := length_slice h
  have hinner : (write (slice buf o n) 0 bs).length = n := by
    rw [length_write (by omega), hslice]
  have houter : o + (write (slice buf o n) 0 bs).length ≤ buf.length := by omega
  have hwhole : o + bs.length ≤ buf.length := by omega
  apply List.ext_getElem?
  intro i
  rw [getElem?_write houter, getElem?_write (by omega), getElem?_write hwhole, getElem?_slice,
    hinner]
  split_ifs <;> first | rfl | omega | (congr 1; omega)

end Wire
