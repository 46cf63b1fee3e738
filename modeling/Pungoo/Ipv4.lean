/-
# The dotted-quad check: `IsValidIpv4` of `cpp/ipv4/ipv4.cpp`

The function walks over a NUL-terminated string with two pointers.  `p` is the
start of the current field; the inner loop reads at most four characters from `q`
on and leaves in `x` the value of the field, or `-1` for an error.  The separator is
consumed by the inner loop.

Pointers are offsets into the string.  Reading beyond the terminator, writing
`num` out of bounds and not ending are `Fault`s of the model, so that their absence
is a theorem (`Ipv4Grammar.lean`) and not an assumption.
-/
import Mathlib.Data.List.Basic
import Mathlib.Data.Int.Notation

namespace Ipv4

/-- The character that ends a C string. -/
def nul : Char := Char.ofNat 0

/-- A C string: the characters before its terminator. -/
structure CString where
  chars : List Char
  nul_not_mem : nul ∉ chars

/-- What a run of the C function must not do. -/
inductive Fault
  | badRead
  | badWrite
  | outOfFuel
  deriving DecidableEq

/-- `*(ip + i)`: the terminator may be read, nothing behind it. -/
def CString.read (s : CString) (i : ℕ) : Except Fault Char :=
  if h : i < s.chars.length then .ok s.chars[i]
  else if i = s.chars.length then .ok nul
  else .error .badRead

/-- `num[idx] = x` on an array of four. -/
def writeNum (num : List ℤ) (idx : ℕ) (x : ℤ) : Except Fault (List ℤ) :=
  if idx < 4 then .ok (num.set idx x) else .error .badWrite

/-! ## The field scanner -/

/-- The inner loop, with `left` iterations still allowed.  It yields `x` and `q` as
they are after the loop; every `break` that sets `x` to `-1` leaves `q` in place. -/
def scanField (s : CString) : ℕ → ℕ → ℤ → Except Fault (ℤ × ℕ)
  | 0, q, x => .ok (x, q)
  | left + 1, q, x => do
    let c ← s.read q
    if c = '.' then
      .ok (x, q + 1)
    else if c = nul then
      .ok (x, q)
    else
      let tmp : ℤ := (c.toNat : ℤ) - 48
      if tmp = 0 ∧ x = 0 then
        .ok (-1, q)
      else if tmp > 9 ∨ tmp < 0 then
        .ok (-1, q)
      else if x = -1 then
        if tmp > 255 then .ok (-1, q) else scanField s left (q + 1) tmp
      else if x = 0 then
        .ok (-1, q)
      else
        if x * 10 + tmp > 255 then .ok (-1, q) else scanField s left (q + 1) (x * 10 + tmp)

/-! ## The outer loop -/

/-- `while ('\0' != *p)`; `fuel` bounds the number of iterations. -/
def checkFields (s : CString) : ℕ → ℕ → ℕ → List ℤ → Except Fault Bool
  | 0, _, _, _ => .error .outOfFuel
  | fuel + 1, p, idx, num => do
    let c ← s.read p
    if c = nul then
      .ok true
    else
      let (x, q) ← scanField s 4 p (-1)
      if x ≠ -1 then
        if idx = 0 ∧ x = 0 then
          .ok false
        else
          let num ← writeNum num idx x
          let idx := idx + 1
          if idx = 4 then
            let c ← s.read q
            if c ≠ nul then .ok false else checkFields s fuel q idx num
          else
            checkFields s fuel q idx num
      else
        .ok false

/-- `IsValidIpv4`. -/
def isValidIpv4 (ip : CString) : Except Fault Bool :=
  checkFields ip (ip.chars.length + 1) 0 0 [-1, -1, -1, -1]

/-! ## Reading at a position -/

/-- The pointer `p` is inside the string or at its terminator, and `t` follows it. -/
structure CString.At (s : CString) (p : ℕ) (t : List Char) : Prop where
  le : p ≤ s.chars.length
  drop_eq : s.chars.drop p = t

theorem at_zero (s : CString) : s.At 0 s.chars := ⟨Nat.zero_le _, rfl⟩

theorem at_cons {s : CString} {p : ℕ} {c : Char} {t : List Char} (h : s.At p (c :: t)) :
    s.read p = .ok c ∧ c ≠ nul ∧ s.At (p + 1) t := by
  have hlt : p < s.chars.length := by
    by_contra hge
    have hnil := List.drop_eq_nil_of_le (Nat.le_of_not_lt hge)
    rw [h.drop_eq] at hnil
    exact absurd hnil (by simp)
  have hcons := h.drop_eq
  rw [List.drop_eq_getElem_cons hlt, List.cons.injEq] at hcons
  refine ⟨?_, ?_, hlt, hcons.2⟩
  · rw [CString.read, dif_pos hlt, hcons.1]
  · rintro rfl
    exact s.nul_not_mem (hcons.1 ▸ List.getElem_mem hlt)

theorem at_nil {s : CString} {p : ℕ} (h : s.At p []) : s.read p = .ok nul := by
  have hge : s.chars.length ≤ p := List.drop_eq_nil_iff.mp h.drop_eq
  have hp : p = s.chars.length := Nat.le_antisymm h.le hge
  rw [CString.read, dif_neg (by omega), if_pos hp]

theorem at_append {s : CString} {p : ℕ} {f t : List Char} (h : s.At p (f ++ t)) :
    s.At (p + f.length) t := by
  induction f generalizing p with
  | nil => exact h
  | cons c f ih =>
    have hnext := ih (at_cons h).2.2
    rw [List.length_cons, Nat.add_comm f.length 1, ← Nat.add_assoc]
    exact hnext

end Ipv4
