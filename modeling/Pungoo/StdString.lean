/-
# The strings of the C++ library, and reading an `int` from one

A string is the list of its characters; a `size_t` is a number below `2 ^ 64`, and its
operations wrap.  What throws is an error, and so is an index the library does not check.

* `find`, `substr`, `get` : the members of `std::string`, for any position;
* `stoi` : reading an `int`, with the texts it accepts in `stoi_eq_ok_iff`.
-/
import Pungoo.Decimal
import Pungoo.IntArray

namespace StdString

open IntArray (intMin intMax)

/-- An exception that is thrown, or an index outside of the string. -/
inductive Failure
  | invalidArgument
  | outOfRange
  | badIndex
  deriving DecidableEq, Repr

/-- `int`. -/
abbrev CInt := {x : ℤ // intMin ≤ x ∧ x ≤ intMax}

/-- `size_t` subtraction. -/
def sizeSub (a b : ℕ) : ℕ := (a + 2 ^ 64 - b) % 2 ^ 64

/-- `std::string::npos`. -/
def npos : ℕ := sizeSub 0 1

/-- `std::string`: its characters, fewer than `npos`. -/
structure Str where
  chars : List Char
  length_lt : chars.length < npos

/-- `size()`. -/
def Str.size (s : Str) : ℕ := s.chars.length

/-- `find(c)`. -/
def Str.find (s : Str) (c : Char) : ℕ := if c ∈ s.chars then s.chars.idxOf c else npos

/-- `substr(pos, n)`. -/
def Str.substr (s : Str) (pos n : ℕ) : Except Failure Str :=
  if pos ≤ s.size then
    .ok ⟨(s.chars.drop pos).take n, by
      have h := s.length_lt
      rw [List.length_take, List.length_drop]
      omega⟩
  else .error .outOfRange

/-- `s[i]`; behind the last character is the terminator. -/
def Str.get (s : Str) (i : ℕ) : Except Failure Char :=
  if h : i < s.chars.length then .ok s.chars[i]
  else if i = s.size then .ok (Char.ofNat 0)
  else .error .badIndex

/-- `stoi(s)`. -/
def stoi (s : Str) : Except Failure CInt :=
  match Decimal.scan s.chars with
  | none => .error .invalidArgument
  | some (n, _) => if h : intMin ≤ n ∧ n ≤ intMax then .ok ⟨n, h⟩ else .error .outOfRange

/-! ## Results that are returned -/

variable {s : Str} {n : CInt} {pos m : ℕ} {c : Char} {t u : List Char}

/-- What is returned has no bad index. -/
theorem ok_ne_badIndex {α : Type} (a : α) : (.ok a : Except Failure α) ≠ .error .badIndex := by
  simp

/-- A bind indexes outside of the string only when one of its parts does. -/
theorem bind_ne_badIndex {α β : Type} {x : Except Failure α} {f : α → Except Failure β}
    (hx : x ≠ .error .badIndex) (hf : ∀ a, f a ≠ .error .badIndex) :
    (x >>= f) ≠ .error .badIndex := by
  cases x with
  | ok a => exact hf a
  | error e => exact fun h => hx (congrArg _ (Except.error.inj h))

/-- A difference of sizes is exact if it is not negative. -/
theorem sizeSub_eq {a b : ℕ} (hb : b ≤ a) (ha : a < 2 ^ 64) : sizeSub a b = a - b := by
  unfold sizeSub
  rw [Nat.add_comm, Nat.add_sub_assoc hb, Nat.add_mod_left, Nat.mod_eq_of_lt (by omega)]

/-- `npos` is the largest `size_t`. -/
theorem npos_eq : npos = 2 ^ 64 - 1 := rfl

/-- No string is as long as `npos`. -/
theorem size_lt (s : Str) : s.size < 2 ^ 64 - 1 := s.length_lt

/-- `substr` inside the string. -/
theorem substr_eq_ok (h : pos ≤ s.size) :
    ∃ r, s.substr pos m = .ok r ∧ r.chars = (s.chars.drop pos).take m := by
  unfold Str.substr
  rw [if_pos h]
  exact ⟨_, rfl, rfl⟩

/-- `substr` throws rather than index outside of the string. -/
theorem substr_ne_badIndex (s : Str) (pos m : ℕ) : s.substr pos m ≠ .error .badIndex := by
  unfold Str.substr
  split_ifs
  · simp
  · simp

/-- An index inside the string. -/
theorem get_eq_ok (h : pos < s.chars.length) : s.get pos = .ok s.chars[pos] := by
  unfold Str.get
  rw [dif_pos h]

/-- `find` returns the first position of the character. -/
theorem find_eq (hs : s.chars = t ++ c :: u) (ht : c ∉ t) : s.find c = t.length := by
  unfold Str.find
  rw [hs, if_pos (List.mem_append_right t List.mem_cons_self), List.idxOf_append_of_notMem ht,
    List.idxOf_cons_self, Nat.add_zero]

/-- `find` returns `npos` if there is none. -/
theorem find_eq_npos (h : c ∉ s.chars) : s.find c = npos := if_neg h

/-- A text is read as an `int` when it starts with white space, a sign and digits, whatever
follows them, and the value is in range. -/
theorem stoi_eq_ok_iff : stoi s = .ok n ↔ ∃ rest, Decimal.Reads s.chars n rest := by
  unfold stoi
  cases hscan : Decimal.scan s.chars with
  | none =>
    refine iff_of_false (by simp) ?_
    rintro ⟨rest, hreads⟩
    rw [Decimal.scan_eq_some_iff.mpr hreads] at hscan
    exact absurd hscan (by simp)
  | some p =>
    have hreads := Decimal.scan_eq_some_iff.mp hscan
    dsimp only
    constructor
    · intro h
      split_ifs at h with hrange
      obtain rfl := Except.ok.inj h
      exact ⟨p.2, hreads⟩
    · rintro ⟨rest, hreads'⟩
      have hn := (hreads.unique hreads').1
      rw [dif_pos (hn ▸ n.2)]
      exact congrArg _ (Subtype.ext hn)

/-- `stoi` indexes nothing. -/
theorem stoi_ne_badIndex (s : Str) : stoi s ≠ .error .badIndex := by
  unfold stoi
  cases Decimal.scan s.chars with
  | none => simp
  | some p =>
    dsimp only
    split_ifs
    · simp
    · simp

end StdString
