/-
# `ComplexNum` of `cpp/problem/multi.cpp`

A `ComplexNum` has two `int`s.  The constructor looks for a `+`; what is in front of it and
what is behind it, without the last character, go to `stoi`.  A text without `+` is an
imaginary number if it ends in `i` and a real one otherwise.

* `ofString_plus`, `ofString_imaginary`, `ofString_real` : what each of the branches accepts;
* `ofString_of_inGrammar` : every text of the grammar is accepted with its values;
* `multi_eq_ok_iff` : when no `int` operation of a product overflows.

The exact product is that of Mathlib's `GaussianInt`.
-/
import Pungoo.StdString
import Mathlib.NumberTheory.Zsqrtd.GaussianInt

open StdString Decimal Failing
open IntArray (Fault intMin intMax)

/-! ## The code -/

/-- `class ComplexNum`. -/
structure ComplexNum where
  real : CInt
  imaginary : CInt
  deriving DecidableEq

namespace ComplexNum

/-- The `int` zero. -/
def zero : CInt := ⟨0, by decide⟩

/-- `ComplexNum()`. -/
def new : ComplexNum := ⟨zero, zero⟩

/-- `ComplexNum(input)`. -/
def ofString (input : Str) : Except Failure ComplexNum := do
  let idx := input.find '+'
  if npos ≠ idx then
    let front ← input.substr 0 idx
    let real ← stoi front
    -- whatever the last character is, it is cut off
    let back ← input.substr ((idx + 1) % 2 ^ 64) (sizeSub (sizeSub input.size idx) 2)
    let imaginary ← stoi back
    return ⟨real, imaginary⟩
  else
    let last ← input.get (sizeSub input.size 1)
    if 'i' = last then
      let front ← input.substr 0 (sizeSub input.size 1)
      let imaginary ← stoi front
      return ⟨zero, imaginary⟩
    else
      let real ← stoi input
      return ⟨real, zero⟩

/-- The result of an `int` operation. -/
def int (x : ℤ) : Except Fault CInt :=
  if h : intMin ≤ x ∧ x ≤ intMax then .ok ⟨x, h⟩ else .error .overflow

/-- `multi(other)`. -/
def multi (self other : ComplexNum) : Except Fault ComplexNum := do
  let ret := new
  let rr ← int (self.real * other.real)
  let ii ← int (self.imaginary * other.imaginary)
  let real ← int (rr - ii)
  let ret := { ret with real := real }
  let ri ← int (self.real * other.imaginary)
  let ir ← int (self.imaginary * other.real)
  let imaginary ← int (ri + ir)
  return { ret with imaginary := imaginary }

theorem length_print_int_le (n : CInt) : (print n).length ≤ 11 := by
  have h := n.2
  unfold intMin intMax at h
  exact length_print_le (by omega) (by omega)

/-- `serialize()`. -/
def serialize (self : ComplexNum) : Str where
  chars := print self.real ++ '+' :: (print self.imaginary ++ ['i'])
  length_lt := by
    have hreal := length_print_int_le self.real
    have himaginary := length_print_int_le self.imaginary
    rw [List.length_append, List.length_cons, List.length_append, List.length_singleton, npos_eq]
    omega

/-! ## The branches of the constructor -/

variable {s : Str} {z : ComplexNum} {t u : List Char} {c : Char}

/-- The text is read as `n` by `stoi`. -/
def Lenient (t : List Char) (n : ℤ) : Prop := ∃ rest, Reads t n rest

/-- The parts of a text with a `+`, without its last character. -/
theorem ofString_plus (hs : s.chars = t ++ '+' :: (u ++ [c])) (ht : '+' ∉ t) :
    ofString s = .ok z ↔ Lenient t z.real ∧ Lenient u z.imaginary := by
  have hsize : s.size = t.length + u.length + 2 := by
    unfold Str.size
    rw [hs, List.length_append, List.length_cons, List.length_append, List.length_singleton]
    omega
  have hlt := size_lt s
  have hcut : sizeSub (sizeSub s.size t.length) 2 = u.length := by
    rw [sizeSub_eq (by omega : t.length ≤ s.size) (by omega), sizeSub_eq (by omega) (by omega)]
    omega
  obtain ⟨front, hfront, hfront'⟩ := substr_eq_ok (s := s) (m := t.length) (Nat.zero_le s.size)
  obtain ⟨back, hback, hback'⟩ :=
    substr_eq_ok (s := s) (m := u.length) (show t.length + 1 ≤ s.size by omega)
  have hfront'' : front.chars = t := by
    rw [hfront', hs, List.drop_zero, List.take_left]
  have hback'' : back.chars = u := by
    rw [hback', hs, List.drop_append, List.drop_of_length_le (by omega),
      show t.length + 1 - t.length = 1 by omega, List.nil_append, List.drop_succ_cons,
      List.drop_zero, List.take_left]
  unfold ofString
  rw [find_eq hs ht]
  dsimp only
  rw [if_pos (by rw [npos_eq]; omega), hfront, ok_bind, hcut,
    Nat.mod_eq_of_lt (by omega : t.length + 1 < 2 ^ 64), hback]
  simp only [ok_bind, bind_eq_ok_iff, stoi_eq_ok_iff, hfront'', hback'']
  constructor
  · rintro ⟨real, hreal, imaginary, himaginary, h⟩
    obtain rfl := Except.ok.inj h
    exact ⟨hreal, himaginary⟩
  · rintro ⟨hreal, himaginary⟩
    exact ⟨_, hreal, _, himaginary, rfl⟩

/-- A text without `+` that ends in `i` is an imaginary number. -/
theorem ofString_imaginary (hs : s.chars = t ++ ['i']) (ht : '+' ∉ t) :
    ofString s = .ok z ↔ Lenient t z.imaginary ∧ z.real = zero := by
  have hsize : s.size = t.length + 1 := by
    unfold Str.size
    rw [hs, List.length_append, List.length_singleton]
  have hlt := size_lt s
  have hcut : sizeSub s.size 1 = t.length := by
    rw [sizeSub_eq (by omega) (by omega)]
    omega
  have hplus : '+' ∉ s.chars := by
    rw [hs]
    simp [ht]
  have hlast : s.get t.length = .ok 'i' := by
    rw [get_eq_ok (show t.length < s.size by omega)]
    simp [hs]
  obtain ⟨front, hfront, hfront'⟩ := substr_eq_ok (s := s) (m := t.length) (Nat.zero_le s.size)
  rw [hs, List.drop_zero, List.take_left] at hfront'
  unfold ofString
  rw [find_eq_npos hplus]
  dsimp only
  rw [if_neg (not_not.mpr rfl), hcut, hlast, ok_bind, if_pos rfl, hfront]
  simp only [ok_bind, bind_eq_ok_iff, stoi_eq_ok_iff, hfront']
  constructor
  · rintro ⟨imaginary, himaginary, h⟩
    obtain rfl := Except.ok.inj h
    exact ⟨himaginary, rfl⟩
  · rintro ⟨himaginary, hreal⟩
    refine ⟨_, himaginary, ?_⟩
    rw [← hreal]
    rfl

/-- Any other text without `+` is a real number. -/
theorem ofString_real (hs : s.chars ≠ []) (hlast : s.chars.getLast? ≠ some 'i')
    (hplus : '+' ∉ s.chars) : ofString s = .ok z ↔ Lenient s.chars z.real ∧ z.imaginary = zero := by
  have hpos : 0 < s.size := List.length_pos_of_ne_nil hs
  have hlt := size_lt s
  have hget : s.get (sizeSub s.size 1) = .ok (s.chars.getLast hs) := by
    rw [sizeSub_eq (by omega) (by omega), get_eq_ok (show s.size - 1 < s.size by omega),
      List.getLast_eq_getElem]
    rfl
  have hne : 'i' ≠ s.chars.getLast hs := by
    intro hi
    rw [List.getLast?_eq_some_getLast hs, ← hi] at hlast
    exact hlast rfl
  unfold ofString
  rw [find_eq_npos hplus]
  dsimp only
  rw [if_neg (not_not.mpr rfl), hget, ok_bind, if_neg hne]
  simp only [bind_eq_ok_iff, stoi_eq_ok_iff]
  constructor
  · rintro ⟨real, hreal, h⟩
    obtain rfl := Except.ok.inj h
    exact ⟨hreal, rfl⟩
  · rintro ⟨hreal, himaginary⟩
    refine ⟨_, hreal, ?_⟩
    rw [← himaginary]
    rfl

/-! ## The texts that are accepted -/

/-- The texts for these values: a real number, an imaginary one, or both joined by `+`. -/
def InGrammar (s : List Char) (real imaginary : ℤ) : Prop :=
  (IsNumeral s real ∧ imaginary = 0) ∨
  (∃ t, s = t ++ ['i'] ∧ IsNumeral t imaginary ∧ real = 0) ∨
  ∃ t u, s = t ++ '+' :: (u ++ ['i']) ∧ IsNumeral t real ∧ IsNumeral u imaginary

/-- The same forms, with the texts that `stoi` reads in the place of the numerals. -/
def Accepted (s : List Char) (real imaginary : ℤ) : Prop :=
  ('+' ∉ s ∧ s.getLast? ≠ some 'i' ∧ Lenient s real ∧ imaginary = 0) ∨
  (∃ t, s = t ++ ['i'] ∧ '+' ∉ t ∧ Lenient t imaginary ∧ real = 0) ∨
  ∃ t u, s = t ++ '+' :: (u ++ ['i']) ∧ '+' ∉ t ∧ Lenient t real ∧ Lenient u imaginary

theorem plus_not_mem {n : ℤ} (h : IsNumeral t n) : '+' ∉ t := h.not_mem (by decide) (by decide)

theorem accepted_of_inGrammar {real imaginary : ℤ} (h : InGrammar t real imaginary) :
    Accepted t real imaginary := by
  rcases h with ⟨hreal, h0⟩ | ⟨u, hu, himaginary, h0⟩ | ⟨u, v, huv, hreal, himaginary⟩
  · refine Or.inl ⟨plus_not_mem hreal, ?_, ⟨[], hreal.reads⟩, h0⟩
    intro hlast
    exact hreal.not_mem (by decide) (by decide) (List.mem_of_getLast? hlast)
  · exact Or.inr (Or.inl ⟨u, hu, plus_not_mem himaginary, ⟨[], himaginary.reads⟩, h0⟩)
  · exact Or.inr (Or.inr ⟨u, v, huv, plus_not_mem hreal, ⟨[], hreal.reads⟩,
      ⟨[], himaginary.reads⟩⟩)

/-- The first `+` is at one place only. -/
theorem first_plus_unique {t' u' : List Char} (h : t ++ '+' :: u = t' ++ '+' :: u')
    (ht : '+' ∉ t) (ht' : '+' ∉ t') : t = t' ∧ u = u' := by
  have hidx := congrArg (List.idxOf '+') h
  rw [List.idxOf_append_of_notMem ht, List.idxOf_append_of_notMem ht', List.idxOf_cons_self,
    List.idxOf_cons_self, Nat.add_zero, Nat.add_zero] at hidx
  obtain ⟨h1, h2⟩ := List.append_inj h hidx
  exact ⟨h1, (List.cons.inj h2).2⟩

variable {real imaginary : ℤ}

/-- The forms of a text exclude each other: with a `+`, it is the last one. -/
theorem accepted_plus (ht : '+' ∉ t) :
    Accepted (t ++ '+' :: (u ++ ['i'])) real imaginary ↔ Lenient t real ∧ Lenient u imaginary := by
  have hplus : '+' ∈ t ++ '+' :: (u ++ ['i']) := List.mem_append_right t List.mem_cons_self
  constructor
  · rintro (⟨hno, -⟩ | ⟨t', ht', hno, -⟩ | ⟨t', u', hu', ht', hreal, himaginary⟩)
    · exact absurd hplus hno
    · rw [ht'] at hplus
      exact absurd hplus (by simp [hno])
    · obtain ⟨rfl, hw⟩ := first_plus_unique hu' ht ht'
      rw [List.append_cancel_right hw]
      exact ⟨hreal, himaginary⟩
  · rintro ⟨hreal, himaginary⟩
    exact Or.inr (Or.inr ⟨t, u, rfl, ht, hreal, himaginary⟩)

theorem accepted_imaginary (ht : '+' ∉ t) :
    Accepted (t ++ ['i']) real imaginary ↔ Lenient t imaginary ∧ real = 0 := by
  constructor
  · rintro (⟨-, hne, -⟩ | ⟨t', ht', -, himaginary, hreal⟩ | ⟨t', u', hu', -⟩)
    · exact absurd List.getLast?_concat hne
    · rw [List.append_cancel_right ht']
      exact ⟨himaginary, hreal⟩
    · have hplus : '+' ∈ t ++ ['i'] := hu' ▸ List.mem_append_right t' List.mem_cons_self
      exact absurd hplus (by simp [ht])
  · rintro ⟨himaginary, hreal⟩
    exact Or.inr (Or.inl ⟨t, rfl, ht, himaginary, hreal⟩)

theorem accepted_real (hlast : t.getLast? ≠ some 'i') (hplus : '+' ∉ t) :
    Accepted t real imaginary ↔ Lenient t real ∧ imaginary = 0 := by
  constructor
  · rintro (⟨-, -, hreal, himaginary⟩ | ⟨t', rfl, -⟩ | ⟨t', u', rfl, -⟩)
    · exact ⟨hreal, himaginary⟩
    · exact absurd List.getLast?_concat hlast
    · exact absurd (List.mem_append_right t' List.mem_cons_self) hplus
  · rintro ⟨hreal, himaginary⟩
    exact Or.inl ⟨hplus, hlast, hreal, himaginary⟩

theorem eq_zero_iff (x : CInt) : x = zero ↔ (x : ℤ) = 0 := Subtype.ext_iff

/-- A text that ends in `i`, if it has a `+`, is accepted in its form only. -/
theorem ofString_iff (hs : s.chars ≠ []) (hi : '+' ∈ s.chars → s.chars.getLast? = some 'i') :
    ofString s = .ok z ↔ Accepted s.chars z.real z.imaginary := by
  by_cases hplus : '+' ∈ s.chars
  · obtain ⟨t, v, hv, ht⟩ := List.eq_append_cons_of_mem hplus
    have hlast := hi hplus
    obtain ⟨u, hu⟩ : ∃ u, v = u ++ ['i'] := by
      rw [hv, List.getLast?_append_of_ne_nil t (List.cons_ne_nil '+' v)] at hlast
      rcases List.eq_nil_or_concat v with rfl | ⟨u, c, rfl⟩
      · exact absurd hlast (by decide)
      · rw [List.concat_eq_append, ← List.cons_append, List.getLast?_concat] at hlast
        exact ⟨u, by rw [Option.some.inj hlast, List.concat_eq_append]⟩
    rw [hu] at hv
    rw [ofString_plus hv ht, hv, accepted_plus ht]
  · by_cases hlast : s.chars.getLast? = some 'i'
    · obtain ⟨t, ht⟩ := List.getLast?_eq_some_iff.mp hlast
      have hno : '+' ∉ t := by
        intro hmem
        rw [ht] at hplus
        exact hplus (List.mem_append_left _ hmem)
      rw [ofString_imaginary ht hno, ht, accepted_imaginary hno, eq_zero_iff]
    · rw [ofString_real hs hlast hplus, accepted_real hlast hplus, eq_zero_iff]

/-- **Texts of the grammar are accepted** with the values they denote. -/
theorem ofString_of_inGrammar (h : InGrammar s.chars z.real z.imaginary) :
    ofString s = .ok z := by
  have hne : s.chars ≠ [] := by
    rcases h with ⟨hreal, -⟩ | ⟨t, ht, -⟩ | ⟨t, u, hu, -⟩
    · exact hreal.ne_nil
    · rw [ht]
      exact List.append_ne_nil_of_right_ne_nil t (List.cons_ne_nil 'i' [])
    · rw [hu]
      exact List.append_ne_nil_of_right_ne_nil t (List.cons_ne_nil '+' _)
  have hi : '+' ∈ s.chars → s.chars.getLast? = some 'i' := by
    intro hplus
    rcases h with ⟨hreal, -⟩ | ⟨t, ht, -⟩ | ⟨t, u, hu, -⟩
    · exact absurd hplus (plus_not_mem hreal)
    · rw [ht, List.getLast?_concat]
    · rw [hu, ← List.cons_append, ← List.append_assoc, List.getLast?_concat]
  exact (ofString_iff hne hi).mpr (accepted_of_inGrammar h)

/-- A text that is not empty is never indexed outside. -/
theorem ofString_ne_badIndex (hs : s.chars ≠ []) : ofString s ≠ .error .badIndex := by
  have hpos : 0 < s.size := List.length_pos_of_ne_nil hs
  have hlt := size_lt s
  unfold ofString
  dsimp only
  split_ifs
  · refine bind_ne_badIndex (substr_ne_badIndex _ _ _) fun front => ?_
    refine bind_ne_badIndex (stoi_ne_badIndex front) fun real => ?_
    refine bind_ne_badIndex (substr_ne_badIndex _ _ _) fun back => ?_
    exact bind_ne_badIndex (stoi_ne_badIndex back) fun _ => ok_ne_badIndex _
  · rw [sizeSub_eq (by omega) (by omega), get_eq_ok (show s.size - 1 < s.size by omega), ok_bind]
    split_ifs
    · refine bind_ne_badIndex (substr_ne_badIndex _ _ _) fun front => ?_
      exact bind_ne_badIndex (stoi_ne_badIndex front) fun _ => ok_ne_badIndex _
    · exact bind_ne_badIndex (stoi_ne_badIndex s) fun _ => ok_ne_badIndex _

/-- **What the constructor accepts.**  A text that is not empty is never indexed outside; one
that also ends in `i`, if it has a `+`, is accepted exactly in the three forms, with whatever
`stoi` reads in the place of the numerals; and every text of the grammar is accepted. -/
theorem ofString_spec (s : Str) :
    (s.chars ≠ [] → ofString s ≠ .error .badIndex) ∧
    (s.chars ≠ [] → ('+' ∈ s.chars → s.chars.getLast? = some 'i') →
      ∀ z, ofString s = .ok z ↔ Accepted s.chars z.real z.imaginary) ∧
    (∀ z : ComplexNum, InGrammar s.chars z.real z.imaginary → ofString s = .ok z) :=
  ⟨ofString_ne_badIndex, fun hs hi _ => ofString_iff hs hi, fun _ => ofString_of_inGrammar⟩

/-- Digits with letters behind them are accepted, and are no text of the grammar. -/
theorem ofString_digits_letters :
    ofString ⟨['1', '2', 'a', 'b', 'c'], by decide⟩ = .ok ⟨⟨12, by decide⟩, zero⟩ ∧
      ¬ ∃ real imaginary, InGrammar ['1', '2', 'a', 'b', 'c'] real imaginary := by
  refine ⟨by decide, ?_⟩
  rintro ⟨real, imaginary, ⟨hreal, -⟩ | ⟨t, ht, -⟩ | ⟨t, u, hu, -⟩⟩
  · exact hreal.not_mem (by decide : 'a' ≠ '-') (by decide) (by decide)
  · have hlast := congrArg List.getLast? ht
    rw [List.getLast?_concat] at hlast
    exact absurd hlast (by decide)
  · have hplus : '+' ∈ ['1', '2', 'a', 'b', 'c'] :=
      hu ▸ List.mem_append_right t List.mem_cons_self
    exact absurd hplus (by decide)

/-! ## Text round trip -/

/-- **Round trip**: the text of a complex number is read back as the same number. -/
theorem ofString_serialize (z : ComplexNum) : ofString z.serialize = .ok z :=
  ofString_of_inGrammar
    (Or.inr (Or.inr ⟨_, _, rfl, isNumeral_print z.real, isNumeral_print z.imaginary⟩))

/-! ## Products -/

/-- The Gaussian integer. -/
def toGaussian (z : ComplexNum) : GaussianInt := ⟨z.real, z.imaginary⟩

/-- The product of any component of the one and any component of the other is an `int`. -/
def ProductsFit (a b : ComplexNum) : Prop :=
  ∀ x ∈ [a.real, a.imaginary], ∀ y ∈ [b.real, b.imaginary],
    intMin ≤ (x : ℤ) * y ∧ (x : ℤ) * y ≤ intMax

instance (a b : ComplexNum) : Decidable (ProductsFit a b) :=
  inferInstanceAs (Decidable (∀ x ∈ [a.real, a.imaginary], ∀ y ∈ [b.real, b.imaginary],
    intMin ≤ (x : ℤ) * y ∧ (x : ℤ) * y ≤ intMax))

theorem int_eq_ok_iff {x : ℤ} {y : CInt} : int x = .ok y ↔ (y : ℤ) = x := by
  unfold int
  constructor
  · intro h
    split_ifs at h with hrange
    exact congrArg Subtype.val (Except.ok.inj h).symm
  · rintro rfl
    rw [dif_pos y.2]

theorem gaussian_mul (a b : ComplexNum) :
    (toGaussian a * toGaussian b).re
        = (a.real : ℤ) * b.real - (a.imaginary : ℤ) * b.imaginary ∧
      (toGaussian a * toGaussian b).im
        = (a.real : ℤ) * b.imaginary + (a.imaginary : ℤ) * b.real := by
  constructor
  · show (a.real : ℤ) * b.real + -1 * a.imaginary * b.imaginary = _
    ring
  · rfl

/-- A product is returned when the four products of components fit, and is the exact one. -/
theorem multi_eq_ok_iff {a b c : ComplexNum} :
    a.multi b = .ok c ↔ ProductsFit a b ∧ toGaussian c = toGaussian a * toGaussian b := by
  obtain ⟨hre, him⟩ := gaussian_mul a b
  unfold multi
  simp only [bind_eq_ok_iff, int_eq_ok_iff]
  constructor
  · rintro ⟨rr, hrr, ii, hii, real, hreal, ri, hri, ir, hir, imaginary, himaginary, h⟩
    obtain rfl := Except.ok.inj h
    refine ⟨?_, ?_⟩
    · intro x hx y hy
      simp only [List.mem_cons, List.not_mem_nil, or_false] at hx hy
      rcases hx with rfl | rfl <;> rcases hy with rfl | rfl
      · exact hrr ▸ rr.2
      · exact hri ▸ ri.2
      · exact hir ▸ ir.2
      · exact hii ▸ ii.2
    · apply Zsqrtd.ext
      · rw [hre, ← hrr, ← hii, ← hreal]
        rfl
      · rw [him, ← hri, ← hir, ← himaginary]
        rfl
  · rintro ⟨hfit, hc⟩
    have hcre : (c.real : ℤ) = _ := (congrArg Zsqrtd.re hc).trans hre
    have hcim : (c.imaginary : ℤ) = _ := (congrArg Zsqrtd.im hc).trans him
    refine ⟨⟨_, hfit a.real (by simp) b.real (by simp)⟩, rfl,
      ⟨_, hfit a.imaginary (by simp) b.imaginary (by simp)⟩, rfl, c.real, hcre,
      ⟨_, hfit a.real (by simp) b.imaginary (by simp)⟩, rfl,
      ⟨_, hfit a.imaginary (by simp) b.real (by simp)⟩, rfl, c.imaginary, hcim, rfl⟩

/-- The text of a Gaussian integer. -/
def text (g : GaussianInt) : List Char := print g.re ++ '+' :: (print g.im ++ ['i'])

theorem serialize_chars (z : ComplexNum) : z.serialize.chars = text (toGaussian z) := rfl

/-- **Products that are `int`s.**  When both components of the exact product are in range, it is
computed without an overflow, and printed, exactly when each product of a component of the one
factor and a component of the other is in range. -/
theorem multi_serialize_iff (a b : ComplexNum)
    (hre : intMin ≤ (toGaussian a * toGaussian b).re ∧ (toGaussian a * toGaussian b).re ≤ intMax)
    (him : intMin ≤ (toGaussian a * toGaussian b).im ∧ (toGaussian a * toGaussian b).im ≤ intMax) :
    (∃ c, a.multi b = .ok c ∧ c.serialize.chars = text (toGaussian a * toGaussian b)) ↔
      ProductsFit a b := by
  constructor
  · rintro ⟨c, hc, -⟩
    exact (multi_eq_ok_iff.mp hc).1
  · intro hfit
    have hc : toGaussian ⟨⟨_, hre⟩, ⟨_, him⟩⟩ = toGaussian a * toGaussian b := rfl
    refine ⟨_, multi_eq_ok_iff.mpr ⟨hfit, hc⟩, ?_⟩
    rw [serialize_chars, hc]

/-- The product that `main` prints. -/
theorem multi_serialize_one_minus_i :
    ∃ c, multi ⟨⟨1, by decide⟩, ⟨-1, by decide⟩⟩ ⟨⟨1, by decide⟩, ⟨-1, by decide⟩⟩ = .ok c ∧
      c.serialize.chars = text (⟨1, -1⟩ * ⟨1, -1⟩) :=
  (multi_serialize_iff _ _ (by decide) (by decide)).mpr (by decide)

/-- The square of a number with a product that is too large, although its components are not. -/
theorem multi_overflow :
    multi ⟨⟨46341, by decide⟩, ⟨69, by decide⟩⟩ ⟨⟨46341, by decide⟩, ⟨69, by decide⟩⟩
        = .error .overflow ∧
      (⟨46341, 69⟩ * ⟨46341, 69⟩ : GaussianInt) = ⟨2147483520, 6395058⟩ ∧
      2147483520 ≤ intMax := by
  refine ⟨by decide, by decide, by decide⟩

end ComplexNum
