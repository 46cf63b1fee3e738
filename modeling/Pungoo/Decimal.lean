/-
# Decimal text of integers

`print` writes an integer as a stream does, with `-` in front of a negative one.  `scan`
reads one as the C library does: white space is skipped, a sign is optional, the longest run
of digits is the number, and what is behind it is not looked at.

* `scan_eq_some_iff` : which texts are read as a given number;
* `isNumeral_print` : what is written is a numeral without white space, `+` or a tail.
-/
import Mathlib.Algebra.Group.Nat.Defs
import Mathlib.Data.Int.Notation
import Mathlib.Data.List.Basic

namespace Decimal

/-! ## Writing and reading -/

/-- The integer with this sign and this absolute value. -/
def signed (negative : Bool) (v : ℕ) : ℤ := if negative = true then -v else v

/-- The decimal form of an integer. -/
def print (n : ℤ) : List Char :=
  if n < 0 then '-' :: Nat.toDigits 10 n.natAbs else Nat.toDigits 10 n.natAbs

/-- The white space of the C library. -/
def isSpace (c : Char) : Bool :=
  decide (c ∈ [' ', '\t', '\n', '\x0b', '\x0c', '\r'])

/-- The sign in front of a text, as `true` for a minus, and the text behind it. -/
def readSign : List Char → Bool × List Char
  | [] => (false, [])
  | c :: s => if c = '-' then (true, s) else if c = '+' then (false, s) else (false, c :: s)

/-- The integer at the front of a text and the text behind it. -/
def scan (s : List Char) : Option (ℤ × List Char) :=
  let signAndText := readSign (s.dropWhile isSpace)
  let digits := signAndText.2.takeWhile Char.isDigit
  if digits = [] then none
  else some (signed signAndText.1 (Nat.ofDigitChars 10 digits 0),
    signAndText.2.dropWhile Char.isDigit)

/-! ## Grammar -/

/-- An optional sign. -/
inductive Sign : List Char → Bool → Prop
  | none : Sign [] false
  | plus : Sign ['+'] false
  | minus : Sign ['-'] true

/-- One or more decimal digits with this value. -/
def Digits (digits : List Char) (v : ℕ) : Prop :=
  digits ≠ [] ∧ (∀ c ∈ digits, c.isDigit = true) ∧ v = Nat.ofDigitChars 10 digits 0

/-- White space, an optional sign and digits are read as `n`; `rest` is behind them. -/
def Reads (s : List Char) (n : ℤ) (rest : List Char) : Prop :=
  ∃ spaces sign digits negative v, s = spaces ++ (sign ++ (digits ++ rest)) ∧
    (∀ c ∈ spaces, isSpace c = true) ∧ Sign sign negative ∧ Digits digits v ∧
    (∀ c ∈ rest.head?, c.isDigit = false) ∧ n = signed negative v

/-- An optional minus and digits, and nothing else. -/
def IsNumeral (s : List Char) (n : ℤ) : Prop :=
  ∃ digits v, Digits digits v ∧ ((s = digits ∧ n = v) ∨ (s = '-' :: digits ∧ n = -v))

variable {s rest digits : List Char} {n : ℤ} {v : ℕ} {c : Char}

/-- No digit is white space. -/
theorem isSpace_of_isDigit (h : c.isDigit = true) : isSpace c = false := by
  unfold isSpace
  rw [decide_eq_false_iff_not]
  intro hmem
  simp only [List.mem_cons, List.not_mem_nil, or_false] at hmem
  rcases hmem with rfl | rfl | rfl | rfl | rfl | rfl <;> exact absurd h (by decide)

/-- No digit is a sign. -/
theorem ne_of_isDigit (h : c.isDigit = true) : c ≠ '-' ∧ c ≠ '+' := by
  constructor
  · rintro rfl
    exact absurd h (by decide)
  · rintro rfl
    exact absurd h (by decide)

/-- The sign is split off a text that has one, or starts with a digit. -/
theorem readSign_append {sign : List Char} {negative : Bool} (h : Sign sign negative)
    (hdigit : ∀ c ∈ s.head?, c.isDigit = true) : readSign (sign ++ s) = (negative, s) := by
  cases h with
  | plus | minus => rfl
  | none =>
    cases s with
    | nil => rfl
    | cons c s =>
      obtain ⟨hminus, hplus⟩ := ne_of_isDigit (hdigit c rfl)
      rw [List.nil_append, readSign, if_neg hminus, if_neg hplus]

/-- What `readSign` takes is a sign, and nothing else is lost. -/
theorem readSign_spec (s : List Char) :
    ∃ sign, Sign sign (readSign s).1 ∧ s = sign ++ (readSign s).2 := by
  cases s with
  | nil => exact ⟨[], .none, rfl⟩
  | cons c s =>
    rw [readSign]
    split_ifs with hminus hplus
    · exact ⟨['-'], .minus, by rw [hminus]; rfl⟩
    · exact ⟨['+'], .plus, by rw [hplus]; rfl⟩
    · exact ⟨[], .none, rfl⟩

/-- A text is taken up to where a property ends. -/
theorem takeWhile_append_rest {p : Char → Bool} (hdigits : ∀ c ∈ digits, p c = true)
    (hrest : ∀ c ∈ rest.head?, p c = false) :
    (digits ++ rest).takeWhile p = digits ∧ (digits ++ rest).dropWhile p = rest := by
  rw [List.takeWhile_append_of_pos hdigits, List.dropWhile_append_of_pos hdigits]
  cases rest with
  | nil => exact ⟨List.append_nil digits, rfl⟩
  | cons c rest =>
    have hc := hrest c rfl
    rw [List.takeWhile_cons_of_neg (by rw [hc]; exact Bool.false_ne_true),
      List.dropWhile_cons_of_neg (by rw [hc]; exact Bool.false_ne_true)]
    exact ⟨List.append_nil digits, rfl⟩

/-- A signed number does not start with white space. -/
theorem isSpace_of_sign {sign : List Char} {negative : Bool} (hsign : Sign sign negative)
    (hdigits : Digits digits v) : ∀ c ∈ (sign ++ (digits ++ rest)).head?, isSpace c = false := by
  cases hsign with
  | plus | minus =>
    intro c hc
    obtain rfl := Option.some.inj hc
    decide
  | none =>
    obtain ⟨hne, hall, -⟩ := hdigits
    obtain ⟨d, ds, rfl⟩ := List.exists_cons_of_ne_nil hne
    intro c hc
    obtain rfl := Option.some.inj hc
    exact isSpace_of_isDigit (hall _ List.mem_cons_self)

/-- **The texts read as a number** have it behind white space, with digits as many as there
are. -/
theorem scan_eq_some_iff : scan s = some (n, rest) ↔ Reads s n rest := by
  unfold scan
  constructor
  · intro h
    dsimp only at h
    split_ifs at h with hnil
    obtain ⟨rfl, rfl⟩ := Prod.mk.inj (Option.some.inj h)
    obtain ⟨sign, hsign, heq⟩ := readSign_spec (s.dropWhile isSpace)
    refine ⟨s.takeWhile isSpace, sign, _, _, _, ?_, ?_, hsign, ⟨hnil, ?_, rfl⟩, ?_, rfl⟩
    · rw [List.takeWhile_append_dropWhile, ← heq, List.takeWhile_append_dropWhile]
    · intro c hc
      exact List.all_eq_true.mp List.all_takeWhile c hc
    · intro c hc
      exact List.all_eq_true.mp List.all_takeWhile c hc
    · intro c hc
      have hnot := List.head?_dropWhile_not Char.isDigit (readSign (s.dropWhile isSpace)).2
      rw [Option.mem_def.mp hc] at hnot
      exact hnot
  · rintro ⟨spaces, sign, digits, negative, v, rfl, hspaces, hsign, hdigits, hrest, rfl⟩
    have hspace : ∀ c ∈ (sign ++ (digits ++ rest)).head?, isSpace c = false :=
      isSpace_of_sign hsign hdigits
    have hdrop := (takeWhile_append_rest hspaces hspace).2
    obtain ⟨hne, hall, rfl⟩ := hdigits
    have hhead : ∀ c ∈ (digits ++ rest).head?, c.isDigit = true := by
      obtain ⟨d, ds, rfl⟩ := List.exists_cons_of_ne_nil hne
      intro c hc
      obtain rfl := Option.some.inj hc
      exact hall _ List.mem_cons_self
    obtain ⟨htake, hdrop'⟩ := takeWhile_append_rest hall hrest
    rw [hdrop, readSign_append hsign hhead]
    dsimp only
    rw [htake, hdrop', if_neg hne]

/-! ## Numerals -/

/-- A natural number is printed in digits. -/
theorem isDigit_toDigits (v : ℕ) : ∀ c ∈ Nat.toDigits 10 v, c.isDigit = true := by
  intro c hc
  exact Nat.isDigit_of_mem_toDigits (by omega) (by omega) hc

/-- What is written is a numeral for the integer. -/
theorem isNumeral_print (n : ℤ) : IsNumeral (print n) n := by
  have hdigits : Digits (Nat.toDigits 10 n.natAbs) n.natAbs :=
    ⟨Nat.toDigits_ne_nil, isDigit_toDigits n.natAbs, Nat.ofDigitChars_ten_toDigits.symm⟩
  refine ⟨_, _, hdigits, ?_⟩
  unfold print
  split_ifs with hneg
  · exact Or.inr ⟨rfl, by omega⟩
  · exact Or.inl ⟨rfl, by omega⟩

/-- A number below `10 ^ k` is printed in `k` digits and a sign. -/
theorem length_print_le {k : ℕ} (hk : 0 < k) (h : n.natAbs < 10 ^ k) :
    (print n).length ≤ k + 1 := by
  have hlen := (Nat.length_toDigits_le_iff (by omega : 1 < 10) hk).mpr h
  unfold print
  split_ifs
  · rw [List.length_cons]
    omega
  · omega

/-- A numeral is read as its integer, to its end. -/
theorem IsNumeral.reads (h : IsNumeral s n) : Reads s n [] := by
  obtain ⟨digits, v, hdigits, ⟨rfl, rfl⟩ | ⟨rfl, rfl⟩⟩ := h
  · exact ⟨[], [], s, false, v, by simp, by simp, .none, hdigits, by simp, rfl⟩
  · exact ⟨[], ['-'], digits, true, v, by simp, by simp, .minus, hdigits, by simp, rfl⟩

/-- A numeral is made of digits and the minus. -/
theorem IsNumeral.chars (h : IsNumeral s n) : ∀ c ∈ s, c = '-' ∨ c.isDigit = true := by
  obtain ⟨digits, v, ⟨-, hall, -⟩, ⟨rfl, -⟩ | ⟨rfl, -⟩⟩ := h
  · exact fun c hc => Or.inr (hall c hc)
  · intro c hc
    rcases List.mem_cons.mp hc with rfl | hc
    · exact Or.inl rfl
    · exact Or.inr (hall c hc)

/-- A numeral has no other characters than digits and a minus. -/
theorem IsNumeral.not_mem (h : IsNumeral s n) (hminus : c ≠ '-') (hdigit : c.isDigit = false) :
    c ∉ s := by
  intro hc
  rcases h.chars c hc with hc | hc
  · exact hminus hc
  · rw [hdigit] at hc
    exact absurd hc Bool.false_ne_true

/-- A numeral is not empty. -/
theorem IsNumeral.ne_nil (h : IsNumeral s n) : s ≠ [] := by
  obtain ⟨digits, v, ⟨hne, -⟩, ⟨rfl, -⟩ | ⟨rfl, -⟩⟩ := h
  · exact hne
  · exact List.cons_ne_nil '-' digits

/-- A text is read in one way. -/
theorem Reads.unique {n' : ℤ} {rest' : List Char} (h : Reads s n rest) (h' : Reads s n' rest') :
    n = n' ∧ rest = rest' :=
  Prod.mk.inj (Option.some.inj ((scan_eq_some_iff.mpr h).symm.trans (scan_eq_some_iff.mpr h')))

end Decimal
