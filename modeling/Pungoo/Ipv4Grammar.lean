/-
# What `IsValidIpv4` accepts

* `IsOctet` : the canonical decimal form of a number up to 255; `octet` is the
  function that reads one, and the field scanner computes it
  (`scanField_of_octet`, `scanField_of_not_octet`).
* `Dotted fs t` : `t` lists the fields `fs`, each ended by a dot, the last one also
  by the end of the string.  The outer loop accepts at most four octets listed in
  this way (`isValidIpv4_iff`), and on no string does it fault.

Nothing after the loop asks for four fields, and the dot behind the last field is
consumed with it; so the strings accepted by mistake are exactly the `Incomplete`
ones (`isValidIpv4_full_iff`).  Of four fields joined by dots it asks exactly what it
should (`isValidIpv4_joined_iff`).
-/
import Pungoo.Ipv4
import Mathlib.Tactic.IntervalCases
import Mathlib.Tactic.NormNum
import Mathlib.Tactic.Ring

namespace Ipv4

/-! ## Octets -/

/-- The canonical decimal form of a number in `0 .. 255`. -/
def IsOctet (f : List Char) : Prop := ∃ v, v ≤ 255 ∧ f = Nat.toDigits 10 v

/-- The value of a decimal digit. -/
def digitVal (c : Char) : Option ℕ :=
  if 48 ≤ c.toNat ∧ c.toNat ≤ 57 then some (c.toNat - 48) else none

/-- Read the digits that follow a value, as long as it stays below 256. -/
def octetTail : ℕ → List Char → Option ℕ
  | x, [] => some x
  | x, c :: f =>
    match digitVal c with
    | none => none
    | some d => if x * 10 + d ≤ 255 then octetTail (x * 10 + d) f else none

/-- Read a field: a lone zero, or digits without a leading zero. -/
def octet : List Char → Option ℕ
  | [] => none
  | c :: f =>
    match digitVal c with
    | none => none
    | some 0 => if f = [] then some 0 else none
    | some (d + 1) => octetTail (d + 1) f

theorem octetTail_digit {x d : ℕ} {c : Char} (f : List Char) (h : digitVal c = some d) :
    octetTail x (c :: f) = if x * 10 + d ≤ 255 then octetTail (x * 10 + d) f else none := by
  rw [octetTail, h]

theorem octetTail_other {x : ℕ} {c : Char} (f : List Char) (h : digitVal c = none) :
    octetTail x (c :: f) = none := by
  rw [octetTail, h]

theorem octet_digit_zero {c : Char} (f : List Char) (h : digitVal c = some 0) :
    octet (c :: f) = if f = [] then some 0 else none := by
  rw [octet, h]

theorem octet_digit_succ {d : ℕ} {c : Char} (f : List Char) (h : digitVal c = some (d + 1)) :
    octet (c :: f) = octetTail (d + 1) f := by
  rw [octet, h]

theorem octet_other {c : Char} (f : List Char) (h : digitVal c = none) :
    octet (c :: f) = none := by
  rw [octet, h]

theorem digitVal_cases (c : Char) :
    (∃ d, d ≤ 9 ∧ digitVal c = some d ∧ (c.toNat : ℤ) - 48 = d ∧ c = Nat.digitChar d) ∨
    (digitVal c = none ∧ ((c.toNat : ℤ) - 48 > 9 ∨ (c.toNat : ℤ) - 48 < 0)) := by
  unfold digitVal
  by_cases h : 48 ≤ c.toNat ∧ c.toNat ≤ 57
  · left
    refine ⟨c.toNat - 48, by omega, if_pos h, by omega, ?_⟩
    have hc : c = Char.ofNat c.toNat := (Char.ofNat_toNat c).symm
    obtain ⟨k, hk⟩ : ∃ k, c.toNat = k := ⟨_, rfl⟩
    rw [hk] at h hc ⊢
    obtain ⟨h1, h2⟩ := h
    interval_cases k <;> exact hc
  · right
    exact ⟨if_neg h, by omega⟩

theorem octetTail_spec {x v : ℕ} {f : List Char} (hx : 0 < x) (hx' : x ≤ 255)
    (h : octetTail x f = some v) : v ≤ 255 ∧ Nat.toDigits 10 x ++ f = Nat.toDigits 10 v := by
  induction f generalizing x with
  | nil =>
    rw [octetTail, Option.some.injEq] at h
    subst h
    exact ⟨hx', List.append_nil _⟩
  | cons c f ih =>
    rcases digitVal_cases c with ⟨d, hd, hval, -, hc⟩ | ⟨hval, -⟩
    · rw [octetTail_digit f hval] at h
      by_cases hle : x * 10 + d ≤ 255
      · rw [if_pos hle] at h
        obtain ⟨hv, heq⟩ := ih (by omega) hle h
        refine ⟨hv, ?_⟩
        rw [← heq, Nat.mul_comm x 10,
          ← Nat.toDigits_append_toDigits (by norm_num) hx (by omega : d < 10),
          Nat.toDigits_of_lt_base (by omega : d < 10), hc]
        simp
      · rw [if_neg hle] at h
        exact absurd h (by simp)
    · rw [octetTail_other f hval] at h
      exact absurd h (by simp)

/-- Reading a field yields the number whose canonical form it is. -/
theorem octet_spec {f : List Char} {v : ℕ} (h : octet f = some v) :
    v ≤ 255 ∧ f = Nat.toDigits 10 v := by
  cases f with
  | nil => exact absurd h (by simp [octet])
  | cons c f =>
    rcases digitVal_cases c with ⟨d, hd, hval, -, hc⟩ | ⟨hval, -⟩
    · cases d with
      | zero =>
        rw [octet_digit_zero f hval] at h
        by_cases hf : f = []
        · rw [if_pos hf, Option.some.injEq] at h
          subst h
          exact ⟨by omega, by rw [hf, hc]; rfl⟩
        · rw [if_neg hf] at h
          exact absurd h (by simp)
      | succ d =>
        rw [octet_digit_succ f hval] at h
        obtain ⟨hv, heq⟩ := octetTail_spec (by omega) (by omega) h
        refine ⟨hv, ?_⟩
        rw [← heq, Nat.toDigits_of_lt_base (by omega), hc, List.singleton_append]
    · rw [octet_other f hval] at h
      exact absurd h (by simp)

theorem octet_toDigits : ∀ v < 256, octet (Nat.toDigits 10 v) = some v := by decide +kernel

theorem isOctet_iff {f : List Char} : IsOctet f ↔ ∃ v, octet f = some v := by
  constructor
  · rintro ⟨v, hv, rfl⟩
    exact ⟨v, octet_toDigits v (by omega)⟩
  · rintro ⟨v, h⟩
    exact ⟨v, octet_spec h⟩

theorem octet_zero_iff {f : List Char} : octet f = some 0 ↔ f = ['0'] := by
  constructor
  · intro h
    rw [(octet_spec h).2]
    rfl
  · rintro rfl
    rfl

/-! ## The field scanner reads an octet -/

/-- The end of a field: the end of the string or a dot. -/
def FieldEnd (t : List Char) : Prop := t = [] ∨ ∃ t', t = '.' :: t'

/-- The position after a field and its dot, if it has one. -/
def sepLength (t : List Char) : ℕ := if t = [] then 0 else 1

/-- At the end of a field the scanner stops with the value it has. -/
theorem scanField_end {s : CString} {left q : ℕ} {x : ℤ} {t : List Char} (h : s.At q t)
    (ht : FieldEnd t) : scanField s (left + 1) q x = .ok (x, q + sepLength t) := by
  rcases ht with rfl | ⟨t', rfl⟩
  · rw [scanField, at_nil h]
    rfl
  · rw [scanField, (at_cons h).1]
    rfl

/-- One iteration on a character of the field. -/
theorem scanField_char {s : CString} {q : ℕ} {c : Char} (hread : s.read q = .ok c)
    (hdot : c ≠ '.') (hnul : c ≠ nul) (left : ℕ) (x : ℤ) :
    scanField s (left + 1) q x
      = if (c.toNat : ℤ) - 48 = 0 ∧ x = 0 then .ok (-1, q)
        else if (c.toNat : ℤ) - 48 > 9 ∨ (c.toNat : ℤ) - 48 < 0 then .ok (-1, q)
        else if x = -1 then
          if (c.toNat : ℤ) - 48 > 255 then .ok (-1, q)
          else scanField s left (q + 1) ((c.toNat : ℤ) - 48)
        else if x = 0 then .ok (-1, q)
        else if x * 10 + ((c.toNat : ℤ) - 48) > 255 then .ok (-1, q)
        else scanField s left (q + 1) (x * 10 + ((c.toNat : ℤ) - 48)) := by
  rw [scanField, hread]
  simp only [bind, Except.bind]
  rw [if_neg hdot, if_neg hnul]

/-- The rest of a field after a first digit other than zero.  `left` counts down while
`x` gains a digit, so that a value below 256 leaves an iteration for the field's end. -/
theorem scanField_tail {s : CString} {f t : List Char} (hf : '.' ∉ f) (ht : FieldEnd t)
    {left q x : ℕ} (hat : s.At q (f ++ t)) (hleft : left ≤ 3) (hlow : 10 ^ (3 - left) ≤ x)
    (hx : x ≤ 255) :
    (∀ v, octetTail x f = some v →
      scanField s left q x = .ok ((v : ℤ), q + f.length + sepLength t)) ∧
    (octetTail x f = none → ∃ q', scanField s left q x = .ok (-1, q')) := by
  have hpos : 0 < left := by
    by_contra h0
    have : left = 0 := by omega
    subst this
    norm_num at hlow
    omega
  obtain ⟨left, rfl⟩ : ∃ l, left = l + 1 := ⟨left - 1, by omega⟩
  induction f generalizing left q x with
  | nil =>
    rw [List.nil_append] at hat
    refine ⟨?_, fun h => absurd h (by simp [octetTail])⟩
    intro v hv
    rw [octetTail, Option.some.injEq] at hv
    subst hv
    exact scanField_end hat ht
  | cons c f ih =>
    rw [List.mem_cons, not_or] at hf
    obtain ⟨hread, hnul, hnext⟩ := at_cons hat
    have hx0 : 0 < x := lt_of_lt_of_le (Nat.pow_pos (by norm_num)) hlow
    rcases digitVal_cases c with ⟨d, hd, hval, htmp, -⟩ | ⟨hval, htmp⟩
    · have hstep : scanField s (left + 1) q x
          = if (x : ℤ) * 10 + d > 255 then .ok (-1, q)
            else scanField s left (q + 1) ((x : ℤ) * 10 + d) := by
        rw [scanField_char hread (Ne.symm hf.1) hnul, htmp, if_neg (by omega),
          if_neg (by omega), if_neg (by omega), if_neg (by omega)]
      rw [hstep, octetTail_digit f hval]
      by_cases hle : x * 10 + d ≤ 255
      · have hlow' : 10 ^ (3 - left) ≤ x * 10 + d := by
          calc 10 ^ (3 - left) = 10 ^ (3 - (left + 1)) * 10 := by
                rw [← pow_succ]
                congr 1
                omega
            _ ≤ x * 10 := Nat.mul_le_mul_right 10 hlow
            _ ≤ x * 10 + d := Nat.le_add_right _ _
        have hleft' : 0 < left := by
          by_contra h0
          have : left = 0 := by omega
          subst this
          norm_num at hlow'
          omega
        obtain ⟨l, rfl⟩ : ∃ l, left = l + 1 := ⟨left - 1, by omega⟩
        have hrec := ih hf.2 hnext hle l (by omega) hlow' hleft'
        rw [if_pos hle, if_neg (by omega)]
        have hcast : (x : ℤ) * 10 + d = ((x * 10 + d : ℕ) : ℤ) := by push_cast; ring
        rw [hcast]
        refine ⟨?_, hrec.2⟩
        intro v hv
        rw [hrec.1 v hv, List.length_cons]
        congr 2
        omega
      · rw [if_neg hle, if_pos (by omega)]
        exact ⟨fun v hv => absurd hv (by simp), fun _ => ⟨q, rfl⟩⟩
    · have hstep : scanField s (left + 1) q x = .ok (-1, q) := by
        rw [scanField_char hread (Ne.symm hf.1) hnul, if_neg (by omega), if_pos htmp]
      rw [hstep, octetTail_other f hval]
      exact ⟨fun v hv => absurd hv (by simp), fun _ => ⟨q, rfl⟩⟩

/-- After a leading zero only the end of the field is allowed. -/
theorem scanField_zero {s : CString} {f t : List Char} (hf : '.' ∉ f) (ht : FieldEnd t)
    (left : ℕ) {q : ℕ} (hat : s.At q (f ++ t)) :
    (f = [] → scanField s (left + 1) q 0 = .ok (0, q + sepLength t)) ∧
    (f ≠ [] → scanField s (left + 1) q 0 = .ok (-1, q)) := by
  constructor
  · rintro rfl
    exact scanField_end hat ht
  · intro hne
    obtain ⟨c, f, rfl⟩ := List.exists_cons_of_ne_nil hne
    rw [List.mem_cons, not_or] at hf
    obtain ⟨hread, hnul, -⟩ := at_cons hat
    rw [scanField_char hread (Ne.symm hf.1) hnul]
    by_cases hz : (c.toNat : ℤ) - 48 = 0
    · rw [if_pos ⟨hz, rfl⟩]
    · rw [if_neg (by tauto)]
      by_cases hdig : (c.toNat : ℤ) - 48 > 9 ∨ (c.toNat : ℤ) - 48 < 0
      · rw [if_pos hdig]
      · rw [if_neg hdig, if_neg (by norm_num), if_pos rfl]

/-- **The field scanner computes `octet`** and stops behind the field and its dot. -/
theorem scanField_spec {s : CString} {f t : List Char} (hf : '.' ∉ f) (ht : FieldEnd t)
    {p : ℕ} (hat : s.At p (f ++ t)) :
    (∀ v, octet f = some v →
      scanField s 4 p (-1) = .ok ((v : ℤ), p + f.length + sepLength t)) ∧
    (octet f = none → ∃ q, scanField s 4 p (-1) = .ok (-1, q)) := by
  cases f with
  | nil => exact ⟨fun v hv => absurd hv (by simp [octet]), fun _ => ⟨_, scanField_end hat ht⟩⟩
  | cons c f =>
    rw [List.mem_cons, not_or] at hf
    obtain ⟨hread, hnul, hnext⟩ := at_cons hat
    rcases digitVal_cases c with ⟨d, hd, hval, htmp, -⟩ | ⟨hval, htmp⟩
    · have hstep : scanField s 4 p (-1) = scanField s 3 (p + 1) d := by
        rw [scanField_char hread (Ne.symm hf.1) hnul, htmp, if_neg (by omega),
          if_neg (by omega), if_pos rfl, if_neg (by omega)]
      rw [hstep, List.length_cons]
      have hlen : p + (f.length + 1) + sepLength t = p + 1 + f.length + sepLength t := by omega
      cases d with
      | zero =>
        obtain ⟨hnil, hcons⟩ := scanField_zero hf.2 ht 2 hnext
        rw [octet_digit_zero f hval]
        by_cases hfe : f = []
        · rw [if_pos hfe]
          refine ⟨?_, fun h => absurd h (by simp)⟩
          intro v hv
          rw [Option.some.injEq] at hv
          subst hv
          rw [hlen, hfe]
          exact hnil hfe
        · rw [if_neg hfe]
          exact ⟨fun v hv => absurd hv (by simp), fun _ => ⟨_, hcons hfe⟩⟩
      | succ d =>
        rw [octet_digit_succ f hval, hlen]
        exact scanField_tail hf.2 ht hnext (by omega) (by norm_num) (by omega)
    · have hstep : scanField s 4 p (-1) = .ok (-1, p) := by
        rw [scanField_char hread (Ne.symm hf.1) hnul, if_neg (by omega), if_pos htmp]
      rw [hstep, octet_other f hval]
      exact ⟨fun v hv => absurd hv (by simp), fun _ => ⟨p, rfl⟩⟩

/-! ## Dotted lists of fields -/

/-- `t` lists the fields `fs`, each followed by a dot; behind the last one the dot may
be missing. -/
inductive Dotted : List (List Char) → List Char → Prop
  | nil : Dotted [] []
  | last (f : List Char) : Dotted [f] f
  | cons {fs : List (List Char)} {t : List Char} (f : List Char) :
      Dotted fs t → Dotted (f :: fs) (f ++ '.' :: t)

/-- The fields as the outer loop wants them from field number `idx` on. -/
structure Acceptable (idx : ℕ) (fs : List (List Char)) : Prop where
  octets : ∀ f ∈ fs, IsOctet f
  length_le : idx + fs.length ≤ 4
  head_ne : idx = 0 → fs.head? ≠ some ['0']

theorem dot_not_mem_of_isOctet {f : List Char} (h : IsOctet f) : '.' ∉ f := by
  obtain ⟨v, -, rfl⟩ := h
  intro hmem
  exact absurd (Nat.isDigit_of_mem_toDigits (by norm_num) (by norm_num) hmem) (by decide)

theorem ne_nil_of_isOctet {f : List Char} (h : IsOctet f) : f ≠ [] := by
  obtain ⟨v, -, rfl⟩ := h
  exact Nat.toDigits_ne_nil

/-- Every string starts with a field and its end. -/
theorem exists_field (t : List Char) :
    ∃ f r, t = f ++ r ∧ '.' ∉ f ∧ FieldEnd r := by
  induction t with
  | nil => exact ⟨[], [], rfl, by simp, Or.inl rfl⟩
  | cons c t ih =>
    by_cases hc : c = '.'
    · exact ⟨[], c :: t, rfl, by simp, Or.inr ⟨t, by rw [hc]⟩⟩
    · obtain ⟨f, r, rfl, hf, hr⟩ := ih
      refine ⟨c :: f, r, rfl, ?_, hr⟩
      rw [List.mem_cons, not_or]
      exact ⟨Ne.symm hc, hf⟩

/-- The text up to the first dot is determined by the string. -/
theorem append_dot_inj {f g t u : List Char} (hf : '.' ∉ f) (hg : '.' ∉ g)
    (h : f ++ '.' :: t = g ++ '.' :: u) : f = g ∧ t = u := by
  have hsplit := congrArg (List.splitOn '.') h
  rw [List.splitOn_append_cons_self_of_not_mem hf,
    List.splitOn_append_cons_self_of_not_mem hg, List.cons.injEq] at hsplit
  obtain ⟨rfl, -⟩ := hsplit
  have htail := List.append_cancel_left h
  rw [List.cons.injEq] at htail
  exact ⟨rfl, htail.2⟩

/-- The first field of a dotted list of octets is the text up to the first dot. -/
theorem dotted_append_iff {f r : List Char} (hf : '.' ∉ f) (hr : FieldEnd r) (hne : f ++ r ≠ [])
    {fs : List (List Char)} (hfs : ∀ g ∈ fs, IsOctet g) :
    Dotted fs (f ++ r) ↔ ∃ fs', fs = f :: fs' ∧ Dotted fs' (r.drop 1) ∧
      (r = [] → fs' = []) := by
  constructor
  · intro h
    generalize ht : f ++ r = t at h
    cases h with
    | nil => exact absurd ht hne
    | last =>
      have hdot := dot_not_mem_of_isOctet (hfs t List.mem_cons_self)
      rcases hr with rfl | ⟨r', rfl⟩
      · rw [List.append_nil] at ht
        subst ht
        exact ⟨[], rfl, Dotted.nil, fun _ => rfl⟩
      · rw [← ht] at hdot
        simp at hdot
    | cons g h =>
      have hdot := dot_not_mem_of_isOctet (hfs g List.mem_cons_self)
      rcases hr with rfl | ⟨r', rfl⟩
      · rw [List.append_nil] at ht
        rw [ht] at hf
        simp at hf
      · obtain ⟨rfl, rfl⟩ := append_dot_inj hf hdot ht
        exact ⟨_, rfl, h, fun h => absurd h (by simp)⟩
  · rintro ⟨fs', rfl, h, hnil⟩
    rcases hr with rfl | ⟨r', rfl⟩
    · rw [hnil rfl, List.append_nil]
      exact Dotted.last f
    · exact Dotted.cons f h

/-! ## The outer loop -/

theorem checkFields_nil {s : CString} {fuel p idx : ℕ} {num : List ℤ} (hat : s.At p []) :
    checkFields s (fuel + 1) p idx num = .ok true := by
  rw [checkFields, at_nil hat]
  rfl

/-- One iteration at a field that is no octet. -/
theorem checkFields_reject {s : CString} {fuel p idx : ℕ} {num : List ℤ} {f r : List Char}
    (hf : '.' ∉ f) (hr : FieldEnd r) (hat : s.At p (f ++ r)) (hne : f ++ r ≠ [])
    (hoct : octet f = none) : checkFields s (fuel + 1) p idx num = .ok false := by
  obtain ⟨c, t, ht⟩ := List.exists_cons_of_ne_nil hne
  obtain ⟨hread, hnul, -⟩ := at_cons (ht ▸ hat)
  obtain ⟨q, hscan⟩ := (scanField_spec hf hr hat).2 hoct
  rw [checkFields, hread]
  simp only [bind, Except.bind, hscan]
  rw [if_neg hnul, if_neg (by simp)]

/-- One iteration at an octet: it is refused as a first field `0` and as a fourth field
with something behind it, and otherwise the loop goes on behind its dot. -/
theorem checkFields_octet (fuel : ℕ) (num : List ℤ) {s : CString} {p idx v : ℕ}
    {f r : List Char} (hf : '.' ∉ f) (hr : FieldEnd r) (hat : s.At p (f ++ r))
    (hne : f ++ r ≠ []) (hoct : octet f = some v) (hidx : idx < 4) :
    s.At (p + f.length + sepLength r) (r.drop 1) ∧
    checkFields s (fuel + 1) p idx num
      = if idx = 0 ∧ v = 0 then .ok false
        else if idx = 3 ∧ r.drop 1 ≠ [] then .ok false
        else checkFields s fuel (p + f.length + sepLength r) (idx + 1) (num.set idx v) := by
  obtain ⟨c, t, ht⟩ := List.exists_cons_of_ne_nil hne
  obtain ⟨hread, hnul, -⟩ := at_cons (ht ▸ hat)
  have hscan := (scanField_spec hf hr hat).1 v hoct
  have hend := at_append hat
  have hnext : s.At (p + f.length + sepLength r) (r.drop 1) := by
    rcases hr with rfl | ⟨r', rfl⟩
    · exact hend
    · exact (at_cons hend).2.2
  refine ⟨hnext, ?_⟩
  have hwrite : writeNum num idx v = .ok (num.set idx v) := if_pos hidx
  rw [checkFields, hread]
  simp only [bind, Except.bind, hscan, hwrite]
  rw [if_neg hnul, if_pos (by omega)]
  by_cases h0 : idx = 0 ∧ v = 0
  · rw [if_pos h0, if_pos (by omega)]
  · rw [if_neg h0, if_neg (by omega)]
    by_cases h3 : idx = 3
    · rw [if_pos (by omega : idx + 1 = 4)]
      by_cases hr' : r.drop 1 = []
      · rw [if_neg (by tauto), at_nil (hr' ▸ hnext)]
        simp
      · obtain ⟨d, u, hu⟩ := List.exists_cons_of_ne_nil hr'
        obtain ⟨hread', hnul', -⟩ := at_cons (hu ▸ hnext)
        rw [if_pos ⟨h3, hr'⟩, hread']
        simp [hnul']
    · rw [if_neg (by omega), if_neg (by tauto)]

/-- A field without octet form rules out every dotted list of octets. -/
theorem not_acceptable_of_octet_none {idx : ℕ} {f r : List Char} (hf : '.' ∉ f)
    (hr : FieldEnd r) (hne : f ++ r ≠ []) (hoct : octet f = none) :
    ¬ ∃ fs, Dotted fs (f ++ r) ∧ Acceptable idx fs := by
  rintro ⟨fs, hdot, hacc⟩
  obtain ⟨fs', rfl, -, -⟩ := (dotted_append_iff hf hr hne hacc.octets).mp hdot
  obtain ⟨v, hv⟩ := isOctet_iff.mp (hacc.octets f List.mem_cons_self)
  rw [hoct] at hv
  exact absurd hv (by simp)

/-- An octet is the first field of an acceptable list when it is no leading zero and the
rest is acceptable, which after a fourth field means empty. -/
theorem acceptable_octet_iff {idx v : ℕ} {f r : List Char} (hf : '.' ∉ f) (hr : FieldEnd r)
    (hne : f ++ r ≠ []) (hoct : octet f = some v) (hidx : idx < 4) :
    (∃ fs, Dotted fs (f ++ r) ∧ Acceptable idx fs) ↔
      ¬ (idx = 0 ∧ v = 0) ∧ ∃ fs, Dotted fs (r.drop 1) ∧ Acceptable (idx + 1) fs := by
  have hzero : v = 0 ↔ f = ['0'] := by
    rw [← octet_zero_iff, hoct, Option.some.injEq]
  constructor
  · rintro ⟨fs, hdot, hacc⟩
    obtain ⟨fs', rfl, hdot', -⟩ := (dotted_append_iff hf hr hne hacc.octets).mp hdot
    have hlen := hacc.length_le
    rw [List.length_cons] at hlen
    refine ⟨?_, fs', hdot', ⟨fun g hg => hacc.octets g (List.mem_cons_of_mem _ hg), by omega,
      by omega⟩⟩
    rintro ⟨h0, hv⟩
    exact hacc.head_ne h0 (by rw [List.head?_cons, hzero.mp hv])
  · rintro ⟨hlead, fs, hdot, hacc⟩
    have hlen := hacc.length_le
    have hocts : ∀ g ∈ f :: fs, IsOctet g := by
      intro g hg
      rcases List.mem_cons.mp hg with rfl | hg
      · exact isOctet_iff.mpr ⟨v, hoct⟩
      · exact hacc.octets g hg
    refine ⟨f :: fs, ?_, ⟨hocts, by rw [List.length_cons]; omega, ?_⟩⟩
    · rw [dotted_append_iff hf hr hne hocts]
      refine ⟨fs, rfl, hdot, ?_⟩
      rintro rfl
      cases fs with
      | nil => rfl
      | cons g fs =>
        have hg := ne_nil_of_isOctet (hacc.octets g List.mem_cons_self)
        generalize ht : ([] : List Char).drop 1 = t at hdot
        cases hdot with
        | last => exact absurd ht.symm hg
        | cons => exact absurd ht (by simp)
    · intro h0 hhead
      rw [List.head?_cons, Option.some.injEq] at hhead
      exact hlead ⟨h0, hzero.mpr hhead⟩

theorem dotted_nil_acceptable {idx : ℕ} (h : idx ≤ 4) :
    ∃ fs, Dotted fs [] ∧ Acceptable idx fs :=
  ⟨[], Dotted.nil, ⟨by simp, h, by simp⟩⟩

/-- With four fields read, only the end of the string is acceptable. -/
theorem acceptable_four_iff {t : List Char} :
    (∃ fs, Dotted fs t ∧ Acceptable 4 fs) ↔ t = [] := by
  constructor
  · rintro ⟨fs, hdot, hacc⟩
    have hlen := hacc.length_le
    cases hdot with
    | nil => rfl
    | last => rw [List.length_singleton] at hlen; omega
    | cons => rw [List.length_cons] at hlen; omega
  · rintro rfl
    exact dotted_nil_acceptable le_rfl

/-- **The outer loop.**  From field number `idx` on it answers, without a fault, whether
the rest of the string is a dotted list of octets that still fit. -/
theorem checkFields_spec (s : CString) (fuel : ℕ) :
    ∀ (p idx : ℕ) (num : List ℤ) (t : List Char), s.At p t → t.length < fuel →
      (idx < 4 ∨ idx = 4 ∧ t = []) →
      ∃ b, checkFields s fuel p idx num = .ok b ∧
        (b = true ↔ ∃ fs, Dotted fs t ∧ Acceptable idx fs) := by
  induction fuel with
  | zero => intro p idx num t _ h; omega
  | succ fuel ih =>
    intro p idx num t hat hfuel hidx
    obtain ⟨f, r, rfl, hf, hr⟩ := exists_field t
    by_cases hne : f ++ r = []
    · rw [hne] at hat ⊢
      exact ⟨true, checkFields_nil hat, by simp [dotted_nil_acceptable (by omega : idx ≤ 4)]⟩
    · have hidx' : idx < 4 := by tauto
      cases hoct : octet f with
      | none =>
        refine ⟨false, checkFields_reject hf hr hat hne hoct, ?_⟩
        simp [not_acceptable_of_octet_none hf hr hne hoct]
      | some v =>
        obtain ⟨hnext, hstep⟩ := checkFields_octet fuel num hf hr hat hne hoct hidx'
        rw [hstep, acceptable_octet_iff hf hr hne hoct hidx']
        by_cases h0 : idx = 0 ∧ v = 0
        · exact ⟨false, if_pos h0, by simp [h0]⟩
        · rw [if_neg h0]
          by_cases h3 : idx = 3 ∧ r.drop 1 ≠ []
          · refine ⟨false, if_pos h3, ?_⟩
            have hno : ¬ ∃ fs, Dotted fs (r.drop 1) ∧ Acceptable (idx + 1) fs := by
              rw [h3.1, acceptable_four_iff]
              exact h3.2
            exact ⟨fun h => absurd h (by simp), fun h => absurd h.2 hno⟩
          · have hlen : (r.drop 1).length < fuel := by
              have hpos : 0 < (f ++ r).length := List.length_pos_of_ne_nil hne
              rw [List.length_append] at hfuel hpos
              rw [List.length_drop]
              omega
            have hidx'' : idx + 1 < 4 ∨ idx + 1 = 4 ∧ r.drop 1 = [] := by
              by_cases hlt : idx = 3
              · exact Or.inr ⟨by omega, by_contra fun hr' => h3 ⟨hlt, hr'⟩⟩
              · exact Or.inl (by omega)
            obtain ⟨b, hb, hiff⟩ := ih _ (idx + 1) (num.set idx v) _ hnext hlen hidx''
            refine ⟨b, by rw [if_neg h3, hb], ?_⟩
            rw [hiff]
            simp [h0]

/-- **What is accepted.**  `IsValidIpv4` faults on no string, and it answers `true` exactly
for the dotted lists of at most four octets whose first one is not `0`. -/
theorem isValidIpv4_iff (s : CString) :
    ∃ b, isValidIpv4 s = .ok b ∧
      (b = true ↔ ∃ fs, Dotted fs s.chars ∧ Acceptable 0 fs) :=
  checkFields_spec s _ 0 0 _ s.chars (at_zero s) (Nat.lt_succ_self _) (Or.inl (by norm_num))

/-! ## Full addresses -/

/-- A dotted list is its fields joined by dots, or that and one more dot. -/
theorem dotted_iff {fs : List (List Char)} {t : List Char} :
    Dotted fs t ↔ t = ['.'].intercalate fs ∨ (fs ≠ [] ∧ t = ['.'].intercalate fs ++ ['.']) := by
  constructor
  · intro h
    induction h with
    | nil => exact Or.inl rfl
    | last f => exact Or.inl (by simp)
    | cons f h ih =>
      rename_i fs t
      cases fs with
      | nil =>
        cases h
        exact Or.inr ⟨by simp, by simp⟩
      | cons g fs =>
        rw [List.intercalate_cons_cons]
        rcases ih with rfl | ⟨-, rfl⟩
        · exact Or.inl (by simp)
        · exact Or.inr ⟨by simp, by simp⟩
  · intro h
    induction fs generalizing t with
    | nil =>
      rcases h with rfl | ⟨hne, -⟩
      · exact Dotted.nil
      · exact absurd rfl hne
    | cons f fs ih =>
      cases fs with
      | nil =>
        rcases h with rfl | ⟨-, rfl⟩
        · rw [List.intercalate_singleton]
          exact Dotted.last f
        · rw [List.intercalate_singleton]
          exact Dotted.cons f Dotted.nil
      | cons g fs =>
        rw [List.intercalate_cons_cons] at h
        rcases h with rfl | ⟨-, rfl⟩
        · have htail := Dotted.cons f (ih (Or.inl rfl))
          simpa using htail
        · have htail := Dotted.cons f (ih (Or.inr ⟨by simp, rfl⟩))
          simpa using htail

/-- Joined octets are read back by splitting at the dots. -/
theorem splitOn_intercalate_octets {fs : List (List Char)} (hoct : ∀ f ∈ fs, IsOctet f)
    (hne : fs ≠ []) : (['.'].intercalate fs).splitOn '.' = fs :=
  List.splitOn_intercalate '.' (fun f hf => dot_not_mem_of_isOctet (hoct f hf)) hne

/-- Splitting at the dots gives four fields, none of them empty. -/
def Full (s : CString) : Prop :=
  (s.chars.splitOn '.').length = 4 ∧ ∀ f ∈ s.chars.splitOn '.', f ≠ []

/-- At most three octets with or without a dot at the end, the empty string among them, or
up to four octets with a dot at the end; the first one is not `0`. -/
def Incomplete (s : CString) : Prop :=
  ∃ fs : List (List Char), (∀ f ∈ fs, IsOctet f) ∧ fs.head? ≠ some ['0'] ∧
    ((fs.length ≤ 3 ∧ s.chars = ['.'].intercalate fs) ∨
      (fs ≠ [] ∧ fs.length ≤ 4 ∧ s.chars = ['.'].intercalate fs ++ ['.']))

theorem not_full_of_incomplete {s : CString} (h : Incomplete s) : ¬ Full s := by
  obtain ⟨fs, hoct, -, ⟨hlen, hs⟩ | ⟨hne, -, hs⟩⟩ := h
  · rintro ⟨h4, -⟩
    rw [hs] at h4
    cases fs with
    | nil => exact absurd h4 (by decide)
    | cons f fs =>
      rw [splitOn_intercalate_octets hoct (List.cons_ne_nil f fs)] at h4
      omega
  · rintro ⟨-, hall⟩
    rw [hs, List.splitOn_append_cons_self] at hall
    exact hall [] (List.mem_append_right _ (by simp)) rfl

/-- **The address check over all strings.**  An accepted string is a full address exactly
when the string is not one of the incomplete ones. -/
theorem isValidIpv4_full_iff (s : CString) :
    (isValidIpv4 s = .ok true → Full s) ↔ ¬ Incomplete s := by
  obtain ⟨b, hb, hiff⟩ := isValidIpv4_iff s
  have hacc : isValidIpv4 s = .ok true ↔ ∃ fs, Dotted fs s.chars ∧ Acceptable 0 fs := by
    rw [hb, ← hiff, Except.ok.injEq]
  rw [hacc]
  constructor
  · intro h hinc
    refine not_full_of_incomplete hinc (h ?_)
    obtain ⟨fs, hoct, hhead, hs⟩ := hinc
    rcases hs with ⟨hlen, hs⟩ | ⟨hne, hlen, hs⟩
    · exact ⟨fs, dotted_iff.mpr (Or.inl hs), hoct, by omega, fun _ => hhead⟩
    · exact ⟨fs, dotted_iff.mpr (Or.inr ⟨hne, hs⟩), hoct, by omega, fun _ => hhead⟩
  · rintro hinc ⟨fs, hdot, hoct, hlen, hhead⟩
    rcases dotted_iff.mp hdot with hs | ⟨hne, hs⟩
    · have h4 : fs.length = 4 := by
        by_contra hne
        exact hinc ⟨fs, hoct, hhead rfl, Or.inl ⟨by omega, hs⟩⟩
      have hsplit : s.chars.splitOn '.' = fs := by
        rw [hs]
        apply splitOn_intercalate_octets hoct
        rintro rfl
        exact absurd h4 (by decide)
      rw [Full, hsplit]
      exact ⟨h4, fun f hf => ne_nil_of_isOctet (hoct f hf)⟩
    · exact absurd ⟨fs, hoct, hhead rfl, Or.inr ⟨hne, by omega, hs⟩⟩ hinc

/-- Three fields are accepted. -/
theorem isValidIpv4_three_fields :
    isValidIpv4 ⟨"1.2.3".toList, by decide⟩ = .ok true ∧
      ¬ Full ⟨"1.2.3".toList, by decide⟩ :=
  ⟨rfl, fun h => absurd h.1 (by decide)⟩

/-! ## Four given fields -/

/-- A field: any text without separator and terminator. -/
structure Field where
  chars : List Char
  dot_not_mem : '.' ∉ chars
  nul_not_mem : nul ∉ chars

/-- The texts of four fields, in their order. -/
def fieldTexts (f₁ f₂ f₃ f₄ : Field) : List (List Char) :=
  [f₁.chars, f₂.chars, f₃.chars, f₄.chars]

/-- The string `f₁.f₂.f₃.f₄`. -/
def joined (f₁ f₂ f₃ f₄ : Field) : CString where
  chars := ['.'].intercalate (fieldTexts f₁ f₂ f₃ f₄)
  nul_not_mem := by
    have hdot : nul ≠ '.' := by decide
    simp [fieldTexts, f₁.nul_not_mem, f₂.nul_not_mem, f₃.nul_not_mem, f₄.nul_not_mem, hdot]

theorem splitOn_joined (f₁ f₂ f₃ f₄ : Field) :
    (joined f₁ f₂ f₃ f₄).chars.splitOn '.' = fieldTexts f₁ f₂ f₃ f₄ := by
  apply List.splitOn_intercalate
  · intro f hf
    simp only [fieldTexts, List.mem_cons, List.not_mem_nil, or_false] at hf
    rcases hf with rfl | rfl | rfl | rfl
    · exact f₁.dot_not_mem
    · exact f₂.dot_not_mem
    · exact f₃.dot_not_mem
    · exact f₄.dot_not_mem
  · exact List.cons_ne_nil _ _

/-- The only octets listed by four joined fields are the fields themselves, when the last
one is not empty. -/
theorem dotted_joined {f₁ f₂ f₃ f₄ : Field} (h₄ : f₄.chars ≠ []) {fs : List (List Char)}
    (hoct : ∀ f ∈ fs, IsOctet f) (hdot : Dotted fs (joined f₁ f₂ f₃ f₄).chars) :
    fs = fieldTexts f₁ f₂ f₃ f₄ := by
  have hsplit := splitOn_joined f₁ f₂ f₃ f₄
  have hne : fs ≠ [] := by
    rintro rfl
    have hnil : (joined f₁ f₂ f₃ f₄).chars = [] := by
      rcases dotted_iff.mp hdot with hs | ⟨hne, -⟩
      · exact hs
      · exact absurd rfl hne
    rw [hnil] at hsplit
    exact absurd hsplit (by simp [fieldTexts])
  rcases dotted_iff.mp hdot with hs | ⟨-, hs⟩
  · rw [hs, splitOn_intercalate_octets hoct hne] at hsplit
    exact hsplit
  · -- a dot behind the last octet would leave an empty last field
    rw [hs, List.splitOn_append_cons_self, splitOn_intercalate_octets hoct hne] at hsplit
    have hlast := congrArg List.getLast? hsplit
    simp [fieldTexts] at hlast
    exact absurd hlast h₄

/-- **Exact field check.**  Four fields without dots and terminators, the last one not empty,
are accepted exactly when each one is the canonical decimal form of a number up to 255 and
the first one is not `0`. -/
theorem isValidIpv4_joined_iff (f₁ f₂ f₃ f₄ : Field) (h₄ : f₄.chars ≠ []) :
    ∃ b, isValidIpv4 (joined f₁ f₂ f₃ f₄) = .ok b ∧
      (b = true ↔ (∀ f ∈ [f₁, f₂, f₃, f₄], IsOctet f.chars) ∧ f₁.chars ≠ ['0']) := by
  obtain ⟨b, hb, hiff⟩ := isValidIpv4_iff (joined f₁ f₂ f₃ f₄)
  refine ⟨b, hb, hiff.trans ?_⟩
  constructor
  · rintro ⟨fs, hdot, hoct, -, hhead⟩
    obtain rfl := dotted_joined h₄ hoct hdot
    refine ⟨?_, ?_⟩
    · intro f hf
      apply hoct
      exact List.mem_map_of_mem (f := Field.chars) hf
    · have h1 := hhead rfl
      intro h
      apply h1
      rw [fieldTexts, List.head?_cons, h]
  · rintro ⟨hoct, hzero⟩
    refine ⟨fieldTexts f₁ f₂ f₃ f₄, dotted_iff.mpr (Or.inl rfl), ?_, le_refl 4, ?_⟩
    · intro f hf
      obtain ⟨g, hg, rfl⟩ := List.mem_map.mp (show f ∈ [f₁, f₂, f₃, f₄].map Field.chars from hf)
      exact hoct g hg
    · intro _ h
      rw [fieldTexts, List.head?_cons, Option.some.injEq] at h
      exact hzero h

/-- The field `255`. -/
def field255 : Field := ⟨"255".toList, by decide, by decide⟩

/-- `255.255.255.255` is accepted. -/
theorem isValidIpv4_joined_255 :
    isValidIpv4 (joined field255 field255 field255 field255) = .ok true := by
  have hoct : IsOctet field255.chars := ⟨255, le_refl 255, by decide⟩
  obtain ⟨b, hb, hiff⟩ := isValidIpv4_joined_iff field255 field255 field255 field255 (by decide)
  obtain rfl : b = true := by
    apply hiff.mpr
    refine ⟨?_, by decide⟩
    intro f hf
    simp only [List.mem_cons, List.not_mem_nil, or_false, or_self] at hf
    rw [hf]
    exact hoct
  exact hb

end Ipv4
