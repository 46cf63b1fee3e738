/-
# The run of `IsValidIpv4`

The outer loop as a machine: an iteration reads one field and goes on behind it, or the
function returns.

* `Inside` : the invariant, which ties `p` and `idx` to the end of the string;
* `iteration_spec` : an iteration from there reads and writes inside of the arrays, and leaves
  `p` behind the field;
* `isValidIpv4_safe` : no run has a fault.
-/
import Pungoo.Failing
import Pungoo.Ipv4Grammar
import Pungoo.Machine

namespace Ipv4

open Failing Machine

/-- The variables of the outer loop. -/
structure Vars where
  p : ℕ
  idx : ℕ
  num : List ℤ

/-- The variables at the start. -/
def start : Vars := ⟨0, 0, [-1, -1, -1, -1]⟩

/-- An iteration of the outer loop, from the test of its condition. -/
def iteration (s : CString) (v : Vars) : Vars ⊕ Except Fault Bool :=
  ofExcept do
    let c ← s.read v.p
    if c = nul then
      return .inr true
    else
      let (x, q) ← scanField s 4 v.p (-1)
      if x ≠ -1 then
        if v.idx = 0 ∧ x = 0 then
          return .inr false
        else
          let num ← writeNum v.num v.idx x
          let idx := v.idx + 1
          if idx = 4 then
            let c ← s.read q
            if c ≠ nul then return .inr false else return .inl ⟨q, idx, num⟩
          else
            return .inl ⟨q, idx, num⟩
      else
        return .inr false

variable {s : CString} {v w : Vars} {p q left : ℕ} {x : ℤ}

/-- The loop of the function is the loop of the iterations. -/
theorem checkFields_succ (s : CString) (fuel : ℕ) (v : Vars) :
    checkFields s (fuel + 1) v.p v.idx v.num =
      match iteration s v with
      | .inl w => checkFields s fuel w.p w.idx w.num
      | .inr r => r := by
  rw [checkFields, iteration]
  cases s.read v.p with
  | error e => rfl
  | ok c =>
    rw [ok_bind, ok_bind]
    by_cases hc : c = nul
    · rw [if_pos hc, if_pos hc]
      rfl
    · rw [if_neg hc, if_neg hc]
      cases scanField s 4 v.p (-1) with
      | error e => rfl
      | ok r =>
        rw [ok_bind, ok_bind]
        dsimp only
        by_cases hx : r.1 ≠ -1
        · rw [if_pos hx, if_pos hx]
          by_cases hzero : v.idx = 0 ∧ r.1 = 0
          · rw [if_pos hzero, if_pos hzero]
            rfl
          · rw [if_neg hzero, if_neg hzero]
            cases writeNum v.num v.idx r.1 with
            | error e => rfl
            | ok num =>
              rw [ok_bind, ok_bind]
              by_cases hidx : v.idx + 1 = 4
              · rw [if_pos hidx, if_pos hidx]
                cases s.read r.2 with
                | error e => rfl
                | ok c' =>
                  rw [ok_bind, ok_bind]
                  by_cases hc' : c' ≠ nul
                  · rw [if_pos hc', if_pos hc']
                    rfl
                  · rw [if_neg hc', if_neg hc']
                    rfl
              · rw [if_neg hidx, if_neg hidx]
                rfl
        · rw [if_neg hx, if_neg hx]
          rfl

/-! ## Reading inside of the string -/

theorem read_inside (hp : p ≤ s.chars.length) :
    (∃ c, s.read p = .ok c ∧ c ≠ nul ∧ p < s.chars.length) ∨
      (s.read p = .ok nul ∧ p = s.chars.length) := by
  unfold CString.read
  rcases Nat.eq_or_lt_of_le hp with heq | hlt
  · rw [dif_neg (by omega), if_pos heq]
    exact Or.inr ⟨rfl, heq⟩
  · rw [dif_pos hlt]
    refine Or.inl ⟨_, rfl, ?_, hlt⟩
    intro hnul
    exact s.nul_not_mem (hnul ▸ List.getElem_mem hlt)

/-- The inner loop stays inside of the string.  It leaves a value only behind a digit. -/
theorem scanField_inside (left : ℕ) (hq : q ≤ s.chars.length) :
    ∃ y q', scanField s left q x = .ok (y, q') ∧ q ≤ q' ∧ q' ≤ s.chars.length ∧
      (x = -1 → y ≠ -1 → q < q') := by
  induction left generalizing q x with
  | zero => exact ⟨x, q, rfl, le_refl q, hq, fun hx hy => absurd hx hy⟩
  | succ left ih =>
    have hreject : ∃ y q', (.ok (-1, q) : Except Fault (ℤ × ℕ)) = .ok (y, q') ∧ q ≤ q' ∧
        q' ≤ s.chars.length ∧ (x = -1 → y ≠ -1 → q < q') :=
      ⟨-1, q, rfl, le_refl q, hq, fun _ hy => absurd rfl hy⟩
    rcases read_inside hq with ⟨c, hread, hnul, hlt⟩ | ⟨hread, -⟩
    · have hnext : ∀ x', ∃ y q', scanField s left (q + 1) x' = .ok (y, q') ∧ q ≤ q' ∧
          q' ≤ s.chars.length ∧ (x = -1 → y ≠ -1 → q < q') := by
        intro x'
        obtain ⟨y, q', hrun, hle, hlen, -⟩ := ih (x := x') hlt
        exact ⟨y, q', hrun, by omega, hlen, fun _ _ => by omega⟩
      by_cases hdot : c = '.'
      · rw [scanField, hread, ok_bind, if_pos hdot]
        exact ⟨x, q + 1, rfl, Nat.le_succ q, hlt, fun _ _ => Nat.lt_succ_self q⟩
      · rw [scanField_char hread hdot hnul]
        split_ifs
        · exact hreject
        · exact hreject
        · exact hreject
        · exact hnext _
        · exact hreject
        · exact hreject
        · exact hnext _
    · rw [scanField, hread, ok_bind, if_neg (by decide), if_pos rfl]
      exact ⟨x, q, rfl, le_refl q, hq, fun hx hy => absurd hx hy⟩

/-! ## The invariant of the outer loop -/

/-- The pointer is inside of the string or at its end, and as long as there is something to
read there is a number to write. -/
structure Inside (s : CString) (v : Vars) : Prop where
  p_le : v.p ≤ s.chars.length
  idx_le : v.idx ≤ 4
  idx_lt : v.p < s.chars.length → v.idx < 4

theorem inside_start (s : CString) : Inside s start :=
  ⟨Nat.zero_le _, by decide, fun _ => by decide⟩

/-- One iteration: the function returns, or it goes on behind at least one character. -/
theorem iteration_spec (h : Inside s v) :
    (∃ b, iteration s v = .inr (.ok b)) ∨
      ∃ w, iteration s v = .inl w ∧ v.p < w.p ∧ Inside s w := by
  unfold iteration
  rcases read_inside h.p_le with ⟨c, hread, hnul, hlt⟩ | ⟨hread, -⟩
  · have hidx := h.idx_lt hlt
    obtain ⟨x, q, hscan, -, hq, hprogress⟩ := scanField_inside (x := -1) 4 h.p_le
    rw [hread, ok_bind, if_neg hnul, hscan, ok_bind]
    dsimp only
    by_cases hx : x ≠ -1
    · have hpq := hprogress rfl hx
      rw [if_pos hx]
      split_ifs with hzero h4
      · exact Or.inl ⟨false, rfl⟩
      · rw [writeNum, if_pos hidx, ok_bind]
        rcases read_inside hq with ⟨c', hread', hnul', -⟩ | ⟨hread', hend⟩
        · rw [hread', ok_bind, if_pos hnul']
          exact Or.inl ⟨false, rfl⟩
        · rw [hread', ok_bind, if_neg (not_not.mpr rfl)]
          refine Or.inr ⟨_, rfl, hpq, hq, Nat.le_of_eq h4, ?_⟩
          exact fun hlt' => absurd hend (Nat.ne_of_lt hlt')
      · rw [writeNum, if_pos hidx, ok_bind]
        exact Or.inr ⟨_, rfl, hpq, hq, hidx, fun _ => by dsimp only; omega⟩
    · rw [if_neg hx]
      exact Or.inl ⟨false, rfl⟩
  · rw [hread, ok_bind, if_pos rfl]
    exact Or.inl ⟨true, rfl⟩

theorem inside_of_visits (h : Visits (iteration s) start v) : Inside s v := by
  apply h.invariant
  · intro u w hu hgoes
    rcases iteration_spec hu with ⟨b, hstop⟩ | ⟨w', hgoes', -, hw'⟩
    · rw [hstop] at hgoes
      exact absurd hgoes Sum.inr_ne_inl
    · rw [hgoes'] at hgoes
      obtain rfl := Sum.inl.inj hgoes
      exact hw'
  · exact inside_start s

/-- From inside, the loop ends within as many iterations as there are characters left. -/
theorem checkFields_returns (fuel : ℕ) (hfuel : s.chars.length < fuel + v.p) (h : Inside s v) :
    ∃ b, checkFields s fuel v.p v.idx v.num = .ok b ∧ Returns (iteration s) v (.ok b) := by
  induction fuel generalizing v with
  | zero =>
    have hp := h.p_le
    omega
  | succ fuel ih =>
    rw [checkFields_succ]
    rcases iteration_spec h with ⟨b, hstop⟩ | ⟨w, hgoes, hlt, hw⟩
    · rw [hstop]
      exact ⟨b, rfl, returns_of_stop hstop⟩
    · rw [hgoes]
      obtain ⟨b, hrun, hret⟩ := ih (v := w) (by omega) hw
      exact ⟨b, hrun, returns_of_goes hgoes hret⟩

/-- **Safety and progress.**  `IsValidIpv4` returns on every string, and its value is that of
the run of the iterations.  In every state of this run the iteration commits no fault, what it
writes is one of the four numbers, and it returns or goes on behind at least one character. -/
theorem isValidIpv4_safe (s : CString) :
    (∃ b, isValidIpv4 s = .ok b ∧ Returns (iteration s) start (.ok b)) ∧
    ∀ v, Visits (iteration s) start v →
      v.p ≤ s.chars.length ∧ (v.p < s.chars.length → v.idx ≤ 3) ∧
      (∀ f, iteration s v ≠ .inr (.error f)) ∧ ∀ w, iteration s v = .inl w → v.p < w.p := by
  obtain ⟨b, hrun, hret⟩ := checkFields_returns _ (Nat.lt_succ_self _) (inside_start s)
  refine ⟨⟨b, hrun, hret⟩, ?_⟩
  intro v hv
  have h := inside_of_visits hv
  refine ⟨h.p_le, fun hlt => Nat.le_of_lt_succ (h.idx_lt hlt), ?_, ?_⟩
  · intro f hf
    exact absurd (hret.eq_of_stop hv hf) (by simp)
  · intro w hw
    rcases iteration_spec h with ⟨b, hstop⟩ | ⟨w', hgoes, hlt, -⟩
    · rw [hstop] at hw
      exact absurd hw Sum.inr_ne_inl
    · rw [hgoes] at hw
      obtain rfl := Sum.inl.inj hw
      exact hlt

end Ipv4
