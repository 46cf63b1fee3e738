/-
# The circular span: `Solution::span_counter` of `cpp/problem/min_span.cpp`

`n` coloured beads form a circle.  `span_counter` looks for the shortest window of
consecutive beads that has exactly `m` colours.  It walks twice around the circle;
`i` is the last bead of the current window, `lastidx` its first one, and `mapColor`
counts the colours in between.  Whenever the window has `m` colours, the inner loop
takes beads off its start until a colour is lost.

Window lengths are taken modulo `n`.  The `int`s that can leave their range are
`n + 1` and `2 * n`; this is undefined in C++, and `spanCounter` is `none` there.
-/
import Pungoo.Window
import Mathlib.Data.List.AList
import Mathlib.Data.Int.Notation

namespace MinSpan

/-- `INT_MAX`. -/
def intMax : ℕ := 2 ^ 31 - 1

/-! ## `map<int, int>` -/

/-- `map<int, int>`: colours with the number of beads counted for them. -/
abbrev ColorMap := AList (fun _ : ℤ => ℕ)

/-- The value of `mapColor[color]`; an absent colour counts zero. -/
def ColorMap.value (mapColor : ColorMap) (color : ℤ) : ℕ := (mapColor.lookup color).getD 0

/-- `++mapColor[color]`. -/
def ColorMap.increment (mapColor : ColorMap) (color : ℤ) : ColorMap :=
  AList.insert color (mapColor.value color + 1) mapColor

/-- `--mapColor[color]`. -/
def ColorMap.decrement (mapColor : ColorMap) (color : ℤ) : ColorMap :=
  AList.insert color (mapColor.value color - 1) mapColor

/-- `mapColor.size()`. -/
def ColorMap.size (mapColor : ColorMap) : ℕ := mapColor.keys.length

/-! ## The scan -/

/-- The local variables that live across the iterations. -/
structure Scan where
  lastidx : ℕ
  mapColor : ColorMap
  bestlen : ℤ
  bestidx : ℤ

/-- `arr[idx]`. -/
def bead (arr : List ℤ) (idx : ℕ) : ℤ := arr.getD idx 0

/-- `(i - lastidx + 1) % n`. -/
def curlen (n i lastidx : ℕ) : ℤ := ((i : ℤ) - lastidx + 1).tmod n

/-- The inner loop, with `left` iterations to go; the first component is `flag`.
Reading an absent colour in the condition would insert it, but the `else` branch
erases it again. -/
def shrink (arr : List ℤ) (n i : ℕ) : ℕ → Scan → Bool × Scan
  | 0, s => (false, s)
  | left + 1, s =>
    -- the start of the window stays on the first lap
    if s.lastidx + 1 ≥ n then
      (true, s)
    else
      let color := bead arr s.lastidx
      let lastidx := (s.lastidx + 1) % n
      if 1 < s.mapColor.value color then
        let curlen2 := curlen n i lastidx
        if s.bestlen > curlen2 then
          shrink arr n i left ⟨lastidx, s.mapColor.decrement color, curlen2, lastidx⟩
        else
          shrink arr n i left ⟨lastidx, s.mapColor.decrement color, s.bestlen, s.bestidx⟩
      else
        (false, ⟨lastidx, s.mapColor.erase color, s.bestlen, s.bestidx⟩)

/-- The outer loop from `i` on, with `left` iterations to go. -/
def scan (arr : List ℤ) (n m : ℕ) : ℕ → ℕ → Scan → Scan
  | 0, _, s => s
  | left + 1, i, s =>
    let s := { s with mapColor := s.mapColor.increment (bead arr (i % n)) }
    if m = s.mapColor.size then
      let curlen1 := curlen n i s.lastidx
      -- a window of `curlen1` beads with `m` colours can lose `curlen1 - m` and no more
      let (flag, s) := shrink arr n i (curlen1 - m + 1).toNat s
      if flag then s else scan arr n m left (i + 1) s
    else
      scan arr n m left (i + 1) s

/-- `Solution::span_counter(arr, n, m, first)`: the returned length and `first`. -/
def spanCounter (arr : List ℤ) (n m : ℕ) : Option (ℤ × ℤ) :=
  if n + 1 > intMax then none
  else if n < m then some (n + 1, -1)
  else if 2 * n > intMax then none
  else
    let s := scan arr n m (2 * n) 0 ⟨0, ∅, n + 1, -1⟩
    some (s.bestlen, s.bestidx)

/-! ## The unrolled circle -/

/-- The bead at position `p` when the circle is walked around again and again. -/
def circle (arr : List ℤ) (n : ℕ) (p : ℕ) : ℤ := bead arr (p % n)

theorem periodic_circle (arr : List ℤ) {n : ℕ} (hn : 0 < n) :
    Window.Periodic (circle arr n) n :=
  ⟨hn, fun p => by rw [circle, circle, Nat.mod_mod]⟩

theorem circle_of_lt (arr : List ℤ) {n p : ℕ} (h : p < n) : circle arr n p = bead arr p := by
  unfold circle
  rw [Nat.mod_eq_of_lt h]

theorem curlen_eq {n i lastidx : ℕ} (h : lastidx ≤ i + 1) :
    curlen n i lastidx = ((i + 1 - lastidx) % n : ℕ) := by
  have hcast : (i : ℤ) - lastidx + 1 = ((i + 1 - lastidx : ℕ) : ℤ) := by omega
  unfold curlen
  rw [hcast, Int.ofNat_tmod]

end MinSpan
