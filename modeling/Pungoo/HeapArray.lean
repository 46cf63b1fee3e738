/-
# Heaps in arrays

A sift function goes down from a node by rounds.  `Rounds` says what one round may do, for
any tree and any order; from it follows what a whole call does (`sifted_of_rounds`).  The
two phases of a heap sort have one invariant each, `Building` and `Emptying`, and one
sift keeps them.

A sift whose nodes have to pass a check fails when one of them does not.  `descent` is the way
of a sift without the check, and `Guarded` says that a run fails exactly on its way.
-/
import Pungoo.Heap
import Pungoo.IntArray

namespace HeapArray

open Shuffle IntArray Heap

variable {t : Tree} {r : ℤ → ℤ → Prop} {n m p pos : ℕ} {arr arr' : List ℤ}

/-- Every round of `sift` at a node of the first `n` either returns, because the node comes
before its children, or goes on at the child that comes first, after an exchange with it. -/
def Rounds (t : Tree) (r : ℤ → ℤ → Prop) (n : ℕ)
    (sift : ℕ → List ℤ → ℕ → Except Fault (List ℤ)) : Prop :=
  ∀ (fuel : ℕ) (arr : List ℤ) (pos : ℕ), pos < n → n ≤ arr.length →
    (sift (fuel + 1) arr pos = .ok arr ∧
      ∀ s, t.IsChild s pos → s < n → r (cell arr pos) (cell arr s)) ∨
    (∃ c, t.IsChild c pos ∧ c < n ∧ r (cell arr c) (cell arr pos) ∧
      (∀ s, t.IsChild s pos → s < n → r (cell arr c) (cell arr s)) ∧
      sift (fuel + 1) arr pos = sift fuel (exchange arr pos c) c)

/-- The array `arr'` is `arr` after sifting down from `pos`: the subtree is rearranged, and it
is ordered when only its root was out of order. -/
structure Sifted (t : Tree) (r : ℤ → ℤ → Prop) (n pos : ℕ) (arr arr' : List ℤ) : Prop where
  length_eq : arr'.length = arr.length
  shuffled : Shuffled (t.subtree pos ∩ {k | k < n}) (cell arr) (cell arr')
  ordered : Ordered t r n (cell arr) (t.subtree pos \ {pos}) →
    Ordered t r n (cell arr') (t.subtree pos)

/-- Sifting leaves the array as it is outside of the subtree and behind the heap. -/
theorem Sifted.cell_eq (h : Sifted t r n pos arr arr') {k : ℕ}
    (hk : k ∉ t.subtree pos ∨ n ≤ k) : cell arr' k = cell arr k := by
  apply h.shuffled.eq_of_notMem
  rintro ⟨hmem, hlt⟩
  exact hk.elim (fun h => h hmem) (not_le.mpr hlt)

/-- The rounds of a sift end, with the heap order restored below its start. -/
theorem rounds_run {sift : ℕ → List ℤ → ℕ → Except Fault (List ℤ)} (h : Rounds t r n sift)
    (fuel : ℕ) (hfuel : n < fuel + pos) (hpos : pos < n) (hn : n ≤ arr.length)
    (hmem : pos ∈ t.subtree p) :
    ∃ arr', sift fuel arr pos = .ok arr' ∧ arr'.length = arr.length ∧
      Shuffled (t.subtree p ∩ {k | k < n}) (cell arr) (cell arr') ∧
      (Sifting t r n p (cell arr) pos → Ordered t r n (cell arr') (t.subtree p)) := by
  induction fuel generalizing arr pos with
  | zero => omega
  | succ fuel ih =>
    rcases h fuel arr pos hpos hn with ⟨hret, hstop⟩ | ⟨c, hc, hcn, hle, hmin, hgo⟩
    · exact ⟨arr, hret, rfl, Shuffled.refl _ _, fun hs => hs.done hstop⟩
    · have hlt := hc.lt
      have hcmem := child_mem_subtree hmem hc
      have hposlen : pos < arr.length := by omega
      have hclen : c < arr.length := by omega
      have hcell := cell_exchange hposlen hclen
      have hn' : n ≤ (exchange arr pos c).length := by
        rw [length_exchange]
        exact hn
      obtain ⟨arr', hrun, hlen, hshuf, hord⟩ := ih (by omega) hcn hn' hcmem
      rw [length_exchange] at hlen
      rw [hcell] at hshuf hord
      refine ⟨arr', hgo.trans hrun, hlen, ?_, ?_⟩
      · have hswap : Shuffled (t.subtree p ∩ {k | k < n}) (cell arr)
            (cell arr ∘ Equiv.swap pos c) := by
          apply shuffled_swap
          · exact ⟨hmem, hpos⟩
          · exact ⟨hcmem, hcn⟩
        exact hswap.trans hshuf
      · intro hs
        exact hord (hs.swap hmem hc hcn hle hmin)

/-- **Sifting** terminates, within as many rounds as there are nodes behind the start. -/
theorem sifted_of_rounds {sift : ℕ → List ℤ → ℕ → Except Fault (List ℤ)}
    (h : Rounds t r n sift) (fuel : ℕ) (hfuel : n < fuel + pos) (hpos : pos < n)
    (hn : n ≤ arr.length) : ∃ arr', sift fuel arr pos = .ok arr' ∧ Sifted t r n pos arr arr' := by
  obtain ⟨arr', hrun, hlen, hshuf, hord⟩ :=
    rounds_run h fuel hfuel hpos hn (self_mem_subtree t pos)
  exact ⟨arr', hrun, hlen, hshuf, fun ho => hord (sifting_start ho)⟩

/-! ## The two phases of a heap sort -/

/-- The array `a` is a rearrangement of `arr`. -/
structure Rearranged (arr a : List ℤ) : Prop where
  length_eq : a.length = arr.length
  shuffled : Shuffled {k | k < arr.length} (cell arr) (cell a)

theorem Rearranged.refl (arr : List ℤ) : Rearranged arr arr := ⟨rfl, Shuffled.refl _ _⟩

theorem Rearranged.trans {a a' : List ℤ} (h : Rearranged arr a) (h' : Rearranged a a') :
    Rearranged arr a' := by
  refine ⟨h'.length_eq.trans h.length_eq, h.shuffled.trans ?_⟩
  rw [← h.length_eq]
  exact h'.shuffled

/-- An exchange rearranges. -/
theorem rearranged_exchange {i j : ℕ} (hi : i < arr.length) (hj : j < arr.length) :
    Rearranged arr (exchange arr i j) := by
  refine ⟨length_exchange arr i j, ?_⟩
  rw [cell_exchange hi hj]
  apply shuffled_swap
  · exact hi
  · exact hj

/-- A sift rearranges. -/
theorem Sifted.rearranged (h : Sifted t r n pos arr arr') (hn : n ≤ arr.length) :
    Rearranged arr arr' := by
  refine ⟨h.length_eq, h.shuffled.mono ?_⟩
  rintro k ⟨-, hk⟩
  exact Nat.lt_of_lt_of_le hk hn

/-- The heap is being built, from `arr`: the parents behind `i` are ordered. -/
structure Building (t : Tree) (r : ℤ → ℤ → Prop) (arr : List ℤ) (i : ℤ) (a : List ℤ) : Prop
    extends Rearranged arr a where
  behind : Ordered t r arr.length (cell a) {p | i < (p : ℤ)}

/-- At the start there is no parent behind `i`. -/
theorem building_start {i : ℤ} (h : ∀ c p, t.IsChild c p → c < arr.length → (p : ℤ) ≤ i) :
    Building t r arr i arr := by
  refine ⟨Rearranged.refl arr, ?_⟩
  intro c p hc hn (hp : i < p)
  have hle := h c p hc hn
  omega

/-- A sift goes on with the building of the heap. -/
theorem Building.sift {a a' : List ℤ} (h : Building t r arr p a)
    (hs : Sifted t r arr.length p a a') : Building t r arr ((p : ℤ) - 1) a' := by
  refine ⟨h.toRearranged.trans (hs.rearranged (Nat.le_of_eq h.length_eq.symm)), ?_⟩
  have hbehind : Ordered t r arr.length (cell a) {k | p < k} := by
    apply h.behind.mono
    intro k (hk : p < k)
    exact Int.ofNat_lt.mpr hk
  have hsub : t.subtree p \ {p} ⊆ {k | p < k} := by
    rintro k ⟨hk, hne⟩
    exact lt_of_le_of_ne (le_of_mem_subtree hk) (Ne.symm hne)
  have hgrow := hbehind.grow (hs.ordered (hbehind.mono hsub))
    (hs.shuffled.mono Set.inter_subset_left)
  apply hgrow.mono
  intro k (hk : (p : ℤ) - 1 < k)
  show p ≤ k
  omega

/-- The heap is being emptied: the first `m` nodes are a heap, the others are in place. -/
structure Emptying (t : Tree) (r : ℤ → ℤ → Prop) (arr : List ℤ) (m : ℕ) (a : List ℤ) : Prop
    extends Rearranged arr a where
  draining : Draining t r arr.length m (cell a)

/-- A heap that has been built can be emptied. -/
theorem Building.emptying {i : ℤ} {a : List ℤ} (h : Building t r arr i a) (hi : i < 0) :
    Emptying t r arr arr.length a := by
  refine ⟨h.toRearranged, draining_start (h.behind.mono ?_)⟩
  intro p _
  show i < p
  omega

/-- The root is exchanged with the last node of the heap and the new root sifted down. -/
theorem Emptying.sift [Std.Refl r] [IsTrans ℤ r] {a a' : List ℤ}
    (h : Emptying t r arr (m + 1) a) (hm : m < arr.length)
    (hs : Sifted t r m 0 (exchange a 0 m) a') : Emptying t r arr m a' := by
  have hma : m < a.length := Nat.lt_of_lt_of_eq hm h.length_eq.symm
  have hexch : Rearranged a (exchange a 0 m) := rearranged_exchange (by omega) hma
  have hsift : Rearranged (exchange a 0 m) a' := by
    apply hs.rearranged
    rw [length_exchange]
    exact Nat.le_of_lt hma
  refine ⟨(h.toRearranged.trans hexch).trans hsift, ?_⟩
  have hshuf := hs.shuffled
  have hord := hs.ordered
  rw [cell_exchange (by omega) hma] at hshuf hord
  apply h.draining.step (hshuf.mono Set.inter_subset_right)
  intro c k hc hcm _
  exact hord h.draining.rest hc hcm (mem_subtree_zero t k)

/-- **Sorted.**  When at most one node is left in the heap, the array is sorted, the root's
side of the order at its end. -/
theorem Emptying.sorted [Std.Refl r] {a : List ℤ} (h : Emptying t r arr m a) (hm : m ≤ 1) :
    a.Pairwise (fun x y => r y x) ∧ a.Perm arr := by
  refine ⟨?_, perm_of_shuffled h.length_eq h.shuffled⟩
  apply pairwise_of_cell
  intro i j hij hj
  exact h.draining.sorted hm (Nat.le_of_lt hij) (Nat.lt_of_lt_of_eq hj h.length_eq)

/-! ## The nodes on the way -/

/-- A run that returns the second part of `t` when all nodes of the first part pass the check,
and overflows when one of them does not. -/
def Guarded {σ : Type} (ok : ℕ → Prop) [DecidablePred ok] (run : Except Fault σ)
    (t : List ℕ × σ) : Prop :=
  run = if ∀ p ∈ t.1, ok p then .ok t.2 else .error .overflow

/-- The nodes that a sift comes to, and the array behind it, when it goes on from a node to the
`next` one after an exchange. -/
def descent (next : List ℤ → ℕ → Option ℕ) : ℕ → List ℤ → ℕ → List ℕ × List ℤ
  | 0, arr, _ => ([], arr)
  | fuel + 1, arr, pos =>
    match next arr pos with
    | none => ([pos], arr)
    | some c =>
      let rest := descent next fuel (exchange arr pos c) c
      (pos :: rest.1, rest.2)

/-- Runs of `body` for `count - 1` down to `0`, with the nodes of all of them. -/
def traceDown (body : ℕ → List ℤ → List ℕ × List ℤ) : ℕ → List ℤ → List ℕ × List ℤ
  | 0, arr => ([], arr)
  | count + 1, arr =>
    let first := body count arr
    let rest := traceDown body count first.2
    (first.1 ++ rest.1, rest.2)

section Guarded

variable {σ τ : Type} {ok : ℕ → Prop} [DecidablePred ok] {next : List ℤ → ℕ → Option ℕ}
  {body : ℕ → List ℤ → List ℕ × List ℤ}

/-- Where nothing is done, nothing overflows. -/
theorem guarded_ok (a : σ) : Guarded ok (.ok a) ([], a) :=
  (if_pos fun _ hp => absurd hp List.not_mem_nil).symm

/-- A run returns exactly when all nodes pass the check. -/
theorem Guarded.returns_iff {run : Except Fault σ} {t : List ℕ × σ} (h : Guarded ok run t) :
    (∃ a, run = .ok a) ↔ ∀ p ∈ t.1, ok p := by
  unfold Guarded at h
  by_cases hok : ∀ p ∈ t.1, ok p
  · rw [if_pos hok] at h
    exact iff_of_true ⟨_, h⟩ hok
  · rw [if_neg hok] at h
    refine iff_of_false ?_ hok
    rintro ⟨a, ha⟩
    rw [h] at ha
    cases ha

/-- Two runs in a row come to the nodes of both. -/
theorem Guarded.bind {run : Except Fault σ} {f : σ → Except Fault τ} {t : List ℕ × σ}
    {t' : List ℕ × τ} (h : Guarded ok run t) (h' : Guarded ok (f t.2) t') :
    Guarded ok (run >>= f) (t.1 ++ t'.1, t'.2) := by
  unfold Guarded at *
  dsimp only
  simp only [List.forall_mem_append]
  by_cases hok : ∀ p ∈ t.1, ok p
  · rw [h, if_pos hok, Failing.ok_bind, h']
    exact if_congr ⟨fun h => ⟨hok, h⟩, And.right⟩ rfl rfl
  · rw [h, if_neg hok, Failing.error_bind, if_neg fun hboth => hok hboth.1]

/-- **A sift that checks its nodes**: it fails at the first node of its way that does not pass,
and else it returns what it would without the check. -/
theorem guarded_descent (sift : ℕ → List ℤ → ℕ → Except Fault (List ℤ))
    (hfail : ∀ fuel arr pos, ¬ ok pos → sift (fuel + 1) arr pos = .error .overflow)
    (hround : ∀ fuel arr pos, pos < n → n ≤ arr.length → ok pos →
      sift (fuel + 1) arr pos = match next arr pos with
        | none => .ok arr
        | some c => sift fuel (exchange arr pos c) c)
    (hnext : ∀ arr pos c, next arr pos = some c → pos < n → pos < c ∧ c < n)
    (fuel : ℕ) (hfuel : n < fuel + pos) (hpos : pos < n) (hn : n ≤ arr.length) :
    Guarded ok (sift fuel arr pos) (descent next fuel arr pos) := by
  induction fuel generalizing arr pos with
  | zero => omega
  | succ fuel ih =>
    have hround := hround fuel arr pos hpos hn
    unfold Guarded descent
    cases hc : next arr pos with
    | none =>
      rw [hc] at hround
      dsimp only
      simp only [List.forall_mem_singleton]
      by_cases hok : ok pos
      · rw [if_pos hok, hround hok]
      · rw [if_neg hok, hfail fuel arr pos hok]
    | some c =>
      rw [hc] at hround
      obtain ⟨hlt, hcn⟩ := hnext arr pos c hc hpos
      have hrest : Guarded ok (sift fuel (exchange arr pos c) c)
          (descent next fuel (exchange arr pos c) c) :=
        ih (by omega) hcn (by rw [length_exchange]; exact hn)
      unfold Guarded at hrest
      dsimp only
      simp only [List.forall_mem_cons]
      by_cases hok : ok pos
      · rw [hround hok]
        dsimp only
        rw [hrest]
        exact if_congr ⟨fun h => ⟨hok, h⟩, And.right⟩ rfl rfl
      · rw [if_neg fun hboth => hok hboth.1, hfail fuel arr pos hok]

/-- The way of a sift keeps the length. -/
theorem length_descent (fuel : ℕ) (arr : List ℤ) (pos : ℕ) :
    (descent next fuel arr pos).2.length = arr.length := by
  induction fuel generalizing arr pos with
  | zero => rfl
  | succ fuel ih =>
    unfold descent
    cases next arr pos with
    | none => rfl
    | some c => exact (ih _ c).trans (length_exchange arr pos c)

/-- The ways of a loop keep the length. -/
theorem length_traceDown {count : ℕ} (hlen : ∀ k a, (body k a).2.length = a.length) :
    (traceDown body count arr).2.length = arr.length := by
  induction count generalizing arr with
  | zero => rfl
  | succ count ih => exact ih.trans (hlen count arr)

/-- A loop that counts down, over runs that check their nodes. -/
theorem guarded_descend {run : ℤ → List ℤ → Except Fault (List ℤ)} (start : ℤ) {count : ℕ}
    (hlen : ∀ k a, (body k a).2.length = a.length)
    (hrun : ∀ k a, k < count → a.length = n → Guarded ok (run (start + k) a) (body k a))
    (hn : arr.length = n) :
    Guarded ok (descend run count (start + count - 1) arr) (traceDown body count arr) := by
  induction count generalizing arr with
  | zero => exact guarded_ok arr
  | succ count ih =>
    have hfirst := hrun count arr (Nat.lt_succ_self count) hn
    rw [show start + ((count + 1 : ℕ) : ℤ) - 1 = start + count by omega]
    exact hfirst.bind (ih (fun k a hk => hrun k a (Nat.lt_succ_of_lt hk))
      ((hlen count arr).trans hn))

end Guarded

end HeapArray
