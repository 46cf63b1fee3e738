/-
# Input in chunks

A machine takes symbols one at a time; on some of them it has an output, on some it fails.
A handler gets a chunk of symbols, takes as many of them as it likes and gives the machine's
output.  If a handler follows a machine, then what comes out does not depend on how the
input is divided into chunks.
-/
import Mathlib.Data.List.Induction

namespace Chunks

variable {σ τ ι γ ε : Type*}

/-- The outputs of a run, and how it ends. -/
abbrev Trace (γ ε σ : Type*) := List γ × Except ε σ

/-- One run after another. -/
def andThen (r : Trace γ ε σ) (f : σ → Trace γ ε τ) : Trace γ ε τ :=
  match r.2 with
  | .error e => (r.1, .error e)
  | .ok s => (r.1 ++ (f s).1, (f s).2)

@[simp] theorem andThen_ok (out : List γ) (s : σ) (f : σ → Trace γ ε τ) :
    andThen (out, .ok s) f = (out ++ (f s).1, (f s).2) := rfl

@[simp] theorem andThen_error (out : List γ) (e : ε) (f : σ → Trace γ ε τ) :
    andThen ((out, .error e) : Trace γ ε σ) f = (out, .error e) := rfl

/-! ## A machine -/

/-- The machine on a list of symbols. -/
def run (step : σ → ι → Except ε (Option γ × σ)) : σ → List ι → Trace γ ε σ
  | s, [] => ([], .ok s)
  | s, i :: is =>
    match step s i with
    | .error e => ([], .error e)
    | .ok (o, t) => (o.toList ++ (run step t is).1, (run step t is).2)

section Run

variable {step : σ → ι → Except ε (Option γ × σ)} {s t : σ} {i : ι} {o : Option γ} {e : ε}

@[simp] theorem run_nil (s : σ) : run step s [] = ([], .ok s) := rfl

theorem run_cons_ok (h : step s i = .ok (o, t)) (is : List ι) :
    run step s (i :: is) = (o.toList ++ (run step t is).1, (run step t is).2) := by
  rw [run, h]

theorem run_cons_error (h : step s i = .error e) (is : List ι) :
    run step s (i :: is) = ([], .error e) := by
  rw [run, h]

/-- A step as a run. -/
def ofStep (x : Except ε (Option γ × σ)) : Trace γ ε σ :=
  match x with
  | .error e => ([], .error e)
  | .ok (o, t) => (o.toList, .ok t)

/-- A step and then a run. -/
theorem andThen_ofStep (s : σ) (i : ι) (is : List ι) :
    (andThen (ofStep (step s i)) fun t => run step t is) = run step s (i :: is) := by
  rw [run]
  rcases step s i with e | ⟨o, t⟩
  · rfl
  · rfl

/-- A run on one list and then on another. -/
theorem run_append (s : σ) (is js : List ι) :
    run step s (is ++ js) = andThen (run step s is) fun t => run step t js := by
  induction is generalizing s with
  | nil => simp
  | cons i is ih =>
    cases h : step s i with
    | error e => simp [run_cons_error h]
    | ok x =>
      obtain ⟨o, t⟩ := x
      rw [List.cons_append, run_cons_ok h, run_cons_ok h, ih]
      rcases run step t is with ⟨out, _ | t'⟩ <;> simp

/-- A step after a run without output. -/
theorem run_concat {is : List ι} (h : run step s is = ([], .ok t)) (i : ι) :
    run step s (is ++ [i]) = ofStep (step t i) := by
  rw [run_append, h, andThen_ok]
  rcases hstep : step t i with e | ⟨o, t'⟩
  · simp [run_cons_error hstep, ofStep]
  · simp [run_cons_ok hstep, ofStep]

/-- A run and one step more. -/
theorem run_concat_ok {is : List ι} {u : σ} (hrun : (run step s is).2 = .ok t)
    (hstep : step t i = .ok (o, u)) : (run step s (is ++ [i])).2 = .ok u := by
  rcases hr : run step s is with ⟨out, e | t'⟩ <;> rw [hr] at hrun
  · exact absurd hrun (by simp)
  · obtain rfl := Except.ok.inj hrun
    rw [run_append, hr, andThen_ok, run_cons_ok hstep, run_nil]

/-- The step at which a run fails. -/
theorem exists_step_of_run_error {is : List ι} (h : (run step s is).2 = .error e) :
    ∃ js i ks t, is = js ++ i :: ks ∧ (run step s js).2 = .ok t ∧ step t i = .error e := by
  induction is generalizing s with
  | nil => exact absurd h (by simp)
  | cons i is ih =>
    cases hstep : step s i with
    | error e' =>
      rw [run_cons_error hstep] at h
      obtain rfl := Except.error.inj h
      exact ⟨[], i, is, s, rfl, rfl, hstep⟩
    | ok x =>
      obtain ⟨o, t⟩ := x
      rw [run_cons_ok hstep] at h
      obtain ⟨js, j, ks, u, rfl, hrun, hfail⟩ := ih h
      exact ⟨i :: js, j, ks, u, rfl, by rw [run_cons_ok hstep]; exact hrun, hfail⟩

/-- The invariant rule: what holds at the start and is kept by every step that does not fail
holds of the input and of the state it leads to. -/
theorem run_invariant {I : List ι → σ → Prop} (hstart : I [] s)
    (hkeep : ∀ js t i o u, (run step s js).2 = .ok t → I js t → step t i = .ok (o, u) →
      I (js ++ [i]) u) {is : List ι} (h : (run step s is).2 = .ok t) : I is t := by
  induction is using List.reverseRecOn generalizing t with
  | nil =>
    obtain rfl := Except.ok.inj h
    exact hstart
  | append_singleton js i ih =>
    rw [run_append] at h
    rcases hrun : run step s js with ⟨out, e | u⟩ <;> rw [hrun] at h
    · exact absurd h (by simp)
    · rw [andThen_ok] at h
      rcases hstep : step u i with e | ⟨o, v⟩
      · rw [run_cons_error hstep] at h
        exact absurd h (by simp)
      · rw [run_cons_ok hstep] at h
        obtain rfl := Except.ok.inj h
        exact hkeep js u i o v (by rw [hrun]) (ih (by rw [hrun])) hstep

/-- A run that fails early. -/
theorem run_of_take {is : List ι} {n : ℕ} {out : List γ}
    (h : run step s (is.take n) = (out, .error e)) : run step s is = (out, .error e) := by
  rw [← List.take_append_drop n is, run_append, h, andThen_error]

/-- A run from where an earlier run ended. -/
theorem run_of_take_ok {is : List ι} {n : ℕ} {out : List γ}
    (h : run step s (is.take n) = (out, .ok t)) :
    run step s is = (out ++ (run step t (is.drop n)).1, (run step t (is.drop n)).2) := by
  conv_lhs => rw [← List.take_append_drop n is, run_append, h, andThen_ok]

end Run

/-! ## A handler -/

/-- The handler on one chunk, until nothing is left of it. -/
def drain (handle : τ → List ι → Except ε (ℕ × Option γ × τ)) :
    ℕ → τ → List ι → Trace γ ε τ
  | 0, t, _ => ([], .ok t)
  | fuel + 1, t, data =>
    if data.isEmpty then ([], .ok t)
    else
      match handle t data with
      | .error e => ([], .error e)
      | .ok (n, o, t') =>
        (o.toList ++ (drain handle fuel t' (data.drop n)).1,
          (drain handle fuel t' (data.drop n)).2)

/-- The handler on one chunk after another. -/
def feed (handle : τ → List ι → Except ε (ℕ × Option γ × τ)) : τ → List (List ι) → Trace γ ε τ
  | t, [] => ([], .ok t)
  | t, c :: cs => andThen (drain handle c.length t c) fun t => feed handle t cs

/-- Two ends of runs: the same failure, or states that belong together. -/
def SameEnd (R : τ → σ → Prop) : Except ε τ → Except ε σ → Prop
  | .ok t, .ok s => R t s
  | .error e, .error e' => e = e'
  | .ok _, .error _ => False
  | .error _, .ok _ => False

/-- What a handler returns for a chunk agrees with the machine: it takes something of the
chunk, and the machine has the same output on that. -/
def Agrees (step : σ → ι → Except ε (Option γ × σ)) (R : τ → σ → Prop) (s : σ) (data : List ι) :
    Except ε (ℕ × Option γ × τ) → Prop
  | .ok (n, o, t) => 0 < n ∧ ∃ s', run step s (data.take n) = (o.toList, .ok s') ∧ R t s'
  | .error e => ∃ n, run step s (data.take n) = ([], .error e)

/-- A handler follows a machine where the machine does not fail with `bad`. -/
def Follows (handle : τ → List ι → Except ε (ℕ × Option γ × τ))
    (step : σ → ι → Except ε (Option γ × σ)) (R : τ → σ → Prop) (bad : ε) : Prop :=
  ∀ t s data, R t s → data ≠ [] → (run step s data).2 ≠ .error bad →
    Agrees step R s data (handle t data)

section Follows

variable {handle : τ → List ι → Except ε (ℕ × Option γ × τ)}
  {step : σ → ι → Except ε (Option γ × σ)} {R : τ → σ → Prop} {bad : ε} {t : τ} {s : σ}

/-- One chunk. -/
theorem drain_eq_run (h : Follows handle step R bad) {fuel : ℕ} {data : List ι}
    (hR : R t s) (hbad : (run step s data).2 ≠ .error bad) (hfuel : data.length ≤ fuel) :
    (drain handle fuel t data).1 = (run step s data).1 ∧
      SameEnd R (drain handle fuel t data).2 (run step s data).2 := by
  induction fuel generalizing t s data with
  | zero =>
    obtain rfl : data = [] := List.length_eq_zero_iff.mp (by omega)
    exact ⟨rfl, hR⟩
  | succ fuel ih =>
    by_cases hdata : data = []
    · subst hdata
      exact ⟨rfl, hR⟩
    · rw [drain, if_neg (by simpa using hdata)]
      have hagrees := h t s data hR hdata hbad
      cases hhandle : handle t data with
      | error e =>
        rw [hhandle] at hagrees
        obtain ⟨n, hn⟩ := hagrees
        rw [run_of_take hn]
        exact ⟨rfl, rfl⟩
      | ok x =>
        rw [hhandle] at hagrees
        obtain ⟨n, o, t'⟩ := x
        obtain ⟨hn, s', hrun, hR'⟩ := hagrees
        have hwhole := run_of_take_ok hrun
        have hlen := List.length_pos_iff.mpr hdata
        rw [hwhole] at hbad ⊢
        obtain ⟨hout, hend⟩ := ih hR' hbad (by rw [List.length_drop]; omega)
        exact ⟨congrArg (o.toList ++ ·) hout, hend⟩

/-- However the input is divided, the handler has the outputs of the machine. -/
theorem feed_eq_run (h : Follows handle step R bad) {cs : List (List ι)} (hR : R t s)
    (hbad : (run step s cs.flatten).2 ≠ .error bad) :
    (feed handle t cs).1 = (run step s cs.flatten).1 ∧
      SameEnd R (feed handle t cs).2 (run step s cs.flatten).2 := by
  induction cs generalizing t s with
  | nil => exact ⟨rfl, hR⟩
  | cons c cs ih =>
    rw [List.flatten_cons, run_append] at hbad ⊢
    have hfirst : (run step s c).2 ≠ .error bad := by
      rcases hrun : run step s c with ⟨out, e | s'⟩
      · rw [hrun] at hbad
        exact hbad
      · simp
    obtain ⟨hout, hend⟩ := drain_eq_run h hR hfirst (Nat.le_refl _)
    rw [feed]
    rcases hrun : run step s c with ⟨out, e | s'⟩ <;>
      rcases hdrain : drain handle c.length t c with ⟨out', e' | t'⟩ <;>
      rw [hrun, hdrain] at hout hend <;> simp only [SameEnd] at hend hout
    · exact ⟨hout, hend⟩
    · rw [hrun, andThen_ok] at hbad
      obtain ⟨hout', hend'⟩ := ih hend hbad
      simp only [andThen_ok]
      exact ⟨by rw [hout, hout'], hend'⟩

/-- Two ends that belong to the same end. -/
theorem SameEnd.together {x y : Except ε τ} {z : Except ε σ} (hx : SameEnd R x z)
    (hy : SameEnd R y z) :
    (∃ e, x = .error e ∧ y = .error e) ∨
      ∃ t t' s, x = .ok t ∧ y = .ok t' ∧ R t s ∧ R t' s := by
  cases x <;> cases y <;> cases z <;> simp only [SameEnd] at hx hy
  · exact .inl ⟨_, rfl, by rw [hx, hy]⟩
  · exact .inr ⟨_, _, _, rfl, rfl, hx, hy⟩

/-- Two divisions of the same input. -/
theorem feed_independent (h : Follows handle step R bad) {cs cs' : List (List ι)} (hR : R t s)
    (hflat : cs.flatten = cs'.flatten) (hbad : (run step s cs.flatten).2 ≠ .error bad) :
    (feed handle t cs).1 = (feed handle t cs').1 ∧
      ((∃ e, (feed handle t cs).2 = .error e ∧ (feed handle t cs').2 = .error e) ∨
        ∃ u u' s', (feed handle t cs).2 = .ok u ∧ (feed handle t cs').2 = .ok u' ∧
          R u s' ∧ R u' s') := by
  obtain ⟨hout, hend⟩ := feed_eq_run h hR hbad
  rw [hflat] at hout hend hbad
  obtain ⟨hout', hend'⟩ := feed_eq_run h hR hbad
  exact ⟨hout.trans hout'.symm, hend.together hend'⟩

end Follows

end Chunks
