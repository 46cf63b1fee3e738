/-
# Machines that go on or stop

A machine is a function `step : σ → σ ⊕ ρ`: in a state it goes on to the next one, or it
stops with a result.  The body of a loop is such a machine, and so are nested loops with a
point of control in their state.

* `Visits` : the states that a run comes through;
* `Returns` : a run that stops, with its result;
* `Visits.invariant` : what every step keeps holds in every state of a run;
* `Returns.visited` : a run that stops comes from each of its states to the same result.
-/
import Mathlib.Logic.Relation

namespace Machine

variable {σ ρ ε : Type*}

/-- The machine goes on from `s` to `t`. -/
def Goes (step : σ → σ ⊕ ρ) (s t : σ) : Prop := step s = .inl t

/-- A run from `s` comes to `t`. -/
def Visits (step : σ → σ ⊕ ρ) : σ → σ → Prop := Relation.ReflTransGen (Goes step)

/-- The run from `s` stops with the result `r`. -/
def Returns (step : σ → σ ⊕ ρ) (s : σ) (r : ρ) : Prop := ∃ t, Visits step s t ∧ step t = .inr r

/-- A body that can fail stops with its failure. -/
def ofExcept : Except ε (σ ⊕ ρ) → σ ⊕ Except ε ρ
  | .ok (.inl s) => .inl s
  | .ok (.inr r) => .inr (.ok r)
  | .error e => .inr (.error e)

variable {step : σ → σ ⊕ ρ} {s t : σ} {r r' : ρ}

/-! ## Runs -/

theorem Visits.refl (step : σ → σ ⊕ ρ) (s : σ) : Visits step s s := Relation.ReflTransGen.refl

/-- The states of one run behind those of another. -/
theorem Visits.trans {u : σ} (h : Visits step s t) (h' : Visits step t u) : Visits step s u :=
  Relation.ReflTransGen.trans h h'

/-- A step visits the next state. -/
theorem visits_of_goes (h : step s = .inl t) : Visits step s t := Relation.ReflTransGen.single h

/-- What holds at the start and is kept by every step holds in every state of the run. -/
theorem Visits.invariant {I : σ → Prop} (h : Visits step s t)
    (hstep : ∀ u v, I u → step u = .inl v → I v) (hs : I s) : I t := by
  induction h with
  | refl => exact hs
  | tail _ hgoes ih => exact hstep _ _ ih hgoes

/-- A step may return. -/
theorem returns_of_stop (h : step s = .inr r) : Returns step s r := ⟨s, Visits.refl step s, h⟩

/-- What a visited state returns, the run returns. -/
theorem Visits.returns (h : Visits step s t) (h' : Returns step t r) : Returns step s r := by
  obtain ⟨u, hu, hstop⟩ := h'
  exact ⟨u, h.trans hu, hstop⟩

/-- What the next state returns, the run returns. -/
theorem returns_of_goes (h : step s = .inl t) (h' : Returns step t r) : Returns step s r :=
  (visits_of_goes h).returns h'

/-- A state that stops is the last one of the run. -/
theorem Visits.eq_of_stop (h : Visits step s t) (hstop : step s = .inr r) : t = s := by
  rcases Relation.ReflTransGen.cases_head h with heq | ⟨u, hgoes, -⟩
  · exact heq.symm
  · rw [Goes, hstop] at hgoes
    exact absurd hgoes Sum.inr_ne_inl

/-- A step has one outcome, so a run that stops comes from each of its states to its result. -/
theorem Returns.visited (h : Returns step s r) (hv : Visits step s t) : Returns step t r := by
  obtain ⟨u, hu, hstop⟩ := h
  have hunique : Relator.RightUnique (Goes step) := by
    intro a b c hb hc
    rw [Goes] at hb hc
    exact Sum.inl.inj (hb.symm.trans hc)
  rcases Relation.ReflTransGen.total_of_right_unique hunique hu hv with hut | htu
  · obtain rfl := Visits.eq_of_stop hut hstop
    exact returns_of_stop hstop
  · exact ⟨u, htu, hstop⟩

/-- The only result in a visited state is that of the whole run. -/
theorem Returns.eq_of_stop (h : Returns step s r) (hv : Visits step s t)
    (hstop : step t = .inr r') : r' = r := by
  obtain ⟨u, hu, hstop'⟩ := h.visited hv
  obtain rfl := hu.eq_of_stop hstop
  exact Sum.inr.inj (hstop.symm.trans hstop')

/-! ## Bodies that can fail -/

@[simp] theorem ofExcept_inl (s : σ) :
    ofExcept (.ok (.inl s) : Except ε (σ ⊕ ρ)) = .inl s := rfl

@[simp] theorem ofExcept_inr (r : ρ) :
    ofExcept (.ok (.inr r) : Except ε (σ ⊕ ρ)) = .inr (.ok r) := rfl

@[simp] theorem ofExcept_error (e : ε) :
    ofExcept (.error e : Except ε (σ ⊕ ρ)) = .inr (.error e) := rfl

/-- A fallible step goes on only without a fault. -/
theorem ofExcept_eq_inl_iff {x : Except ε (σ ⊕ ρ)} : ofExcept x = .inl s ↔ x = .ok (.inl s) := by
  cases x with
  | error e => simp
  | ok y =>
    cases y with
    | inl s' => simp
    | inr r' => simp

end Machine
