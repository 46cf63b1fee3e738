/-
# Runs of a component that is driven by calls

A component is given by one function `step : σ → κ → ω × σ`: in a state, a call
yields a result and the next state.  A run is a finite list of calls from a
given state.

* `after` : the state a run ends in;
* `history` : one `Event` for each call of the run, with the states around it.

Three induction rules are stated once for every component: `invariant_after` for
what every step keeps, `simulation_after` for an automaton that follows the run,
and `forall_history_iff` for what a run does exactly as long as each of its calls
meets a guard.
-/
import Mathlib.Data.List.Basic

namespace Run

variable {σ κ ω : Type*}

/-- One executed call: the states around it, the call and its result. -/
structure Event (σ κ ω : Type*) where
  before : σ
  call : κ
  result : ω
  after : σ

variable (step : σ → κ → ω × σ)

/-- The state after the calls `cs`, made one after the other from `s`. -/
def after (s : σ) (cs : List κ) : σ := cs.foldl (fun s c => (step s c).2) s

/-- The executed calls of a run, in order. -/
def history : σ → List κ → List (Event σ κ ω)
  | _, [] => []
  | s, c :: cs => ⟨s, c, (step s c).1, (step s c).2⟩ :: history (step s c).2 cs

/-! ## Composition -/

@[simp] theorem after_nil (s : σ) : after step s [] = s := rfl

@[simp] theorem after_cons (s : σ) (c : κ) (cs : List κ) :
    after step s (c :: cs) = after step (step s c).2 cs := rfl

@[simp] theorem after_append (s : σ) (cs ds : List κ) :
    after step s (cs ++ ds) = after step (after step s cs) ds :=
  List.foldl_append

@[simp] theorem history_nil (s : σ) : history step s [] = [] := rfl

@[simp] theorem history_cons (s : σ) (c : κ) (cs : List κ) :
    history step s (c :: cs)
      = ⟨s, c, (step s c).1, (step s c).2⟩ :: history step (step s c).2 cs := rfl

theorem history_append (s : σ) (cs ds : List κ) :
    history step s (cs ++ ds) = history step s cs ++ history step (after step s cs) ds := by
  induction cs generalizing s with
  | nil => rfl
  | cons c cs ih => simp [ih]

/-- An executed call sits between the calls before it and the calls after it. -/
theorem mem_history_iff {s : σ} {cs : List κ} {e : Event σ κ ω} :
    e ∈ history step s cs ↔
      ∃ pre post, cs = pre ++ e.call :: post ∧ e.before = after step s pre ∧
        (e.result, e.after) = step e.before e.call := by
  constructor
  · intro he
    induction cs generalizing s with
    | nil => simp at he
    | cons c cs ih =>
      rw [history_cons, List.mem_cons] at he
      rcases he with rfl | he
      · exact ⟨[], cs, rfl, rfl, rfl⟩
      · obtain ⟨pre, post, hcs, hbefore, hstep⟩ := ih he
        exact ⟨c :: pre, post, by rw [hcs]; rfl, hbefore, hstep⟩
  · rintro ⟨pre, post, rfl, hbefore, hstep⟩
    rw [history_append, history_cons, ← hbefore, ← hstep]
    exact List.mem_append_right _ List.mem_cons_self

/-- The executed calls are the calls of the run. -/
theorem forall_call_iff {P : κ → Prop} {s : σ} {cs : List κ} :
    (∀ e ∈ history step s cs, P e.call) ↔ ∀ c ∈ cs, P c := by
  induction cs generalizing s with
  | nil => simp
  | cons c cs ih => rw [history_cons, List.forall_mem_cons, List.forall_mem_cons, ih]

/-- A property of all executed calls, split by the calls before each of them. -/
theorem forall_mem_history_iff {P : Event σ κ ω → Prop} {s : σ} {cs : List κ} :
    (∀ e ∈ history step s cs, P e) ↔
      ∀ pre c post, cs = pre ++ c :: post →
        P ⟨after step s pre, c, (step (after step s pre) c).1, (step (after step s pre) c).2⟩ := by
  constructor
  · intro h pre c post hcs
    refine h _ ((mem_history_iff step).mpr ⟨pre, post, hcs, rfl, rfl⟩)
  · rintro h ⟨before, c, result, next⟩ he
    obtain ⟨pre, post, hcs, hbefore, hstep⟩ := (mem_history_iff step).mp he
    dsimp only at hcs hbefore hstep
    subst hbefore
    have hc := h pre c post hcs
    rwa [← hstep] at hc

/-! ## Induction rules -/

/-- What holds at the start and is kept by every step holds after every run. -/
theorem invariant_after {I : σ → Prop} (hstep : ∀ s c, I s → I (step s c).2)
    {s : σ} (h : I s) (cs : List κ) : I (after step s cs) := by
  induction cs generalizing s with
  | nil => exact h
  | cons c cs ih => exact ih (hstep s c h)

/-- A relation to the states of an automaton that reads the calls is kept by the run. -/
theorem simulation_after {τ : Type*} {R : σ → τ → Prop} {next : τ → κ → τ}
    (hstep : ∀ s t c, R s t → R (step s c).2 (next t c)) {s : σ} {t : τ} (h : R s t)
    (cs : List κ) : R (after step s cs) (cs.foldl next t) := by
  induction cs generalizing s t with
  | nil => exact h
  | cons c cs ih => exact ih (hstep s t c h)

/-- Under an invariant kept by the guarded steps, `P` at every call of a run is
the same as the guard at every call: up to the first call that misses the guard
both hold, and there both fail. -/
theorem forall_history_iff {I : σ → Prop} {G : σ → κ → Prop}
    {P : Event σ κ ω → Prop}
    (hgood : ∀ s c, I s → (P ⟨s, c, (step s c).1, (step s c).2⟩ ↔ G s c))
    (hstep : ∀ s c, I s → G s c → I (step s c).2) {s : σ} (h : I s) (cs : List κ) :
    (∀ e ∈ history step s cs, P e) ↔
      ∀ e ∈ history step s cs, G e.before e.call := by
  induction cs generalizing s with
  | nil => simp
  | cons c cs ih =>
    rw [history_cons, List.forall_mem_cons, List.forall_mem_cons, hgood s c h]
    constructor
    · rintro ⟨hc, hcs⟩
      exact ⟨hc, (ih (hstep s c h hc)).mp hcs⟩
    · rintro ⟨hc, hcs⟩
      exact ⟨hc, (ih (hstep s c h hc)).mpr hcs⟩

end Run
