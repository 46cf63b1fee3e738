/-
# Named values in one text

A list of named values is written as one text, with `sep` between two of them and `eq`
between a name and its value.  The text is read by splitting it at every `sep` and each
piece at its first `eq`.  Nothing is escaped, so what is read need not be what was written.

* `parse_eq_some_iff` : which texts are read as given named values;
* `parse_render_iff` : which named values survive writing and reading.
-/
import Mathlib.Data.List.Basic

namespace Query

variable {α : Type*} [DecidableEq α]

/-! ## Splitting at the first occurrence -/

/-- The parts before and behind the first `c`. -/
def splitFirst (c : α) : List α → Option (List α × List α)
  | [] => none
  | a :: s => if a = c then some ([], s) else (splitFirst c s).map fun p => (a :: p.1, p.2)

/-- A list is split at the first `c`. -/
theorem splitFirst_eq_some_iff {c : α} {s front back : List α} :
    splitFirst c s = some (front, back) ↔ c ∉ front ∧ s = front ++ c :: back := by
  induction s generalizing front with
  | nil => simp [splitFirst]
  | cons a s ih =>
    unfold splitFirst
    split_ifs with ha
    · subst ha
      constructor
      · intro h
        obtain ⟨rfl, rfl⟩ := Prod.mk.inj (Option.some.inj h)
        exact ⟨List.not_mem_nil, rfl⟩
      · rintro ⟨hfront, heq⟩
        cases front with
        | nil => rw [(List.cons.inj heq).2]
        | cons b front =>
          rw [(List.cons.inj heq).1] at hfront
          exact absurd List.mem_cons_self hfront
    · rw [Option.map_eq_some_iff]
      constructor
      · rintro ⟨p, hp, heq⟩
        obtain ⟨rfl, rfl⟩ := Prod.mk.inj heq
        obtain ⟨hmem, rfl⟩ := ih.mp hp
        exact ⟨List.not_mem_cons_of_ne_of_not_mem (Ne.symm ha) hmem, rfl⟩
      · rintro ⟨hfront, heq⟩
        cases front with
        | nil => exact absurd (List.cons.inj heq).1 ha
        | cons b front =>
          obtain ⟨rfl, hs⟩ := List.cons.inj heq
          exact ⟨(front, back), ih.mpr ⟨List.not_mem_of_not_mem_cons hfront, hs⟩, rfl⟩

/-! ## Splitting at every occurrence -/

/-- No piece of a split list has the separator. -/
theorem not_mem_of_mem_splitOn {sep : α} {s piece : List α} (h : piece ∈ s.splitOn sep) :
    sep ∉ piece := by
  induction s generalizing piece with
  | nil =>
    rw [List.splitOn_nil, List.mem_singleton] at h
    rw [h]
    exact List.not_mem_nil
  | cons a s ih =>
    rw [List.splitOn_cons_eq_if_modifyHead] at h
    cases hs : s.splitOn sep with
    | nil => exact absurd hs (List.splitOn_ne_nil sep s)
    | cons head tail =>
      rw [hs] at ih h
      split_ifs at h with ha
      · rcases List.mem_cons.mp h with rfl | h
        · exact List.not_mem_nil
        · exact ih h
      · rw [List.modifyHead_cons] at h
        rcases List.mem_cons.mp h with rfl | h
        · apply List.not_mem_cons_of_ne_of_not_mem
          · rintro rfl
            exact ha (beq_self_eq_true sep)
          · exact ih List.mem_cons_self
        · exact ih (List.mem_cons_of_mem _ h)

/-- The pieces of a text are the only ones without `sep` that make it up. -/
theorem splitOn_eq_iff {sep : α} {s : List α} {pieces : List (List α)} :
    s.splitOn sep = pieces ↔
      pieces ≠ [] ∧ [sep].intercalate pieces = s ∧ ∀ piece ∈ pieces, sep ∉ piece := by
  constructor
  · rintro rfl
    exact ⟨List.splitOn_ne_nil sep s, List.intercalate_splitOn sep,
      fun piece => not_mem_of_mem_splitOn⟩
  · rintro ⟨hne, rfl, hsep⟩
    exact List.splitOn_intercalate sep hsep hne

/-! ## Named values -/

/-- A name and its value as one text. -/
def joined (eq : α) (p : List α × List α) : List α := p.1 ++ eq :: p.2

/-- The text of a list of named values. -/
def render (sep eq : α) (pairs : List (List α × List α)) : List α :=
  [sep].intercalate (pairs.map (joined eq))

omit [DecidableEq α] in
/-- The first pair, and the others behind a separator. -/
theorem render_cons {sep eq : α} (p : List α × List α) {pairs : List (List α × List α)}
    (hne : pairs ≠ []) :
    render sep eq (p :: pairs) = joined eq p ++ sep :: render sep eq pairs := by
  have htexts : pairs.map (joined eq) ≠ [] := fun h => hne (List.map_eq_nil_iff.mp h)
  unfold render
  rw [List.map_cons, List.intercalate_cons_of_ne_nil htexts, List.append_assoc]
  rfl

/-- The named values of a text, if every piece has an `eq`. -/
def parse (sep eq : α) (s : List α) : Option (List (List α × List α)) :=
  (s.splitOn sep).mapM (splitFirst eq)

/-- Pieces are read as pairs exactly if they are those of the pairs. -/
theorem mapM_splitFirst_eq_some_iff {eq : α} {pieces : List (List α)}
    {pairs : List (List α × List α)} :
    pieces.mapM (splitFirst eq) = some pairs ↔
      pieces = pairs.map (joined eq) ∧ ∀ p ∈ pairs, eq ∉ p.1 := by
  induction pieces generalizing pairs with
  | nil =>
    rw [List.mapM_nil]
    constructor
    · intro h
      obtain rfl := Option.some.inj h
      exact ⟨rfl, by simp⟩
    · rintro ⟨h, -⟩
      rw [List.map_eq_nil_iff.mp h.symm]
      rfl
  | cons piece pieces ih =>
    simp only [List.mapM_cons, Option.bind_eq_bind, Option.bind_eq_some_iff, Option.pure_def]
    constructor
    · rintro ⟨⟨name, value⟩, hpiece, rest, hrest, h⟩
      obtain rfl := Option.some.inj h
      obtain ⟨hname, rfl⟩ := splitFirst_eq_some_iff.mp hpiece
      obtain ⟨rfl, hall⟩ := ih.mp hrest
      exact ⟨rfl, List.forall_mem_cons.mpr ⟨hname, hall⟩⟩
    · rintro ⟨h, hall⟩
      cases pairs with
      | nil => exact absurd h (List.cons_ne_nil _ _)
      | cons p pairs =>
        obtain ⟨hname, hall⟩ := List.forall_mem_cons.mp hall
        obtain ⟨rfl, hrest⟩ := List.cons.inj h
        exact ⟨p, splitFirst_eq_some_iff.mpr ⟨hname, rfl⟩, pairs, ih.mpr ⟨hrest, hall⟩, rfl⟩

/-- **What is read** as given named values: their text, if no piece of it has a `sep` and
no name an `eq`. -/
theorem parse_eq_some_iff {sep eq : α} {s : List α} {pairs : List (List α × List α)} :
    parse sep eq s = some pairs ↔
      pairs ≠ [] ∧ render sep eq pairs = s ∧
        ∀ p ∈ pairs, sep ∉ joined eq p ∧ eq ∉ p.1 := by
  rw [parse, mapM_splitFirst_eq_some_iff, splitOn_eq_iff, ← render]
  constructor
  · rintro ⟨⟨hne, hs, hsep⟩, heq⟩
    refine ⟨?_, hs, ?_⟩
    · rintro rfl
      exact hne rfl
    · intro p hp
      exact ⟨hsep _ (List.mem_map_of_mem hp), heq p hp⟩
  · rintro ⟨hne, hs, hall⟩
    refine ⟨⟨?_, hs, ?_⟩, fun p hp => (hall p hp).2⟩
    · intro h
      exact hne (List.map_eq_nil_iff.mp h)
    · intro piece hpiece
      obtain ⟨p, hp, rfl⟩ := List.mem_map.mp hpiece
      exact (hall p hp).1

/-- **The round trip** of named values. -/
theorem parse_render_iff {sep eq : α} {pairs : List (List α × List α)} (hne : pairs ≠ []) :
    parse sep eq (render sep eq pairs) = some pairs ↔
      ∀ p ∈ pairs, sep ∉ joined eq p ∧ eq ∉ p.1 := by
  rw [parse_eq_some_iff]
  exact ⟨fun h => h.2.2, fun h => ⟨hne, rfl, h⟩⟩

end Query
