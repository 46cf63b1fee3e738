/-
# The two containers of a `Solution` agree

`encode` updates `m_vecUrls` before its digit loop and `m_mapUrls` after it.  The
invariant `Solution.Inv` ties the two together: the vector has no duplicates, the
map has exactly its elements as keys, and the entry of the URL at position `k` is
the string generated for the id `k + 1`.

Every call keeps `Inv`, lets the vector grow only at its end and never changes an
entry of the map; `store_invariant` collects what this means for whole runs.
-/
import Pungoo.TinyUrl
import Mathlib.Data.List.Induction

namespace TinyUrl

/-- What holds of a `Solution` between two calls. -/
structure Solution.Inv (s : Solution) : Prop where
  nodup : s.vecUrls.urls.Nodup
  mem_map_iff : ∀ u, u ∈ s.mapUrls ↔ u ∈ s.vecUrls.urls
  lookup_getElem : ∀ k (h : k < s.vecUrls.urls.length),
    s.mapUrls.lookup s.vecUrls.urls[k] = some (shortUrl (k + 1))

theorem inv_new : Solution.new.Inv where
  nodup := List.nodup_nil
  mem_map_iff := fun u => by simp [Solution.new]
  lookup_getElem := fun k h => absurd h (Nat.not_lt_zero k)

/-! ## The invariant is kept -/

/-- Pushing a new URL and inserting its short string keeps the invariant. -/
theorem inv_push {s s' : Solution} {u : Str} (hinv : s.Inv) (hu : u ∉ s.mapUrls)
    (hvec : s'.vecUrls.urls = s.vecUrls.urls ++ [u])
    (hmap : s'.mapUrls = AList.insert u (shortUrl (s.vecUrls.urls.length + 1)) s.mapUrls) :
    s'.Inv where
  nodup := by
    rw [hvec, List.nodup_append]
    refine ⟨hinv.nodup, List.nodup_singleton u, ?_⟩
    intro a ha b hb hab
    rw [List.mem_singleton] at hb
    subst hb
    subst hab
    exact hu ((hinv.mem_map_iff a).mpr ha)
  mem_map_iff := fun v => by
    rw [hvec, hmap, AList.mem_insert, hinv.mem_map_iff, List.mem_append, List.mem_singleton,
      or_comm]
  lookup_getElem := fun k h => by
    have hlen : s'.vecUrls.urls.length = s.vecUrls.urls.length + 1 := by
      rw [hvec, List.length_append, List.length_singleton]
    by_cases hk : k < s.vecUrls.urls.length
    · have hget : s'.vecUrls.urls[k] = s.vecUrls.urls[k] := by
        simp only [hvec, List.getElem_append_left hk]
      have hne : s.vecUrls.urls[k] ≠ u := by
        intro heq
        exact hu ((hinv.mem_map_iff u).mpr (heq ▸ List.getElem_mem hk))
      rw [hget, hmap, AList.lookup_insert_ne hne]
      exact hinv.lookup_getElem k hk
    · have hk' : k = s.vecUrls.urls.length := by omega
      subst hk'
      have hget : s'.vecUrls.urls[s.vecUrls.urls.length] = u := by
        simp only [hvec, List.getElem_concat_length]
      rw [hget, hmap, AList.lookup_insert]

theorem inv_step (s : Solution) (c : Call) (hinv : s.Inv) : (s.step c).2.Inv := by
  cases c with
  | decode r => exact hinv
  | encode u =>
    rcases encode_cases s u with ⟨r, -, h⟩ | ⟨-, -, h⟩ | ⟨hu, -, s', h, hvec, hmap⟩
    · rw [Solution.step, h]
      exact hinv
    · rw [Solution.step, h]
      exact hinv
    · rw [Solution.step, h]
      exact inv_push hinv hu hvec hmap

theorem inv_ofCalls (cs : List Call) : (Solution.ofCalls cs).Inv :=
  Run.invariant_after Solution.step inv_step inv_new cs

/-! ## What later calls cannot undo -/

/-- Entries of the map stay as they are. -/
theorem lookup_step {s : Solution} {u r : Str} (h : s.mapUrls.lookup u = some r) (c : Call) :
    (s.step c).2.mapUrls.lookup u = some r := by
  cases c with
  | decode t => exact h
  | encode v =>
    rcases encode_cases s v with ⟨t, -, heq⟩ | ⟨-, -, heq⟩ | ⟨hv, -, s', heq, -, hmap⟩
    · rw [Solution.step, heq]
      exact h
    · rw [Solution.step, heq]
      exact h
    · have hne : u ≠ v := by
        rintro rfl
        rw [AList.lookup_eq_none.mpr hv] at h
        exact absurd h (by simp)
      rw [Solution.step, heq, hmap, AList.lookup_insert_ne hne]
      exact h

theorem lookup_after {s : Solution} {u r : Str} (h : s.mapUrls.lookup u = some r)
    (cs : List Call) : (Run.after Solution.step s cs).mapUrls.lookup u = some r :=
  Run.invariant_after (I := fun s : Solution => s.mapUrls.lookup u = some r) Solution.step
    (fun _ c h => lookup_step h c) h cs

/-- A known URL is answered from the map, and nothing changes. -/
theorem encode_of_lookup {s : Solution} {u r : Str} (h : s.mapUrls.lookup u = some r) :
    s.encode u = (some r, s) := by
  unfold Solution.encode
  rw [h]

/-- Whatever `encode` returned is in the map afterwards. -/
theorem lookup_of_encode {s : Solution} {u r : Str} (h : (s.encode u).1 = some r) :
    (s.encode u).2.mapUrls.lookup u = some r := by
  rcases encode_cases s u with ⟨t, hlook, heq⟩ | ⟨-, -, heq⟩ | ⟨-, -, s', heq, -, hmap⟩
  · rw [heq] at h ⊢
    rw [hlook]
    exact h
  · rw [heq] at h
    exact absurd h (by simp)
  · rw [heq] at h ⊢
    rw [hmap, AList.lookup_insert]
    exact h

/-- An issued short string is still the map's entry of its URL at the end of the run. -/
theorem lookup_of_issued {cs : List Call} {u r : Str} (h : Issued cs u r) :
    (Solution.ofCalls cs).mapUrls.lookup u = some r := by
  obtain ⟨pre, post, rfl, henc⟩ := h
  rw [Solution.ofCalls, Run.after_append, Run.after_cons]
  exact lookup_after (lookup_of_encode henc) post

/-- Issued strings belong to stored URLs: the string is the one of the URL's id. -/
theorem eq_shortUrl_of_issued {cs : List Call} {u r : Str} (h : Issued cs u r) :
    u ∈ (Solution.ofCalls cs).vecUrls.urls ∧
      r = shortUrl ((Solution.ofCalls cs).vecUrls.urls.idxOf u + 1) := by
  have hinv := inv_ofCalls cs
  have hlook := lookup_of_issued h
  have hmem : u ∈ (Solution.ofCalls cs).vecUrls.urls := by
    rw [← hinv.mem_map_iff, ← AList.lookup_isSome, hlook]
    rfl
  refine ⟨hmem, ?_⟩
  have hentry := hinv.lookup_getElem _ (List.idxOf_lt_length_iff.mpr hmem)
  rw [List.getElem_idxOf, hlook] at hentry
  exact Option.some.inj hentry

/-! ## Every stored URL was issued a string -/

theorem issued_append {cs : List Call} {u r : Str} (h : Issued cs u r) (ds : List Call) :
    Issued (cs ++ ds) u r := by
  obtain ⟨pre, post, rfl, henc⟩ := h
  exact ⟨pre, post ++ ds, by rw [List.append_assoc, List.cons_append], henc⟩

/-- A URL enters the vector only in a call of `encode` that returns. -/
theorem exists_issued_of_mem (cs : List Call) :
    ∀ u ∈ (Solution.ofCalls cs).vecUrls.urls, ∃ r, Issued cs u r := by
  induction cs using List.reverseRecOn with
  | nil => simp [Solution.ofCalls, Solution.new]
  | append_singleton cs c ih =>
    have hafter : Solution.ofCalls (cs ++ [c]) = ((Solution.ofCalls cs).step c).2 := by
      rw [Solution.ofCalls, Run.after_append, Run.after_cons, Run.after_nil]
      rfl
    intro u hu
    rw [hafter] at hu
    cases c with
    | decode t =>
      obtain ⟨r, hr⟩ := ih u hu
      exact ⟨r, issued_append hr _⟩
    | encode v =>
      rw [Solution.step] at hu
      rcases encode_cases (Solution.ofCalls cs) v with
        ⟨t, -, heq⟩ | ⟨-, -, heq⟩ | ⟨-, -, s', heq, hvec, -⟩
      · rw [heq] at hu
        obtain ⟨r, hr⟩ := ih u hu
        exact ⟨r, issued_append hr _⟩
      · rw [heq] at hu
        obtain ⟨r, hr⟩ := ih u hu
        exact ⟨r, issued_append hr _⟩
      · rw [heq, hvec, List.mem_append, List.mem_singleton] at hu
        rcases hu with hu | rfl
        · obtain ⟨r, hr⟩ := ih u hu
          exact ⟨r, issued_append hr _⟩
        · exact ⟨_, cs, [], rfl, by rw [heq]⟩

/-! ## The invariant over whole runs -/

/-- **The store after any run.**  The vector has no duplicates, the keys of the map
are its elements, position `k` has the string of id `k + 1`; a URL that was encoded
before gets its old string without any change, and `decode` changes nothing. -/
theorem store_invariant (cs : List Call) :
    (Solution.ofCalls cs).vecUrls.urls.Nodup ∧
    (∀ u, u ∈ (Solution.ofCalls cs).mapUrls.keys ↔ u ∈ (Solution.ofCalls cs).vecUrls.urls) ∧
    (∀ k (h : k < (Solution.ofCalls cs).vecUrls.urls.length),
      (Solution.ofCalls cs).mapUrls.lookup (Solution.ofCalls cs).vecUrls.urls[k]
        = some (padLoop (digitLoop (k + 1) []))) ∧
    (∀ u r, Issued cs u r → (Solution.ofCalls cs).encode u = (some r, Solution.ofCalls cs)) ∧
    (∀ u ∈ (Solution.ofCalls cs).vecUrls.urls, ∃ r, Issued cs u r) ∧
    ∀ t, ((Solution.ofCalls cs).step (.decode t)).2 = Solution.ofCalls cs := by
  have hinv := inv_ofCalls cs
  refine ⟨hinv.nodup, ?_, hinv.lookup_getElem, ?_, exists_issued_of_mem cs, fun t => rfl⟩
  · intro u
    rw [← AList.mem_keys, hinv.mem_map_iff]
  · intro u r h
    exact encode_of_lookup (lookup_of_issued h)

end TinyUrl
