/-
# Merging tables, `amqp_merge_capabilities` of `librabbitmq/amqp_socket.c`

The entries of `add` are put into a copy of `base`: an entry with a new key behind the others,
an entry with a key that is there in its place, and a table into the table in its place.  The
table it is merged into is looked up in `base`, where it is missing if the key came from `add`
before: a key twice in `add` can make the function follow a null pointer.
-/
import Pungoo.AmqpClone

namespace Amqp

open Wire Failing

/-! ## The code -/

/-- `amqp_table_get_entry_by_key(table, key)`: the value of the first entry with the key. -/
def getEntryByKey : Table → Bytes → Option FieldValue
  | [], _ => none
  | .mk k value :: entries, key => if k = key then some value else getEntryByKey entries key

/-- An assignment to the value of that entry. -/
def setEntryByKey : Table → Bytes → FieldValue → Table
  | [], _, _ => []
  | .mk k v :: entries, key, value =>
    if k = key then .mk k value :: entries else .mk k v :: setEntryByKey entries key value

/-- A value for a key: of the entry that is there, or of a new one. -/
def addEntry (temp : Table) (key : Bytes) (value : FieldValue) : Table :=
  match getEntryByKey temp key with
  | some _ => setEntryByKey temp key value
  | none => temp ++ [.mk key value]

/-- `temp_result` can be allocated: its size is not zero. -/
def allocEntries (base add : Table) : Except Failure Unit :=
  if base.length + add.length = 0 then .error (.status .noMemory) else .ok ()

mutual

/-- What becomes of the value of an entry of `add`; `e` is the value in `temp_result`, and `be`
that in `base`. -/
def mergeFieldValue : FieldValue → Option FieldValue → Option FieldValue →
    Except Failure FieldValue
  | .table entries, be, some (.table _) =>
    match be with
    | some (.table sub) => do
      allocEntries sub entries
      let merged ← mergeEntries entries sub sub
      let clone ← orFail (tableClone merged)
      pure (.table clone)
    -- a null pointer, or an entry that is no table
    | _ => .error .undefined
  | value, _, _ => pure value

/-- The loop of `amqp_merge_capabilities` over the entries of `add`. -/
def mergeEntries : List TableEntry → Table → Table → Except Failure Table
  | [], _, temp => pure temp
  | .mk key value :: add, base, temp => do
    let value ← mergeFieldValue value (getEntryByKey base key) (getEntryByKey temp key)
    mergeEntries add base (addEntry temp key value)

end

/-- `amqp_merge_capabilities(base, add, result, pool)`. -/
def mergeCapabilities (base add : Table) : Except Failure Table := do
  allocEntries base add
  let merged ← mergeEntries add base base
  orFail (tableClone merged)

/-! ## Tables as maps -/

/-- The keys of a table. -/
def keys (t : Table) : List Bytes := t.map fun | .mk key _ => key

section Lookup

variable {t : Table} {key other : Bytes} {value : FieldValue}

/-- No entry is found exactly if there is none. -/
theorem getEntryByKey_eq_none : getEntryByKey t key = none ↔ key ∉ keys t := by
  induction t with
  | nil => simp [getEntryByKey, keys]
  | cons entry t ih =>
    obtain ⟨k, v⟩ := entry
    by_cases hk : k = key
    · simp [getEntryByKey, keys, hk]
    · have hk' : key ≠ k := fun h => hk h.symm
      simpa [getEntryByKey, keys, hk, hk'] using ih

/-- A replaced value keeps the keys. -/
theorem keys_setEntryByKey : keys (setEntryByKey t key value) = keys t := by
  induction t with
  | nil => rfl
  | cons entry t ih =>
    obtain ⟨k, v⟩ := entry
    rw [setEntryByKey]
    split
    · rfl
    · simpa [keys] using ih

/-- The value that was set. -/
theorem getEntryByKey_set (hmem : key ∈ keys t) :
    getEntryByKey (setEntryByKey t key value) key = some value := by
  induction t with
  | nil => simp [keys] at hmem
  | cons entry t ih =>
    obtain ⟨k, v⟩ := entry
    by_cases hk : k = key
    · simp [setEntryByKey, getEntryByKey, hk]
    · have htail : key ∈ keys t := by
        have hk' : key ≠ k := fun h => hk h.symm
        simpa [keys, hk'] using hmem
      simpa [setEntryByKey, getEntryByKey, hk] using ih htail

/-- The other values are left alone. -/
theorem getEntryByKey_set_other (hne : other ≠ key) :
    getEntryByKey (setEntryByKey t key value) other = getEntryByKey t other := by
  induction t with
  | nil => rfl
  | cons entry t ih =>
    obtain ⟨k, v⟩ := entry
    by_cases hk : k = key
    · have hko : k ≠ other := fun h => hne (h.symm.trans hk)
      simp [setEntryByKey, getEntryByKey, hk, hk ▸ hko]
    · simp [setEntryByKey, getEntryByKey, hk, ih]

/-- An entry at the end is found behind the others. -/
theorem getEntryByKey_append (entry : TableEntry) :
    getEntryByKey (t ++ [entry]) key =
      match getEntryByKey t key with
      | some v => some v
      | none => getEntryByKey [entry] key := by
  induction t with
  | nil => rfl
  | cons first t ih =>
    obtain ⟨k, v⟩ := first
    rw [List.cons_append, getEntryByKey, getEntryByKey]
    split
    · rfl
    · exact ih

/-- An entry that is added is found, -/
theorem getEntryByKey_add : getEntryByKey (addEntry t key value) key = some value := by
  unfold addEntry
  cases hget : getEntryByKey t key with
  | some v =>
    refine getEntryByKey_set ?_
    by_contra hnot
    rw [getEntryByKey_eq_none.mpr hnot] at hget
    exact absurd hget (by simp)
  | none => simp [getEntryByKey_append, hget, getEntryByKey]

/-- and the others are as before. -/
theorem getEntryByKey_add_other (hne : other ≠ key) :
    getEntryByKey (addEntry t key value) other = getEntryByKey t other := by
  unfold addEntry
  cases hget : getEntryByKey t key with
  | some v => exact getEntryByKey_set_other hne
  | none =>
    have hne' : ¬ key = other := fun h => hne h.symm
    rw [getEntryByKey_append]
    cases getEntryByKey t other <;> simp [getEntryByKey, hne']

/-- A key that is new is behind the others. -/
theorem keys_addEntry :
    keys (addEntry t key value) = if key ∈ keys t then keys t else keys t ++ [key] := by
  unfold addEntry
  cases hget : getEntryByKey t key with
  | some v =>
    have hmem : key ∈ keys t := by
      by_contra hnot
      rw [getEntryByKey_eq_none.mpr hnot] at hget
      exact absurd hget (by simp)
    rw [if_pos hmem]
    exact keys_setEntryByKey
  | none =>
    rw [if_neg (getEntryByKey_eq_none.mp hget)]
    simp [keys]

end Lookup

/-! ## What a merge is -/

/-- What is in place of `b` where `v` is added. -/
def mergeValue (b : Option FieldValue) (v : FieldValue) : Except Failure FieldValue :=
  match v, b with
  | .table entries, some (.table sub) => (mergeCapabilities sub entries).map .table
  | v, _ => .ok v

mutual

/-- No key is twice in the value, if it is a table. -/
def FieldValue.Distinct : FieldValue → Prop
  | .table entries => DistinctKeys entries
  | _ => True

/-- No key is twice in the table, or in a table in it. -/
def DistinctKeys : List TableEntry → Prop
  | [] => True
  | .mk key value :: add => key ∉ keys add ∧ value.Distinct ∧ DistinctKeys add

end

section Merge

variable {base add temp r : Table} {key : Bytes} {value : FieldValue}

/-- A value for a key that the loop has not had before. -/
theorem mergeFieldValue_same (b : Option FieldValue) (v : FieldValue) :
    mergeFieldValue v b b = mergeValue b v := by
  unfold mergeValue
  split
  next entries sub =>
    simp only [mergeFieldValue, mergeCapabilities]
    rcases allocEntries sub entries with _ | _
    · rfl
    · simp only [ok_bind]
      rcases mergeEntries entries sub sub with _ | merged
      · rfl
      · simp only [ok_bind]
        rcases orFail (tableClone merged) with _ | _ <;> rfl
  next hnot =>
    unfold mergeFieldValue
    split
    next => exact absurd rfl (hnot _ _ rfl)
    next => rfl

/-- A key that is new, or had the value of `base`, is handled as the code expects. -/
theorem same_of_add {first : Bytes} {w : FieldValue} (hne : key ≠ first)
    (hsame : getEntryByKey temp key = getEntryByKey base key) :
    getEntryByKey (addEntry temp first w) key = getEntryByKey base key :=
  (getEntryByKey_add_other hne).trans hsame

/-- What the loop makes of the entries that are left. -/
theorem mergeEntries_ok (hnodup : (keys add).Nodup)
    (hsame : ∀ key ∈ keys add, getEntryByKey temp key = getEntryByKey base key)
    (hok : mergeEntries add base temp = .ok r) :
    keys r = keys temp ++ (keys add).filter (fun key => key ∉ keys temp) ∧
      (∀ key ∉ keys add, getEntryByKey r key = getEntryByKey temp key) ∧
      ∀ key v, getEntryByKey add key = some v →
        ∃ w, mergeValue (getEntryByKey base key) v = .ok w ∧ getEntryByKey r key = some w := by
  induction add generalizing temp with
  | nil =>
    obtain rfl : temp = r := Except.ok.inj hok
    exact ⟨by simp [keys], fun _ _ => rfl, fun key v h => absurd h (by simp [getEntryByKey])⟩
  | cons entry add ih =>
    obtain ⟨first, v⟩ := entry
    have hkeys : keys (.mk first v :: add) = first :: keys add := rfl
    rw [hkeys, List.nodup_cons] at hnodup
    rw [hkeys, List.forall_mem_cons] at hsame
    rw [mergeEntries, hsame.1, mergeFieldValue_same] at hok
    obtain ⟨w, hvalue, hok⟩ := bind_eq_ok_iff.mp hok
    have hne : ∀ key ∈ keys add, key ≠ first := fun key hkey h => hnodup.1 (h ▸ hkey)
    obtain ⟨hr, hold, hnew⟩ := ih hnodup.2
      (fun key hkey => same_of_add (hne key hkey) (hsame.2 key hkey)) hok
    refine ⟨?_, fun key hkey => ?_, fun key u hget => ?_⟩
    · -- the keys behind `first` are new if they were before
      have hfilter : (keys add).filter (fun key => key ∉ keys (addEntry temp first w)) =
          (keys add).filter fun key => key ∉ keys temp := by
        refine List.filter_congr fun key hkey => ?_
        rw [keys_addEntry]
        split <;> simp [hne key hkey]
      rw [hr, hfilter, keys_addEntry, hkeys]
      by_cases hmem : first ∈ keys temp
      · rw [if_pos hmem, List.filter_cons_of_neg (by simpa using hmem)]
      · rw [if_neg hmem, List.filter_cons_of_pos (by simpa using hmem), List.append_assoc]
        rfl
    · rw [hkeys, List.mem_cons, not_or] at hkey
      rw [hold key hkey.2, getEntryByKey_add_other hkey.1]
    · rw [getEntryByKey] at hget
      split at hget
      next hfirst =>
        obtain rfl := Option.some.inj hget
        subst hfirst
        exact ⟨w, hvalue, by rw [hold first hnodup.1, getEntryByKey_add]⟩
      next => exact hnew key u hget

/-- Distinct keys are distinct at the outermost level. -/
theorem nodup_of_distinct (h : DistinctKeys add) : (keys add).Nodup := by
  induction add with
  | nil => simp [keys]
  | cons entry add ih =>
    obtain ⟨key, v⟩ := entry
    exact List.nodup_cons.mpr ⟨h.1, ih h.2.2⟩

theorem allocEntries_ne_undefined : allocEntries base add ≠ .error .undefined := by
  unfold allocEntries
  split <;> simp

/-- A merge fails as its loop does, or with a status. -/
theorem mergeCapabilities_ne_undefined (h : mergeEntries add base base ≠ .error .undefined) :
    mergeCapabilities base add ≠ .error .undefined := by
  simp only [mergeCapabilities, ne_eq, bind_eq_error_iff]
  rintro (halloc | ⟨-, -, hloop | ⟨merged, -, hclone⟩⟩)
  · exact allocEntries_ne_undefined halloc
  · exact h hloop
  · exact orFail_ne_undefined hclone

/-- A value can only be undefined as a merge of two tables is. -/
theorem mergeValue_eq_undefined {b : Option FieldValue} {v : FieldValue}
    (h : mergeValue b v = .error .undefined) :
    ∃ entries sub, v = .table entries ∧ b = some (.table sub) ∧
      mergeCapabilities sub entries = .error .undefined := by
  unfold mergeValue at h
  split at h
  next entries sub =>
    refine ⟨entries, sub, rfl, rfl, ?_⟩
    rcases hmerge : mergeCapabilities sub entries with e | merged <;> rw [hmerge] at h
    · rw [Except.error.inj h]
    · exact absurd h (by simp [Except.map])
  next => exact absurd h (by simp)

mutual

/-- No value follows a null pointer, however it is nested. -/
theorem mergeValue_defined : ∀ (v : FieldValue) (b : Option FieldValue), v.Distinct →
    mergeValue b v ≠ .error .undefined
  | .table entries, _, h => fun hvalue => by
    obtain ⟨entries', sub, hv, -, hmerge⟩ := mergeValue_eq_undefined hvalue
    obtain rfl := FieldValue.table.inj hv
    exact mergeCapabilities_ne_undefined (mergeEntries_defined entries sub sub h fun _ _ => rfl)
      hmerge
  | .boolean _, _, _ | .i8 _, _, _ | .u8 _, _, _ | .i16 _, _, _ | .u16 _, _, _ | .i32 _, _, _
  | .u32 _, _, _ | .i64 _, _, _ | .u64 _, _, _ | .f32 _, _, _ | .f64 _, _, _
  | .decimal _ _, _, _ | .utf8 _, _, _ | .array _, _, _ | .timestamp _, _, _ | .void, _, _
  | .bytes _, _, _ => fun hvalue => by
    obtain ⟨_, _, hv, -⟩ := mergeValue_eq_undefined hvalue
    exact absurd hv (by simp)

/-- With no key twice, the loop follows no null pointer. -/
theorem mergeEntries_defined : ∀ (add base temp : Table), DistinctKeys add →
    (∀ key ∈ keys add, getEntryByKey temp key = getEntryByKey base key) →
    mergeEntries add base temp ≠ .error .undefined
  | [], _, _, _, _ => by simp [mergeEntries, pure, Except.pure]
  | .mk first v :: add, base, temp, h, hsame => by
    have hkeys : keys (.mk first v :: add) = first :: keys add := rfl
    rw [hkeys, List.forall_mem_cons] at hsame
    have hrest : ∀ w, mergeEntries add base (addEntry temp first w) ≠ .error .undefined :=
      fun w => mergeEntries_defined add base _ h.2.2 fun key hkey =>
        same_of_add (fun hfirst => h.1 (hfirst ▸ hkey)) (hsame.2 key hkey)
    rw [mergeEntries, hsame.1, mergeFieldValue_same, ne_eq, bind_eq_error_iff]
    rintro (hvalue | ⟨w, -, hundefined⟩)
    · exact mergeValue_defined v _ h.2.1 hvalue
    · exact hrest w hundefined

end

/-- A merge keeps the keys of `base` in their order, with the new keys of `add` behind them.
Under a key that is not in `add` is what is in `base`; under one that is, the value in `add`, or
the merge of the two if both are tables. -/
theorem merge_spec (base add : Table) (hdistinct : DistinctKeys add) :
    mergeCapabilities base add ≠ .error .undefined ∧
      ∀ r, mergeCapabilities base add = .ok r →
        keys r = keys base ++ (keys add).filter (fun key => key ∉ keys base) ∧
        (∀ key ∉ keys add, getEntryByKey r key = getEntryByKey base key) ∧
        ∀ key v, getEntryByKey add key = some v →
          ∃ w, mergeValue (getEntryByKey base key) v = .ok w ∧ getEntryByKey r key = some w := by
  refine ⟨mergeCapabilities_ne_undefined (mergeEntries_defined add base base hdistinct
    fun _ _ => rfl), fun r hok => ?_⟩
  obtain ⟨-, -, hok⟩ := bind_eq_ok_iff.mp hok
  obtain ⟨merged, hloop, hclone⟩ := bind_eq_ok_iff.mp hok
  obtain rfl : merged = r := by
    rw [orFail_eq_ok, tableClone_eq, copied] at hclone
    split at hclone
    · exact Except.ok.inj hclone
    · exact absurd hclone (by simp)
  exact mergeEntries_ok (nodup_of_distinct hdistinct) (fun _ _ => rfl) hloop

/-- One value replaced, one table merged and one key added. -/
theorem merge_spec_props :
    mergeCapabilities [.mk [1] (.u8 1), .mk [2] (.table [.mk [7] .void])]
        [.mk [3] .void, .mk [1] (.u8 2), .mk [2] (.table [.mk [7] (.u8 9)])] =
      .ok [.mk [1] (.u8 2), .mk [2] (.table [.mk [7] (.u8 9)]), .mk [3] .void] ∧
    mergeCapabilities [.mk [1] (.u8 1), .mk [2] (.table [.mk [7] .void])]
        [.mk [3] .void, .mk [1] (.u8 2), .mk [2] (.table [.mk [7] (.u8 9)])] ≠
      .error .undefined := by
  refine ⟨rfl, (merge_spec _ _ ?_).1⟩
  simp [DistinctKeys, FieldValue.Distinct, keys]

/-- A key twice in `add`, and not in `base`. -/
theorem merge_twice (base : Table) (key : Bytes) (entries entries' : List TableEntry)
    (hnew : key ∉ keys base) :
    mergeCapabilities base [.mk key (.table entries), .mk key (.table entries')] =
      .error .undefined := by
  have hnone : getEntryByKey base key = none := getEntryByKey_eq_none.mpr hnew
  have halloc : allocEntries base [.mk key (.table entries), .mk key (.table entries')] =
      .ok () := if_neg (by simp)
  have hfirst : mergeFieldValue (.table entries) none none = .ok (.table entries) := rfl
  have hsecond : mergeFieldValue (.table entries') none (some (.table entries)) =
      .error .undefined := rfl
  rw [mergeCapabilities, halloc, ok_bind, mergeEntries, hnone, hfirst, ok_bind, mergeEntries,
    hnone, getEntryByKey_add, hsecond]
  rfl

end Merge

end Amqp
