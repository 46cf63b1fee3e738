/-
# Copies of tables and of content properties

`amqp_table_clone` of `librabbitmq/amqp_table.c` refuses a key that is empty, at any depth;
encoder and decoder take one.  `amqp_basic_properties_clone` of `librabbitmq/amqp_consumer.c`
copies the properties of any content header as those of the class `basic`: for another class
it reads members that are not there.
-/
import Pungoo.AmqpProperties

namespace Amqp

open Wire Codec Failing

/-! ## Tables -/

mutual

/-- `amqp_field_value_clone(original, clone, pool)`. -/
def cloneFieldValue : FieldValue → Except Status FieldValue
  | .array entries => do
    let entries ← cloneArrayEntries entries
    pure (.array entries)
  | .table entries => do
    let entries ← cloneTableEntries entries
    pure (.table entries)
  -- the other kinds have no entries
  | value => pure value

/-- Its loop over the entries of an array. -/
def cloneArrayEntries : List FieldValue → Except Status (List FieldValue)
  | [] => pure []
  | entry :: entries => do
    let entry ← cloneFieldValue entry
    let entries ← cloneArrayEntries entries
    pure (entry :: entries)

/-- The loop of `amqp_table_clone`, with `amqp_table_entry_clone`. -/
def cloneTableEntries : List TableEntry → Except Status (List TableEntry)
  | [] => pure []
  | .mk key value :: entries =>
    if key.length = 0 then .error .invalidParameter
    else do
      let value ← cloneFieldValue value
      let entries ← cloneTableEntries entries
      pure (.mk key value :: entries)

end

/-- `amqp_table_clone(original, clone, pool)`. -/
def tableClone (original : Table) : Except Status Table := cloneTableEntries original

mutual

/-- No key in the value is empty. -/
def FieldValue.keyed : FieldValue → Bool
  | .array entries => arrayKeyed entries
  | .table entries => entriesKeyed entries
  | _ => true

/-- No key in the entries of an array is empty. -/
def arrayKeyed : List FieldValue → Bool
  | [] => true
  | entry :: entries => entry.keyed && arrayKeyed entries

/-- No key of a table is empty, or in its values. -/
def entriesKeyed : List TableEntry → Bool
  | [] => true
  | .mk key value :: entries => key.length ≠ 0 && value.keyed && entriesKeyed entries

end

/-- What a copy of `a` returns that is taken if `keyed`. -/
def copied {α : Type} (keyed : Bool) (a : α) : Except Status α :=
  if keyed then .ok a else .error .invalidParameter

mutual

/-- The copy of a value is the value, unless a table in it has an empty key. -/
theorem cloneFieldValue_eq : ∀ v, cloneFieldValue v = copied v.keyed v
  | .array entries => by
    simp only [cloneFieldValue, FieldValue.keyed, cloneArrayEntries_eq entries, copied]
    by_cases h : arrayKeyed entries <;> simp [h]
  | .table entries => by
    simp only [cloneFieldValue, FieldValue.keyed, cloneTableEntries_eq entries, copied]
    by_cases h : entriesKeyed entries <;> simp [h]
  | .boolean _ | .i8 _ | .u8 _ | .i16 _ | .u16 _ | .i32 _ | .u32 _ | .i64 _ | .u64 _ => rfl
  | .f32 _ | .f64 _ | .decimal _ _ | .utf8 _ | .timestamp _ | .void | .bytes _ => rfl

/-- The same for the entries of an array. -/
theorem cloneArrayEntries_eq : ∀ es, cloneArrayEntries es = copied (arrayKeyed es) es
  | [] => rfl
  | e :: es => by
    rw [cloneArrayEntries, cloneFieldValue_eq e, cloneArrayEntries_eq es, arrayKeyed]
    cases e.keyed <;> cases arrayKeyed es <;> rfl

/-- The same for the entries of a table. -/
theorem cloneTableEntries_eq : ∀ es, cloneTableEntries es = copied (entriesKeyed es) es
  | [] => rfl
  | .mk key v :: es => by
    rw [cloneTableEntries, cloneFieldValue_eq v, cloneTableEntries_eq es, entriesKeyed]
    by_cases hkey : key.length = 0
    · simp [hkey, copied]
    · rw [if_neg hkey]
      cases v.keyed <;> cases entriesKeyed es <;> simp [hkey, copied]

end

/-- A table is copied if no key in it is empty, and refused otherwise. -/
theorem tableClone_eq (original : Table) :
    tableClone original = copied (entriesKeyed original) original :=
  cloneTableEntries_eq original

/-! ## Properties -/

/-- A copy of a property that is there: `CLONE_BYTES_POOL`, `amqp_table_clone` or an
assignment. -/
def cloneField : (t : FieldType) → t.Val → Except Status t.Val
  | .table, v => tableClone v
  | .shortstr, v => pure v
  | .longstr, v => pure v
  | .octet, v => pure v
  | .short, v => pure v
  | .long, v => pure v
  | .longlong, v => pure v
  | .bits _ _, v => pure v

/-- A copy of a property if its flag is set.  A `struct` of another class does not have the
member. -/
def cloneOptional (t : FieldType) : (b : Bool) → Option (Optional t.Val b) →
    Except Failure (Optional t.Val b)
  | false, _ => pure ()
  | true, none => .error .undefined
  | true, some v => orFail (cloneField t v)

/-- Copies of the properties, one after another. -/
def cloneFlagged (flags : UInt32) : (ps : List (ℕ × FieldType)) → Option (Flagged flags ps) →
    Except Failure (Flagged flags ps)
  | [], _ => pure ()
  | (bit, t) :: ps, original => do
    let v ← cloneOptional t (flags.toNat.testBit bit) (original.map Prod.fst)
    let vs ← cloneFlagged flags ps (original.map Prod.snd)
    pure (v, vs)

/-- The members that a class has, in the `struct` of the class of `p`. -/
def Properties.members (p : Properties) (classId : UInt16) :
    Option (Flagged p.flags (propertyLayout classId)) :=
  if h : p.classId = classId then some (h ▸ p.values) else none

/-- The copy of the members that a class has. -/
def cloneMembers (original : Properties) (classId : UInt16) :
    Except Failure { p : Properties // p.classId = classId } := do
  let values ← cloneFlagged original.flags (propertyLayout classId) (original.members classId)
  pure ⟨{ classId := classId, flags := original.flags, values := values }, rfl⟩

/-- `amqp_basic_properties_clone(original, clone, pool)`. -/
def basicPropertiesClone (original : Properties) : Except Failure BasicProperties := do
  let clone ← cloneMembers original basicClass
  pure { toProperties := clone.1, basic := clone.2 }

/-- The tables of a field have no empty key. -/
def fieldKeyed : (t : FieldType) → t.Val → Prop
  | .table, v => entriesKeyed v = true
  | .octet, _ | .short, _ | .long, _ | .longlong, _ | .shortstr, _ | .longstr, _ => True
  | .bits _ _, _ => True

/-- The tables among the properties have no empty key. -/
def Properties.Keyed (p : Properties) : Prop :=
  flaggedAll fieldKeyed p.flags (propertyLayout p.classId) p.values

/-- A flag that is set for one of the properties. -/
def Sets (flags : UInt32) (ps : List (ℕ × FieldType)) : Prop :=
  ∃ p ∈ ps, flags.toNat.testBit p.1 = true

section Clone

variable {flags : UInt32} {ps : List (ℕ × FieldType)} {t : FieldType} {b : Bool}

/-- A field without an empty key is copied. -/
theorem cloneField_keyed {v : t.Val} (h : fieldKeyed t v) : cloneField t v = .ok v := by
  cases t with
  | table => exact (tableClone_eq v).trans (if_pos h)
  | _ => rfl

/-- A table with an empty key is refused. -/
theorem cloneField_refuses {v : t.Val} (h : ¬ fieldKeyed t v) :
    cloneField t v = .error .invalidParameter := by
  cases t with
  | table => exact (tableClone_eq v).trans (if_neg h)
  | _ => exact absurd trivial h

/-- A property without an empty key is copied if its flag is set, and left alone otherwise. -/
theorem cloneOptional_keyed {v : Optional t.Val b} (h : optionalAll fieldKeyed t b v) :
    cloneOptional t b (some v) = .ok v := by
  cases b with
  | false => rfl
  | true => exact orFail_eq_ok.mpr (cloneField_keyed h)

/-- A property with an empty key is refused. -/
theorem cloneOptional_refuses {v : Optional t.Val b} (h : ¬ optionalAll fieldKeyed t b v) :
    cloneOptional t b (some v) = .error (.status .invalidParameter) := by
  cases b with
  | false => exact absurd trivial h
  | true =>
    have hfield : cloneField t v = .error .invalidParameter := cloneField_refuses h
    simp only [cloneOptional, hfield, orFail]

theorem cloneFlagged_cons {p : ℕ × FieldType} (v : Optional p.2.Val (flags.toNat.testBit p.1))
    (vs : Flagged flags ps) :
    cloneFlagged flags (p :: ps) (some (v, vs)) = (do
      let v ← cloneOptional p.2 (flags.toNat.testBit p.1) (some v)
      let vs ← cloneFlagged flags ps (some vs)
      pure (v, vs)) := rfl

/-- Properties without an empty key are copied. -/
theorem cloneFlagged_keyed (vs : Flagged flags ps) (h : flaggedAll fieldKeyed flags ps vs) :
    cloneFlagged flags ps (some vs) = .ok vs := by
  induction ps with
  | nil => rfl
  | cons p ps ih =>
    obtain ⟨v, vs⟩ := vs
    rw [cloneFlagged_cons, cloneOptional_keyed h.1, ok_bind, ih vs h.2]
    rfl

/-- Properties with an empty key are refused. -/
theorem cloneFlagged_refuses (vs : Flagged flags ps) (h : ¬ flaggedAll fieldKeyed flags ps vs) :
    cloneFlagged flags ps (some vs) = .error (.status .invalidParameter) := by
  induction ps with
  | nil => exact absurd trivial h
  | cons p ps ih =>
    obtain ⟨v, vs⟩ := vs
    rw [cloneFlagged_cons]
    by_cases hv : optionalAll fieldKeyed p.2 (flags.toNat.testBit p.1) v
    · rw [cloneOptional_keyed hv, ok_bind, ih vs fun hvs => h ⟨hv, hvs⟩]
      rfl
    · rw [cloneOptional_refuses hv]
      rfl

/-- Without the members, only a property whose flag is not set may be copied. -/
theorem cloneOptional_none :
    cloneOptional t b none = .error .undefined ↔ b = true := by
  cases b <;> simp [cloneOptional, pure, Except.pure]

theorem cloneOptional_unset (h : b = false) : ∃ v, cloneOptional t b none = .ok v := by
  subst h
  exact ⟨(), rfl⟩

/-- Without the members, only a copy that reads none of them is defined. -/
theorem cloneFlagged_none :
    cloneFlagged flags ps none = .error .undefined ↔ Sets flags ps := by
  induction ps with
  | nil => simp [cloneFlagged, Sets, pure, Except.pure]
  | cons p ps ih =>
    have hsets : Sets flags (p :: ps) ↔ flags.toNat.testBit p.1 = true ∨ Sets flags ps := by
      simp [Sets]
    have hcons : cloneFlagged flags (p :: ps) none = (do
        let v ← cloneOptional p.2 (flags.toNat.testBit p.1) none
        let vs ← cloneFlagged flags ps none
        pure (v, vs)) := rfl
    rw [hsets, hcons, bind_eq_error_iff, cloneOptional_none]
    simp only [bind_eq_error_iff, ih]
    by_cases hbit : flags.toNat.testBit p.1 = true
    · simp [hbit]
    · -- nothing is read for a flag that is not set
      have hok := cloneOptional_unset (t := p.2) (by simpa using hbit)
      simp [hbit, hok, pure, Except.pure]

/-- The copy of properties without an empty key is equal to them. -/
theorem cloneMembers_self {p : Properties} (h : p.Keyed) :
    cloneMembers p p.classId = .ok ⟨p, rfl⟩ := by
  have hmembers : p.members p.classId = some p.values := dif_pos rfl
  rw [cloneMembers, hmembers, cloneFlagged_keyed p.values h]
  rfl

/-- Properties with an empty key are refused. -/
theorem cloneMembers_refuses {p : Properties} (h : ¬ p.Keyed) :
    cloneMembers p p.classId = .error (.status .invalidParameter) := by
  have hmembers : p.members p.classId = some p.values := dif_pos rfl
  rw [cloneMembers, hmembers, cloneFlagged_refuses p.values h]
  rfl

/-- Properties of the class `basic` are copied if no key in their headers is empty. -/
theorem propertiesClone_keyed {p : BasicProperties} (h : p.Keyed) :
    basicPropertiesClone p.toProperties = .ok p := by
  obtain ⟨p, hbasic⟩ := p
  have hclone : ∀ c (hc : p.classId = c), cloneMembers p c = .ok ⟨p, hc⟩ := by
    rintro c rfl
    exact cloneMembers_self h
  rw [basicPropertiesClone, hclone basicClass hbasic]
  rfl

/-- Otherwise they are refused. -/
theorem propertiesClone_refuses {p : BasicProperties} (h : ¬ p.Keyed) :
    basicPropertiesClone p.toProperties = .error (.status .invalidParameter) := by
  obtain ⟨p, hbasic⟩ := p
  have hclone : ∀ c, p.classId = c → cloneMembers p c = .error (.status .invalidParameter) := by
    rintro c rfl
    exact cloneMembers_refuses h
  rw [basicPropertiesClone, hclone basicClass hbasic]
  rfl

/-- For properties of another class members are read that are not there, if a flag says so. -/
theorem propertiesClone_other {p : Properties} (h : p.classId ≠ basicClass) :
    basicPropertiesClone p = .error .undefined ↔ Sets p.flags (propertyLayout basicClass) := by
  have hmembers : p.members basicClass = none := dif_neg h
  rw [← cloneFlagged_none, basicPropertiesClone, cloneMembers, hmembers, bind_eq_error_iff,
    bind_eq_error_iff]
  simp [pure, Except.pure]

end Clone

end Amqp
