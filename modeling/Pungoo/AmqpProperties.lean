/-
# Content properties of `librabbitmq/amqp_framing.c`

The properties of a content header are a word of flags and the properties whose flag is set.
The flags are written in words of sixteen bits; the lowest bit of a word says whether
another follows.
-/
import Pungoo.AmqpMethods

namespace Amqp

open Wire Codec Failing

/-- How a function that handles input fails: with a status, or in a way the language leaves
undefined. -/
inductive Failure
  | status (e : Status) | undefined
  deriving DecidableEq, Repr

/-- A status as a failure. -/
def orFail {α : Type} (x : Except Status α) : Except Failure α :=
  match x with
  | .ok a => .ok a
  | .error e => .error (.status e)

/-- Only a failure is converted. -/
theorem orFail_eq_ok {α : Type} {x : Except Status α} {a : α} :
    orFail x = .ok a ↔ x = .ok a := by
  cases x <;> simp [orFail]

/-- A status is no access outside the buffers. -/
theorem orFail_ne_undefined {α : Type} {x : Except Status α} :
    orFail x ≠ .error .undefined := by
  cases x <;> simp [orFail]

/-! ## The record -/

/-- `AMQP_BASIC_CLASS`. -/
def basicClass : UInt16 := 0x003C

/-- The properties of the class `basic` in their order on the wire, each with the number of
its flag bit. -/
def basicLayout : List (ℕ × FieldType) :=
  [ -- content_type, content_encoding, headers, delivery_mode, priority
    (15, .shortstr), (14, .shortstr), (13, .table), (12, .octet), (11, .octet),
    -- correlation_id, reply_to, expiration, message_id, timestamp
    (10, .shortstr), (9, .shortstr), (8, .shortstr), (7, .shortstr), (6, .longlong),
    -- type, user_id, app_id, cluster_id
    (5, .shortstr), (4, .shortstr), (3, .shortstr), (2, .shortstr)]

/-- The classes a `switch` of the source has a case for. -/
def knownClasses : List UInt16 := [10, 20, 30, 40, 50, basicClass, 90, 85]

/-- The properties of a class; only `basic` has any. -/
def propertyLayout (classId : UInt16) : List (ℕ × FieldType) :=
  if classId = basicClass then basicLayout else []

/-- A value that is there if the flag is set. -/
def Optional (α : Type) : Bool → Type
  | true => α
  | false => Unit

/-- The members of a `struct` that `flags` says are set. -/
def Flagged (flags : UInt32) : List (ℕ × FieldType) → Type
  | [] => Unit
  | (bit, t) :: ps => Optional t.Val (flags.toNat.testBit bit) × Flagged flags ps

/-- A `struct amqp_*_properties_t` with its class. -/
structure Properties where
  classId : UInt16
  flags : UInt32
  values : Flagged flags (propertyLayout classId)

/-- `amqp_basic_properties_t`. -/
structure BasicProperties extends Properties where
  basic : classId = basicClass

/-! ## The encoder -/

/-- The loop that writes the flags; it has two passes at most. -/
def encodeFlags : ℕ → UInt32 → Buffer → Except Status Buffer
  | 0, _, s => pure s
  | passes + 1, remainingFlags, s => do
    let remainder := remainingFlags >>> 16
    let partialFlags := (remainingFlags &&& 0xFFFE).toUInt16
    let s ← encode16 .badAmqpData (if remainder ≠ 0 then partialFlags ||| 1 else partialFlags) s
    if remainder ≠ 0 then encodeFlags passes remainder s else pure s

/-- The encoder of a property. -/
def encodeOptional (t : FieldType) : (b : Bool) → Optional t.Val b → Buffer →
    Except Status Buffer
  | true, v, s => encodeField t v s
  | false, _, s => pure s

/-- The encoders of the properties, one after another. -/
def encodeFlagged (flags : UInt32) : (ps : List (ℕ × FieldType)) → Flagged flags ps → Buffer →
    Except Status Buffer
  | [], _, s => pure s
  | (bit, t) :: ps, (v, vs), s => do
    let s ← encodeOptional t (flags.toNat.testBit bit) v s
    encodeFlagged flags ps vs s

/-- `amqp_encode_properties(class_id, decoded, encoded)`. -/
def encodeProperties (p : Properties) (encoded : Bytes) : Except Status Buffer := do
  let s ← encodeFlags 2 p.flags { encoded := encoded, offset := 0 }
  if p.classId ∈ knownClasses then
    encodeFlagged p.flags (propertyLayout p.classId) p.values s
  else .error .unknownClass

/-! ## The decoder -/

/-- The loop that reads the flags, with the number of words before a shift by the width of
`flags`. -/
def decodeFlags : ℕ → ℕ → UInt32 → Buffer → Except Failure (UInt32 × Buffer)
  | 0, _, _, s => do
    let _ ← orFail (asStatus (decode16 s))
    .error .undefined
  | words + 1, flagwordIndex, flags, s => do
    let (partialFlags, s) ← orFail (asStatus (decode16 s))
    let flags := flags ||| (partialFlags.toUInt32 <<< (UInt32.ofNat (flagwordIndex * 16)))
    if partialFlags &&& 1 ≠ 0 then decodeFlags words (flagwordIndex + 1) flags s
    else pure (flags, s)

/-- The decoder of a property. -/
def decodeOptional (t : FieldType) : (b : Bool) → Buffer →
    Except Status (Optional t.Val b × Buffer)
  | true, s => decodeField t s
  | false, s => pure ((), s)

/-- The decoders of the properties, one after another. -/
def decodeFlagged (flags : UInt32) : (ps : List (ℕ × FieldType)) → Buffer →
    Except Status (Flagged flags ps × Buffer)
  | [], s => pure ((), s)
  | (bit, t) :: ps, s => do
    let (v, s) ← decodeOptional t (flags.toNat.testBit bit) s
    let (vs, s) ← decodeFlagged flags ps s
    pure ((v, vs), s)

/-- `amqp_decode_properties(class_id, pool, encoded, decoded)`. -/
def decodeProperties (classId : UInt16) (encoded : Bytes) : Except Failure Properties := do
  let (flags, s) ← decodeFlags 2 0 0 { encoded := encoded, offset := 0 }
  if classId ∈ knownClasses then do
    let (values, _) ← orFail (decodeFlagged flags (propertyLayout classId) s)
    pure { classId := classId, flags := flags, values := values }
  else .error (.status .unknownClass)

/-! ## The format -/

/-- A property on the wire. -/
def optionalBytes (t : FieldType) : (b : Bool) → Optional t.Val b → Bytes
  | true, v => fieldBytes t v
  | false, _ => []

/-- The properties on the wire. -/
def flaggedBytes (flags : UInt32) : (ps : List (ℕ × FieldType)) → Flagged flags ps → Bytes
  | [], _ => []
  | (bit, t) :: ps, (v, vs) =>
    optionalBytes t (flags.toNat.testBit bit) v ++ flaggedBytes flags ps vs

/-- What holds of the value of every property that is there. -/
def optionalAll (P : (t : FieldType) → t.Val → Prop) (t : FieldType) :
    (b : Bool) → Optional t.Val b → Prop
  | true, v => P t v
  | false, _ => True

/-- What holds of the values of the properties. -/
def flaggedAll (P : (t : FieldType) → t.Val → Prop) (flags : UInt32) :
    (ps : List (ℕ × FieldType)) → Flagged flags ps → Prop
  | [], _ => True
  | (bit, t) :: ps, (v, vs) =>
    optionalAll P t (flags.toNat.testBit bit) v ∧ flaggedAll P flags ps vs

/-- The flags are flags of properties: all of these are in the first word, above its lowest
bit. -/
def NamedFlags (flags : UInt32) : Prop := flags.toNat < 2 ^ 16 ∧ flags.toNat % 2 = 0

/-- Properties on the wire. -/
def Properties.bytes (p : Properties) : Bytes :=
  be 2 p.flags.toNat ++ flaggedBytes p.flags (propertyLayout p.classId) p.values

/-- The strings among the properties fit where they are written. -/
def Properties.StringsFit (p : Properties) : Prop :=
  flaggedAll stringFits p.flags (propertyLayout p.classId) p.values

/-- The tables among the properties fit. -/
def Properties.TablesFit (p : Properties) : Prop :=
  flaggedAll tableFits p.flags (propertyLayout p.classId) p.values

/-! ## The encoder writes the format, the decoder reads it -/

/-- The bits of the mask. -/
theorem testBit_mask : ∀ i < 16, Nat.testBit 0xFFFE i = decide (i ≠ 0) := by decide

/-- The mask keeps the flags of properties. -/
theorem and_mask {n : ℕ} (hlt : n < 2 ^ 16) (heven : n % 2 = 0) : n &&& 0xFFFE = n := by
  apply Nat.eq_of_testBit_eq
  intro i
  rw [Nat.testBit_and]
  rcases Nat.lt_or_ge i 16 with hi | hi
  · rw [testBit_mask i hi]
    by_cases hzero : i = 0
    · subst hzero
      simp [Nat.testBit_zero, heven]
    · simp [hzero]
  · have hbit : n.testBit i = false :=
      Nat.testBit_lt_two_pow (lt_of_lt_of_le hlt (Nat.pow_le_pow_right (by omega) hi))
    rw [hbit, Bool.false_and]

/-- Named flags are written as one word. -/
theorem encodeFlags_writes {flags : UInt32} (h : NamedFlags flags) :
    Writes (encodeFlags 2 flags) (be 2 flags.toNat) := by
  obtain ⟨hlt, heven⟩ := h
  have hshift : flags >>> 16 = 0 := by
    apply UInt32.toNat_inj.mp
    rw [UInt32.toNat_shiftRight]
    simp only [UInt32.reduceToNat, Nat.reduceMod, Nat.shiftRight_eq_div_pow]
    omega
  have hmask : ((flags &&& 0xFFFE).toUInt16).toNat = flags.toNat := by
    rw [UInt32.toNat_toUInt16, UInt32.toNat_and]
    simp only [UInt32.reduceToNat, and_mask hlt heven]
    omega
  have hwrites := encode16_writes .badAmqpData (flags &&& 0xFFFE).toUInt16
  rw [hmask] at hwrites
  have heq : encodeFlags 2 flags = encode16 .badAmqpData (flags &&& 0xFFFE).toUInt16 := by
    funext s
    rw [encodeFlags]
    simp only [hshift, ne_eq, not_true_eq_false, if_false]
    cases encode16 .badAmqpData (flags &&& 0xFFFE).toUInt16 s <;> rfl
  rw [heq]
  exact hwrites

/-- What a field decoder reads, a property decoder reads. -/
theorem orFail_reads {α : Type} {f : Buffer → Except Status (α × Buffer)} {a : α} {bs : Bytes}
    (h : Reads f a bs) : Reads (fun s => orFail (f s)) a bs := by
  intro s hs hbs
  simp only [h s hs hbs]
  rfl

/-- A word with a clear lowest bit is the last. -/
theorem decodeFlags_reads {flags : UInt32} (h : NamedFlags flags) :
    Reads (decodeFlags 2 0 0) flags (be 2 flags.toNat) := by
  obtain ⟨hlt, heven⟩ := h
  have hword : flags.toUInt16.toNat = flags.toNat := by
    rw [UInt32.toNat_toUInt16]
    omega
  have hread := orFail_reads (asStatus_reads (decode16_reads flags.toUInt16))
  rw [hword] at hread
  have hlast : flags.toUInt16 &&& 1 = 0 := by
    apply UInt16.toNat_inj.mp
    rw [UInt16.toNat_and, hword]
    simpa [Nat.and_one_is_mod] using heven
  have hflags : (0 : UInt32) ||| (flags.toUInt16.toUInt32 <<< (UInt32.ofNat (0 * 16))) = flags := by
    apply UInt32.toNat_inj.mp
    simp
    omega
  intro s hs hbs
  rw [decodeFlags]
  simp only [hread s hs hbs, ok_bind, hlast, hflags]
  rfl

/-- A property is written exactly if its flag is set. -/
theorem encodeOptional_writes (t : FieldType) : ∀ (b : Bool) (v : Optional t.Val b),
    optionalAll stringFits t b v → Writes (encodeOptional t b v) (optionalBytes t b v)
  | true, v, h => encodeField_writes t v h
  | false, _, _ => Writes.nil

/-- A property is read back exactly if its flag is set. -/
theorem decodeOptional_reads (t : FieldType) : ∀ (b : Bool) (v : Optional t.Val b),
    optionalAll stringFits t b v → optionalAll tableFits t b v →
    Reads (decodeOptional t b) v (optionalBytes t b v)
  | true, v, h, ht => decodeField_reads t v h ht
  | false, (), _, _ => Reads.nil ()

/-- The properties with a flag are written in their order. -/
theorem encodeFlagged_writes (flags : UInt32) : ∀ (ps : List (ℕ × FieldType))
    (vs : Flagged flags ps), flaggedAll stringFits flags ps vs →
    Writes (encodeFlagged flags ps vs) (flaggedBytes flags ps vs)
  | [], _, _ => Writes.nil
  | (_, t) :: ps, (v, vs), h =>
    (encodeOptional_writes t _ v h.1).bind (encodeFlagged_writes flags ps vs h.2)

/-- The properties with a flag are read back in their order. -/
theorem decodeFlagged_reads (flags : UInt32) : ∀ (ps : List (ℕ × FieldType))
    (vs : Flagged flags ps), flaggedAll stringFits flags ps vs →
    flaggedAll tableFits flags ps vs →
    Reads (decodeFlagged flags ps) vs (flaggedBytes flags ps vs)
  | [], (), _, _ => Reads.nil ()
  | (_, t) :: ps, (v, vs), h, ht =>
    (decodeOptional_reads t _ v h.1 ht.1).bind
      ((decodeFlagged_reads flags ps vs h.2 ht.2).map (Prod.mk v))

/-- Properties of a known class are written if there is room for them. -/
theorem encodeProperties_fits {p : Properties} (hknown : p.classId ∈ knownClasses)
    (hnamed : NamedFlags p.flags) (h : p.StringsFit) {encoded : Bytes}
    (hlen : p.bytes.length ≤ encoded.length) :
    encodeProperties p encoded =
      .ok { encoded := write encoded 0 p.bytes, offset := p.bytes.length } := by
  have hwrites := (encodeFlags_writes hnamed).bind
    (encodeFlagged_writes p.flags (propertyLayout p.classId) p.values h)
  have hput := hwrites.fits ⟨encoded, 0⟩ (by simpa [Properties.bytes] using hlen)
  simp only [encodeProperties, hknown, if_true]
  rw [hput]
  simp [Buffer.put, Properties.bytes]

/-- Properties of a known class are read from their bytes, whatever follows. -/
theorem decodeProperties_reads {p : Properties} (hknown : p.classId ∈ knownClasses)
    (hnamed : NamedFlags p.flags) (h : p.StringsFit) (ht : p.TablesFit) (rest : Bytes) :
    decodeProperties p.classId (p.bytes ++ rest) = .ok p := by
  have hbytes : be 2 p.flags.toNat ++ flaggedBytes p.flags (propertyLayout p.classId) p.values
      <+: (p.bytes ++ rest).drop 0 := by
    rw [List.drop_zero]
    exact List.prefix_append p.bytes rest
  obtain ⟨hhead, hmid, htail⟩ := prefix_append (s := ⟨p.bytes ++ rest, 0⟩) (Nat.zero_le _) hbytes
  have hflags := decodeFlags_reads hnamed _ (Nat.zero_le _) hhead
  have hvalues := orFail_reads (decodeFlagged_reads p.flags (propertyLayout p.classId) p.values
    h ht) _ hmid htail
  simp only [decodeProperties, hflags, ok_bind, hknown, if_true, hvalues]
  rfl

/-- A property that was encoded has a length that fits. -/
theorem optionalStringFits_of_ok {t : FieldType} {s s' : Buffer} : ∀ {b : Bool}
    {v : Optional t.Val b}, encodeOptional t b v s = .ok s' → optionalAll stringFits t b v
  | true, _, h => stringFits_of_ok h
  | false, _, _ => trivial

/-- Properties that were encoded have lengths that fit. -/
theorem flaggedStringsFit_of_ok (flags : UInt32) : ∀ {ps : List (ℕ × FieldType)}
    {vs : Flagged flags ps} {s s' : Buffer}, encodeFlagged flags ps vs s = .ok s' →
    flaggedAll stringFits flags ps vs
  | [], _, _, _, _ => trivial
  | (_, _) :: _, (_, _), _, _, h => by
    obtain ⟨u, hu, h⟩ := bind_eq_ok_iff.mp h
    exact ⟨optionalStringFits_of_ok hu, flaggedStringsFit_of_ok flags h⟩

/-- The encoder returns only for a known class, and for what it has written to the front of
the buffer. -/
theorem encodeProperties_ok {p : Properties} {encoded : Bytes} {s : Buffer}
    (h : encodeProperties p encoded = .ok s) (hnamed : NamedFlags p.flags) :
    p.classId ∈ knownClasses ∧ p.StringsFit ∧ p.bytes.length ≤ encoded.length ∧
      s = { encoded := write encoded 0 p.bytes, offset := p.bytes.length } := by
  obtain ⟨u, hu, hmore⟩ := bind_eq_ok_iff.mp h
  split at hmore
  next hknown =>
    have hfits : p.StringsFit := flaggedStringsFit_of_ok p.flags hmore
    have hwrites := (encodeFlags_writes hnamed).bind
      (encodeFlagged_writes p.flags (propertyLayout p.classId) p.values hfits)
    have hle : p.bytes.length ≤ encoded.length := by
      have hok : (encodeFlags 2 p.flags ⟨encoded, 0⟩ >>=
          encodeFlagged p.flags (propertyLayout p.classId) p.values) = .ok s :=
        bind_eq_ok_iff.mpr ⟨u, hu, hmore⟩
      rcases hwrites.only _ s hok with hle | ⟨hnil, -⟩
      · simpa [Properties.bytes] using hle
      · have hlen := congrArg List.length hnil
        rw [List.length_append, length_be] at hlen
        simp at hlen
    refine ⟨hknown, hfits, hle, ?_⟩
    exact Except.ok.inj (h.symm.trans (encodeProperties_fits hknown hnamed hfits hle))
  next => exact absurd hmore (by simp)

/-- Properties with named flags and tables that fit are either refused, or written to the
front of the buffer and decoded to the same properties, whatever follows them. -/
theorem properties_roundtrip (p : Properties) (hnamed : NamedFlags p.flags)
    (ht : p.TablesFit) (encoded : Bytes) (s : Buffer) (h : encodeProperties p encoded = .ok s) :
    s.offset ≤ encoded.length ∧ s.encoded.length = encoded.length ∧
      s.encoded.drop s.offset = encoded.drop s.offset ∧
      ∀ rest, decodeProperties p.classId (s.encoded.take s.offset ++ rest) = .ok p := by
  obtain ⟨hknown, hfits, hle, rfl⟩ := encodeProperties_ok h hnamed
  have hzero : 0 + p.bytes.length ≤ encoded.length := by omega
  refine ⟨hle, length_write hzero, ?_, fun rest => ?_⟩
  · simpa using drop_write p.bytes (Nat.zero_le encoded.length)
  · have htake : (write encoded 0 p.bytes).take p.bytes.length = p.bytes := by
      simpa using take_write_end p.bytes (Nat.zero_le encoded.length)
    rw [htake]
    exact decodeProperties_reads hknown hnamed hfits ht rest

/-- The content type, the delivery mode and the expiration of a message. -/
theorem properties_roundtrip_publisher :
    ∃ (values : Flagged 0x9100 basicLayout) (s : Buffer),
      encodeProperties ⟨basicClass, 0x9100, values⟩ (List.replicate 32 0) = .ok s ∧
      s.offset = 16 ∧
      decodeProperties basicClass (s.encoded.take s.offset) =
        .ok ⟨basicClass, 0x9100, values⟩ := by
  -- content_type "text/plain", delivery_mode 2, expiration "1"
  have h := (properties_roundtrip ⟨basicClass, 0x9100,
    (([116, 101, 120, 116, 47, 112, 108, 97, 105, 110] : Bytes), (), (), (2 : UInt8), (), (),
      (), ([49] : Bytes), (), (), (), (), (), (), ())⟩ ⟨by decide, by decide⟩
    ⟨trivial, trivial, trivial, trivial, trivial, trivial, trivial, trivial, trivial, trivial,
      trivial, trivial, trivial, trivial, trivial⟩ (List.replicate 32 0) _ rfl).2.2.2 []
  rw [List.append_nil] at h
  exact ⟨_, _, rfl, rfl, h⟩

end Amqp
