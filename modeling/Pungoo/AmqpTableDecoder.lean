/-
# What the table decoder accepts

The decoder does not compare the size of an array or a table with the entries it finds: a
last entry may pass the limit.  So the accepted bytes need not be what the encoder writes.
They are always as many, and the table read from them can be written in their place.
-/
import Pungoo.AmqpTableCodec

namespace Amqp

open Wire Codec Failing

/-! ## The decoder accepts nothing else -/

/-- `amqp_decode_bytes` accepts only as many bytes as it was asked for. -/
theorem decodeBytes_accepts (len : ℕ) :
    Accepts (decodeBytes len) List.length fun _ bs => bs.length = len := by
  intro s bs s' h hs
  rw [decodeBytes] at h
  split at h
  next hle =>
    obtain ⟨rfl, rfl⟩ := Prod.mk.inj (Except.ok.inj h)
    have hlen : (slice s.encoded s.offset len).length = len := by
      rw [slice, List.length_take, List.length_drop]
      omega
    exact ⟨hlen, by rw [hlen]; rfl, by rw [hlen]; exact hle⟩
  next => exact absurd h (by simp)

/-- A word of `k` bytes. -/
theorem decodeWord_accepts {α : Type} (k : ℕ) (word : ℕ → α) :
    Accepts (fun s => decodeBytes k s >>= fun p => .ok (word (ofBe p.1), p.2))
      (fun _ => k) fun _ _ => True :=
  (decodeBytes_accepts k).map (fun bs => word (ofBe bs)) fun _ _ h _ => ⟨trivial, h.symm⟩

theorem decode8_accepts : Accepts decode8 (fun _ => 1) fun _ _ => True :=
  decodeWord_accepts 1 UInt8.ofNat

theorem decode16_accepts : Accepts decode16 (fun _ => 2) fun _ _ => True :=
  decodeWord_accepts 2 UInt16.ofNat

theorem decode32_accepts : Accepts decode32 (fun _ => 4) fun _ _ => True :=
  decodeWord_accepts 4 UInt32.ofNat

theorem decode64_accepts : Accepts decode64 (fun _ => 8) fun _ _ => True :=
  decodeWord_accepts 8 UInt64.ofNat

/-- A short string is shorter than 2^8, since its length was a byte. -/
theorem decodeShort_accepts :
    Accepts decodeShort (fun bs => 1 + bs.length) fun _ bs => bs.length < 2 ^ 8 := by
  refine decode8_accepts.bind (fun len => decodeBytes_accepts len.toNat) ?_
  rintro n len bs - hlen -
  exact ⟨hlen ▸ len.toNat_lt, rfl⟩

/-- A long string is shorter than 2^32, since its length was four bytes. -/
theorem decodeLong_accepts :
    Accepts decodeLong (fun bs => 4 + bs.length) fun _ bs => bs.length < 2 ^ 32 := by
  refine decode32_accepts.bind (fun len => decodeBytes_accepts len.toNat) ?_
  rintro n len bs - hlen -
  exact ⟨hlen ▸ len.toNat_lt, rfl⟩

/-- A nested array or table has its size in front, whatever that size says. -/
theorem decodeSized_accepts {α : Type} {size : α → ℕ} {P : ℕ → α → Prop}
    {entries : ℕ → Buffer → Except DecodeFailure (α × Buffer)}
    (h : ∀ limit, Accepts (entries limit) size P) :
    Accepts (decodeSized entries) (fun a => 4 + size a) P := by
  intro s a s' hok hs
  refine decode32_accepts.bind (m := fun _ => size) (Q := fun _ => P)
    (t := fun a => 4 + size a) (R := P) ?_ ?_ s a s' hok hs
  · intro len t b t' hb ht
    exact h _ t b t' hb ht
  · rintro n len b - hP -
    exact ⟨hP, rfl⟩

/-- What a case of the `switch` returns: a value of its kind, and of the size it read. -/
def PayloadOf (k : Kind) (n : ℕ) (v : FieldValue) : Prop :=
  v.kind = k ∧ (n < 2 ^ 32 → v.Fits)

/-- A case of the `switch` accepts what its decoder accepts, with the kind byte in front. -/
theorem simpleFieldDecoder_accepts {α : Type} {size : α → ℕ} {P : ℕ → α → Prop} {k : Kind}
    {decode : Buffer → Except DecodeFailure (α × Buffer)} {how : α → FieldValue}
    (hf : Accepts decode size P)
    (h : ∀ n a, P n a → size a ≤ n →
      PayloadOf k n (how a) ∧ (valueBytes (how a)).length = 1 + size a) :
    Accepts (simpleFieldDecoder decode how) (fun v => (valueBytes v).length - 1)
      (PayloadOf k) := by
  refine hf.map how fun n a hP hle => ?_
  obtain ⟨hpay, hsize⟩ := h n a hP hle
  exact ⟨hpay, by rw [hsize]; omega⟩

/-- A case that reads a word. -/
theorem wordField_accepts {α : Type} {width : ℕ} {k : Kind}
    {decode : Buffer → Except DecodeFailure (α × Buffer)} {how : α → FieldValue}
    (hf : Accepts decode (fun _ => width) fun _ _ => True)
    (h : ∀ a, (how a).kind = k ∧ (how a).Fits ∧ (valueBytes (how a)).length = 1 + width) :
    Accepts (simpleFieldDecoder decode how) (fun v => (valueBytes v).length - 1)
      (PayloadOf k) :=
  simpleFieldDecoder_accepts hf fun _ a _ _ => ⟨⟨(h a).1, fun _ => (h a).2.1⟩, (h a).2.2⟩

/-- The `switch` over the kinds, given the loops for arrays and tables. -/
theorem decodePayload_accepts
    {array : ℕ → Buffer → Except DecodeFailure (List FieldValue × Buffer)}
    {table : ℕ → Buffer → Except DecodeFailure (List TableEntry × Buffer)}
    (harray : ∀ limit, Accepts (array limit) (fun es => (arrayBytes es).length)
      fun n es => n < 2 ^ 32 → arrayFits es)
    (htable : ∀ limit, Accepts (table limit) (fun es => (entriesBytes es).length)
      fun n es => n < 2 ^ 32 → entriesFit es) (k : Kind) :
    Accepts (decodePayload array table k) (fun v => (valueBytes v).length - 1)
      (PayloadOf k) := by
  cases k with
  | boolean | i8 | u8 =>
    simp only [decodePayload]
    refine wordField_accepts decode8_accepts ?_
    exact fun a => ⟨rfl, trivial, by simp [valueBytes]⟩
  | i16 | u16 =>
    simp only [decodePayload]
    refine wordField_accepts decode16_accepts ?_
    exact fun a => ⟨rfl, trivial, by simp [valueBytes]⟩
  | i32 | u32 | f32 =>
    simp only [decodePayload]
    refine wordField_accepts decode32_accepts ?_
    exact fun a => ⟨rfl, trivial, by simp [valueBytes]⟩
  | i64 | u64 | f64 | timestamp =>
    simp only [decodePayload]
    refine wordField_accepts decode64_accepts ?_
    exact fun a => ⟨rfl, trivial, by simp [valueBytes]⟩
  | decimal =>
    refine decode8_accepts.bind (m := fun _ _ => 4)
      (Q := fun decimals _ v => ∃ value, v = FieldValue.decimal decimals value) ?_ ?_
    · intro decimals
      exact decode32_accepts.map (FieldValue.decimal decimals)
        fun n value _ _ => ⟨⟨value, rfl⟩, rfl⟩
    · rintro n decimals v - ⟨value, rfl⟩ -
      exact ⟨⟨rfl, fun _ => trivial⟩, by simp [valueBytes]⟩
  | utf8 | bytes =>
    simp only [decodePayload]
    refine simpleFieldDecoder_accepts decodeLong_accepts ?_
    exact fun n a h _ => ⟨⟨rfl, fun _ => h⟩, by simp [valueBytes]⟩
  | array =>
    simp only [decodePayload]
    refine simpleFieldDecoder_accepts (decodeSized_accepts harray) ?_
    exact fun n es h hle => ⟨⟨rfl, fun hn => ⟨by omega, h hn⟩⟩, by simp [valueBytes]⟩
  | table =>
    simp only [decodePayload]
    refine simpleFieldDecoder_accepts (decodeSized_accepts htable) ?_
    exact fun n es h hle => ⟨⟨rfl, fun hn => ⟨by omega, h hn⟩⟩, by simp [valueBytes]⟩
  | void =>
    intro s v s' h hs
    obtain ⟨rfl, rfl⟩ := Prod.mk.inj (Except.ok.inj h)
    exact ⟨⟨rfl, fun _ => trivial⟩, by simp [valueBytes, Buffer.skip], by simpa [valueBytes]⟩

/-- What the decoders accept, by the bound on their calls. -/
theorem decode_accepts (fuel : ℕ) :
    Accepts (decodeFieldValue fuel) (fun v => (valueBytes v).length)
      (fun n v => n < 2 ^ 32 → v.Fits) ∧
    (∀ limit, Accepts (decodeArrayEntries fuel limit) (fun es => (arrayBytes es).length)
      fun n es => n < 2 ^ 32 → arrayFits es) ∧
    ∀ limit, Accepts (decodeTableEntries fuel limit) (fun es => (entriesBytes es).length)
      fun n es => n < 2 ^ 32 → entriesFit es := by
  induction fuel with
  | zero =>
    refine ⟨fun s v s' h => ?_, fun limit s es s' h => ?_, fun limit s es s' h => ?_⟩ <;>
      exact absurd h (by simp [decodeFieldValue, decodeArrayEntries, decodeTableEntries])
  | succ fuel ih =>
    obtain ⟨hvalue, harray, htable⟩ := ih
    refine ⟨?_, fun limit => ?_, fun limit => ?_⟩
    · intro s v s' h hs
      rw [decodeFieldValue] at h
      refine decode8_accepts.bind (m := fun _ v => (valueBytes v).length - 1)
        (Q := fun _ n v => n < 2 ^ 32 → v.Fits) (t := fun v => (valueBytes v).length)
        (R := fun n v => n < 2 ^ 32 → v.Fits) ?_ ?_ s v s' h hs
      · intro byte t v t' h ht
        simp only at h
        split at h
        next => exact absurd h (by simp)
        next kind _ =>
          obtain ⟨hpay, hmore⟩ := decodePayload_accepts harray htable kind t v t' h ht
          exact ⟨hpay.2, hmore⟩
      · rintro n byte v - hQ -
        have hpos := length_valueBytes_pos v
        exact ⟨hQ, by omega⟩
    · intro s es s' h hs
      rw [decodeArrayEntries] at h
      split at h
      next =>
        refine hvalue.bind (m := fun v es => (arrayBytes es).length - (valueBytes v).length)
          (Q := fun v n es => ∃ vs, es = v :: vs ∧ (n < 2 ^ 32 → arrayFits vs))
          (t := fun es => (arrayBytes es).length)
          (R := fun n es => n < 2 ^ 32 → arrayFits es) ?_ ?_ s es s' h hs
        · intro v
          exact (harray limit).map (v :: ·) fun n vs hvs _ =>
            ⟨⟨vs, rfl, hvs⟩, by simp [arrayBytes]⟩
        · rintro n v es hv ⟨vs, rfl, hvs⟩ -
          exact ⟨fun hn => ⟨hv hn, hvs hn⟩, by simp [arrayBytes]⟩
      next =>
        obtain ⟨rfl, rfl⟩ := Prod.mk.inj (Except.ok.inj h)
        exact ⟨fun _ => trivial, rfl, hs⟩
    · intro s es s' h hs
      rw [decodeTableEntries] at h
      split at h
      next =>
        refine decodeShort_accepts.bind
          (m := fun key es => (entriesBytes es).length - (1 + key.length))
          (Q := fun key n es => ∃ v vs, es = .mk key v :: vs ∧
            (n < 2 ^ 32 → v.Fits ∧ entriesFit vs))
          (t := fun es => (entriesBytes es).length)
          (R := fun n es => n < 2 ^ 32 → entriesFit es) ?_ ?_ s es s' h hs
        · intro key
          refine hvalue.bind (m := fun v es =>
              (entriesBytes es).length - (1 + key.length) - (valueBytes v).length)
            (Q := fun v n es => ∃ vs, es = .mk key v :: vs ∧ (n < 2 ^ 32 → entriesFit vs))
            ?_ ?_
          · intro v
            exact (htable limit).map (TableEntry.mk key v :: ·) fun n vs hvs _ =>
              ⟨⟨vs, rfl, hvs⟩, by simp [entriesBytes]⟩
          · rintro n v es hv ⟨vs, rfl, hvs⟩ -
            refine ⟨⟨v, vs, rfl, fun hn => ⟨hv hn, hvs hn⟩⟩, ?_⟩
            simp only [entriesBytes, List.length_append, length_shortBytes]
            omega
        · rintro n key es hkey ⟨v, vs, rfl, hvs⟩ -
          refine ⟨fun hn => ⟨hkey, hvs hn⟩, ?_⟩
          simp only [entriesBytes, List.length_append, length_shortBytes]
          omega
      next =>
        obtain ⟨rfl, rfl⟩ := Prod.mk.inj (Except.ok.inj h)
        exact ⟨fun _ => trivial, rfl, hs⟩

/-! ## The decoder finishes -/

/-- `f` does not run out of calls. -/
def Finishes {α : Type} (f : Buffer → Except DecodeFailure (α × Buffer)) : Prop :=
  ∀ s, f s ≠ .error .unfinished

/-- One after the other. -/
theorem Finishes.bind {α β : Type} {f : Buffer → Except DecodeFailure (α × Buffer)}
    {g : α × Buffer → Except DecodeFailure (β × Buffer)} (hf : Finishes f)
    (hg : ∀ a, Finishes fun s => g (a, s)) : Finishes fun s => f s >>= g := by
  intro s h
  rcases bind_eq_error_iff.mp h with h | ⟨⟨a, t⟩, -, h⟩
  · exact hf s h
  · exact hg a t h

/-- The result may be converted. -/
theorem Finishes.map {α β : Type} {f : Buffer → Except DecodeFailure (α × Buffer)}
    (hf : Finishes f) (how : α → β) :
    Finishes fun s => f s >>= fun p => .ok (how p.1, p.2) :=
  hf.bind fun _ _ h => by simp at h

/-- `amqp_decode_bytes` calls nothing. -/
theorem decodeBytes_finishes (len : ℕ) : Finishes (decodeBytes len) := by
  intro s h
  rw [decodeBytes] at h
  split at h <;> simp at h

theorem decode8_finishes : Finishes decode8 :=
  (decodeBytes_finishes 1).map fun bs => UInt8.ofNat (ofBe bs)

theorem decode16_finishes : Finishes decode16 :=
  (decodeBytes_finishes 2).map fun bs => UInt16.ofNat (ofBe bs)

theorem decode32_finishes : Finishes decode32 :=
  (decodeBytes_finishes 4).map fun bs => UInt32.ofNat (ofBe bs)

theorem decode64_finishes : Finishes decode64 :=
  (decodeBytes_finishes 8).map fun bs => UInt64.ofNat (ofBe bs)

theorem decodeShort_finishes : Finishes decodeShort :=
  decode8_finishes.bind fun _ => decodeBytes_finishes _

theorem decodeLong_finishes : Finishes decodeLong :=
  decode32_finishes.bind fun _ => decodeBytes_finishes _

/-- A case of the `switch` finishes if its decoder does. -/
theorem simpleFieldDecoder_finishes {α : Type}
    {decode : Buffer → Except DecodeFailure (α × Buffer)} (h : Finishes decode)
    (how : α → FieldValue) : Finishes (simpleFieldDecoder decode how) := h.map how

/-- A nested array or table finishes if its loop does behind the size. -/
theorem decodeSized_ne_unfinished {α : Type} {s : Buffer}
    {entries : ℕ → Buffer → Except DecodeFailure (α × Buffer)}
    (hs : s.offset ≤ s.encoded.length)
    (h : ∀ limit, s.offset + 4 ≤ s.encoded.length →
      entries limit (s.skip 4) ≠ .error .unfinished) :
    decodeSized entries s ≠ .error .unfinished := by
  intro hok
  rcases bind_eq_error_iff.mp hok with hok | ⟨⟨size, t⟩, ht, hok⟩
  · exact decode32_finishes s hok
  · obtain ⟨-, rfl, hle⟩ := decode32_accepts s size t ht hs
    exact h _ hle hok

/-- A case of the `switch` finishes if the loops do behind their size. -/
theorem decodePayload_ne_unfinished {s : Buffer} (hs : s.offset ≤ s.encoded.length)
    {array : ℕ → Buffer → Except DecodeFailure (List FieldValue × Buffer)}
    {table : ℕ → Buffer → Except DecodeFailure (List TableEntry × Buffer)}
    (harray : ∀ limit, s.offset + 4 ≤ s.encoded.length →
      array limit (s.skip 4) ≠ .error .unfinished)
    (htable : ∀ limit, s.offset + 4 ≤ s.encoded.length →
      table limit (s.skip 4) ≠ .error .unfinished) (k : Kind) :
    decodePayload array table k s ≠ .error .unfinished := by
  cases k with
  | boolean | i8 | u8 =>
    simp only [decodePayload]
    exact simpleFieldDecoder_finishes decode8_finishes _ s
  | i16 | u16 =>
    simp only [decodePayload]
    exact simpleFieldDecoder_finishes decode16_finishes _ s
  | i32 | u32 | f32 =>
    simp only [decodePayload]
    exact simpleFieldDecoder_finishes decode32_finishes _ s
  | i64 | u64 | f64 | timestamp =>
    simp only [decodePayload]
    exact simpleFieldDecoder_finishes decode64_finishes _ s
  | decimal =>
    exact decode8_finishes.bind
      (fun _ => simpleFieldDecoder_finishes decode32_finishes _) s
  | utf8 | bytes =>
    simp only [decodePayload]
    exact simpleFieldDecoder_finishes decodeLong_finishes _ s
  | array =>
    intro h
    rcases bind_eq_error_iff.mp h with h | ⟨_, -, h⟩
    · exact decodeSized_ne_unfinished hs harray h
    · exact absurd h (by simp [pure, Except.pure])
  | table =>
    intro h
    rcases bind_eq_error_iff.mp h with h | ⟨_, -, h⟩
    · exact decodeSized_ne_unfinished hs htable h
    · exact absurd h (by simp [pure, Except.pure])
  | void => exact fun h => absurd h (by simp [decodePayload, pure, Except.pure])

/-- The calls are bounded by the bytes that are left: a value reads one, and the loops call
once more than they read. -/
theorem decode_finishes (fuel : ℕ) (s : Buffer) (hs : s.offset ≤ s.encoded.length) :
    (s.encoded.length - s.offset + 1 ≤ fuel →
      decodeFieldValue fuel s ≠ .error .unfinished) ∧
    (s.encoded.length - s.offset + 2 ≤ fuel → ∀ limit,
      decodeArrayEntries fuel limit s ≠ .error .unfinished ∧
      decodeTableEntries fuel limit s ≠ .error .unfinished) := by
  induction fuel generalizing s with
  | zero => exact ⟨fun h => absurd h (by omega), fun h => absurd h (by omega)⟩
  | succ fuel ih =>
    refine ⟨fun hfuel => ?_, fun hfuel limit => ⟨?_, ?_⟩⟩
    · intro h
      rw [decodeFieldValue] at h
      rcases bind_eq_error_iff.mp h with h | ⟨⟨byte, t⟩, ht, h⟩
      · exact decode8_finishes s h
      obtain ⟨-, rfl, hle⟩ := decode8_accepts s byte t ht hs
      simp only at h
      split at h
      next => exact absurd h (by simp)
      next kind _ =>
        have hloops : ∀ limit, s.offset + 1 + 4 ≤ s.encoded.length →
            decodeArrayEntries fuel limit ((s.skip 1).skip 4) ≠ .error .unfinished ∧
            decodeTableEntries fuel limit ((s.skip 1).skip 4) ≠ .error .unfinished := by
          intro limit hle'
          refine (ih ((s.skip 1).skip 4) ?_).2 ?_ limit
          · simpa using hle'
          · simp only [Buffer.offset_skip, Buffer.encoded_skip]; omega
        refine decodePayload_ne_unfinished (s := s.skip 1) ?_ (fun limit h' => ?_)
          (fun limit h' => ?_) kind h
        · simpa using hle
        · exact (hloops limit (by simpa using h')).1
        · exact (hloops limit (by simpa using h')).2
    · intro h
      rw [decodeArrayEntries] at h
      split at h
      next =>
        rcases bind_eq_error_iff.mp h with h | ⟨⟨v, t⟩, ht, h⟩
        · exact (ih s hs).1 (by omega) h
        obtain ⟨-, rfl, hle⟩ := (decode_accepts fuel).1 s v t ht hs
        beta_reduce at hle
        have hpos := length_valueBytes_pos v
        rcases bind_eq_error_iff.mp h with h | ⟨_, -, h⟩
        · refine ((ih (s.skip (valueBytes v).length) ?_).2 ?_ limit).1 h
          · simpa using hle
          · simp only [Buffer.offset_skip, Buffer.encoded_skip]; omega
        · exact absurd h (by simp [pure, Except.pure])
      next => exact absurd h (by simp [pure, Except.pure])
    · intro h
      rw [decodeTableEntries] at h
      split at h
      next =>
        rcases bind_eq_error_iff.mp h with h | ⟨⟨key, t⟩, ht, h⟩
        · exact decodeShort_finishes s h
        obtain ⟨-, rfl, hle⟩ := decodeShort_accepts s key t ht hs
        rcases bind_eq_error_iff.mp h with h | ⟨⟨v, u⟩, hu, h⟩
        · refine (ih (s.skip (1 + key.length)) ?_).1 ?_ h
          · simpa using hle
          · simp only [Buffer.offset_skip, Buffer.encoded_skip]; omega
        obtain ⟨-, rfl, hle'⟩ := (decode_accepts fuel).1 _ v u hu (by simpa using hle)
        beta_reduce at hle hle'
        rcases bind_eq_error_iff.mp h with h | ⟨_, -, h⟩
        · refine ((ih ((s.skip (1 + key.length)).skip (valueBytes v).length) ?_).2 ?_ limit).2 h
          · simpa using hle'
          · simp only [Buffer.offset_skip, Buffer.encoded_skip]; omega
        · exact absurd h (by simp [pure, Except.pure])
      next => exact absurd h (by simp [pure, Except.pure])

/-! ## Tables -/

/-- The bytes behind the offset are calls enough for any table that they hold. -/
theorem fuelOf_le {s : Buffer} {t : Table} (hs : s.offset ≤ s.encoded.length)
    (h : tableBytes t <+: s.encoded.drop s.offset) :
    (entriesBytes t).length + 1 ≤ fuelOf s := by
  have hend := offset_add_le hs h
  rw [tableBytes, length_sized] at hend
  rw [fuelOf]
  omega

/-- A table is read from its bytes. -/
theorem decodeTable_reads {t : Table} (ht : Fits t) {s : Buffer}
    (hs : s.offset ≤ s.encoded.length) (h : tableBytes t <+: s.encoded.drop s.offset) :
    decodeTable s = .ok (t, s.skip (tableBytes t).length) := by
  have hloop := decodeTableEntries_reads t (fuelOf s) ht.2 (fuelOf_le hs h)
  have hread := decodeSized_reads ht.1 hloop s hs h
  rw [decodeTable, hread]
  rfl

/-- What is accepted as a table has its size and, in a buffer of C, lengths that fit. -/
theorem decodeTable_accepts {s s' : Buffer} {t : Table} (h : decodeTable s = .ok (t, s'))
    (hs : s.offset ≤ s.encoded.length) :
    (s.encoded.length < 2 ^ 32 → Fits t) ∧ s' = s.skip (tableBytes t).length ∧
      s.offset + (tableBytes t).length ≤ s.encoded.length := by
  unfold decodeTable asStatus at h
  split at h
  next r hr =>
    obtain rfl := Except.ok.inj h
    obtain ⟨hfits, hskip, hle⟩ :=
      decodeSized_accepts (decode_accepts (fuelOf s)).2.2 s t s' hr hs
    beta_reduce at hle
    rw [tableBytes, length_sized]
    exact ⟨fun hn => ⟨by omega, hfits hn⟩, hskip, hle⟩
  next => exact absurd h (by simp)

/-- `decodeTable` gives up for the data only. -/
theorem decodeTable_finishes {s : Buffer} (hs : s.offset ≤ s.encoded.length) :
    decodeSized (decodeTableEntries (fuelOf s)) s ≠ .error .unfinished := by
  refine decodeSized_ne_unfinished hs fun limit hle => ?_
  refine ((decode_finishes (fuelOf s) (s.skip 4) ?_).2 ?_ limit).2
  · simpa using hle
  · simp only [fuelOf, Buffer.offset_skip, Buffer.encoded_skip]
    omega

/-- Wherever a table fits behind the offset it is written there, nothing around it changes,
and decoding from the same offset returns it; where it does not fit, encoding fails. -/
theorem table_roundtrip (t : Table) (ht : Fits t) (s : Buffer) :
    (s.offset + (tableBytes t).length ≤ s.encoded.length →
      ∃ s', encodeTable t s = .ok s' ∧ s'.offset = s.offset + (tableBytes t).length ∧
        s'.encoded.length = s.encoded.length ∧
        s'.encoded.take s.offset = s.encoded.take s.offset ∧
        s'.encoded.drop s'.offset = s.encoded.drop s'.offset ∧
        decodeTable { s' with offset := s.offset } = .ok (t, s')) ∧
    (s.encoded.length < s.offset + (tableBytes t).length →
      ∃ e, encodeTable t s = .error e) := by
  have hwrites := encodeTable_writes t
  constructor
  · intro hle
    have hs : s.offset ≤ s.encoded.length := by omega
    have hlen := length_write hle
    refine ⟨s.put (tableBytes t), hwrites.fits s hle, rfl, hlen, take_write hs, ?_, ?_⟩
    · exact drop_write _ hs
    · exact decodeTable_reads ht (s := { s.put (tableBytes t) with offset := s.offset })
        (by simpa [hlen] using hs) (prefix_put hs)
  · intro hlt
    cases h : encodeTable t s with
    | ok s' =>
      have hle := ((hwrites.ok_iff (sized_ne_nil _)).mp h).1
      omega
    | error e => exact ⟨e, rfl⟩

/-- A table in an array in a table. -/
theorem table_roundtrip_nested :
    (Buffer.mk (List.replicate 40 0) 3).offset +
        (tableBytes [.mk [107] (.array [.i8 (-1), .table [.mk [] .void]])]).length ≤ 40 ∧
      ∃ s', encodeTable [.mk [107] (.array [.i8 (-1), .table [.mk [] .void]])]
          ⟨List.replicate 40 0, 3⟩ = .ok s' ∧
        decodeTable { s' with offset := 3 } =
          .ok ([.mk [107] (.array [.i8 (-1), .table [.mk [] .void]])], s') := by
  have hfits : Fits [.mk [107] (.array [.i8 (-1), .table [.mk [] .void]])] := by
    simp [Fits, entriesFit, FieldValue.Fits, arrayFits, entriesBytes, arrayBytes, valueBytes]
  have hle : (Buffer.mk (List.replicate 40 0) 3).offset +
      (tableBytes [.mk [107] (.array [.i8 (-1), .table [.mk [] .void]])]).length ≤ 40 := by
    simp [tableBytes, entriesBytes, arrayBytes, valueBytes]
  obtain ⟨s', h, -, -, -, -, hread⟩ := (table_roundtrip _ hfits _).1 hle
  exact ⟨hle, s', h, hread⟩

/-- Whatever bytes stand in a buffer, the decoder finishes.  A table it returns was read
inside the buffer, its lengths fit, and encoding it over the bytes it was read from takes
exactly their number and can be decoded to the same table. -/
theorem decodeTable_accepted (s : Buffer) (hlen : s.encoded.length < 2 ^ 32)
    (hs : s.offset ≤ s.encoded.length) :
    decodeSized (decodeTableEntries (fuelOf s)) s ≠ .error .unfinished ∧
    ∀ t s', decodeTable s = .ok (t, s') →
      s'.encoded = s.encoded ∧ s.offset < s'.offset ∧ s'.offset ≤ s.encoded.length ∧ Fits t ∧
      ∃ r, encodeTable t s = .ok r ∧ r.offset = s'.offset ∧
        decodeTable { r with offset := s.offset } = .ok (t, r) := by
  refine ⟨decodeTable_finishes hs, fun t s' h => ?_⟩
  obtain ⟨hfits, rfl, hle⟩ := decodeTable_accepts h hs
  have hpos := List.length_pos_iff.mpr (sized_ne_nil (entriesBytes t))
  have hoff : s.offset < (s.skip (tableBytes t).length).offset := Nat.lt_add_of_pos_right hpos
  refine ⟨rfl, hoff, hle, hfits hlen, ?_⟩
  have hwritten := length_write hle
  refine ⟨s.put (tableBytes t), (encodeTable_writes t).fits s hle, rfl, ?_⟩
  exact decodeTable_reads (hfits hlen) (s := { s.put (tableBytes t) with offset := s.offset })
    (by simpa [hwritten] using hs) (prefix_put hs)

/-- The last entry goes on behind the size of the table, and is accepted. -/
theorem decodeTable_accepted_overrun :
    (⟨[0, 0, 0, 3, 1, 107, 66, 7], 0⟩ : Buffer).encoded.length < 2 ^ 32 ∧
      decodeTable ⟨[0, 0, 0, 3, 1, 107, 66, 7], 0⟩ =
        .ok ([.mk [107] (.u8 7)], ⟨[0, 0, 0, 3, 1, 107, 66, 7], 8⟩) ∧
      ∃ r, encodeTable [.mk [107] (.u8 7)] ⟨[0, 0, 0, 3, 1, 107, 66, 7], 0⟩ = .ok r ∧
        r.offset = 8 := by
  have h : decodeTable ⟨[0, 0, 0, 3, 1, 107, 66, 7], 0⟩ =
      .ok ([.mk [107] (.u8 7)], ⟨[0, 0, 0, 3, 1, 107, 66, 7], 8⟩) := rfl
  obtain ⟨-, -, -, -, r, hr, hoff, -⟩ :=
    (decodeTable_accepted ⟨[0, 0, 0, 3, 1, 107, 66, 7], 0⟩ (by decide) (by decide)).2 _ _ h
  exact ⟨by decide, h, r, hr, hoff⟩

end Amqp
