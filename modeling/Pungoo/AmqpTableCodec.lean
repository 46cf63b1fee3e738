/-
# What a field table is on the wire

`valueBytes`, `arrayBytes` and `entriesBytes` are the wire format: a kind byte and a payload,
with a size of four bytes in front of a nested array or table.  The encoder writes it, and
the decoder reads it back where every length fits the field it is written to.
-/
import Pungoo.AmqpTable

namespace Amqp

open Wire Codec Failing

/-! ## The format -/

/-- A body with its size in front. -/
def sized (body : Bytes) : Bytes := be 4 body.length ++ body

/-- A short string with its length in front. -/
def shortBytes (value : Bytes) : Bytes := be 1 value.length ++ value

mutual

/-- A value: its kind and its payload. -/
def valueBytes : FieldValue → Bytes
  | .boolean value => be 1 Kind.boolean.byte.toNat ++ be 1 (if value then 1 else 0)
  | .i8 value => be 1 Kind.i8.byte.toNat ++ be 1 value.toUInt8.toNat
  | .u8 value => be 1 Kind.u8.byte.toNat ++ be 1 value.toNat
  | .i16 value => be 1 Kind.i16.byte.toNat ++ be 2 value.toUInt16.toNat
  | .u16 value => be 1 Kind.u16.byte.toNat ++ be 2 value.toNat
  | .i32 value => be 1 Kind.i32.byte.toNat ++ be 4 value.toUInt32.toNat
  | .u32 value => be 1 Kind.u32.byte.toNat ++ be 4 value.toNat
  | .i64 value => be 1 Kind.i64.byte.toNat ++ be 8 value.toUInt64.toNat
  | .u64 value => be 1 Kind.u64.byte.toNat ++ be 8 value.toNat
  | .f32 value => be 1 Kind.f32.byte.toNat ++ be 4 value.toNat
  | .f64 value => be 1 Kind.f64.byte.toNat ++ be 8 value.toNat
  | .decimal decimals value =>
    be 1 Kind.decimal.byte.toNat ++ (be 1 decimals.toNat ++ be 4 value.toNat)
  | .utf8 value => be 1 Kind.utf8.byte.toNat ++ sized value
  | .array entries => be 1 Kind.array.byte.toNat ++ sized (arrayBytes entries)
  | .timestamp value => be 1 Kind.timestamp.byte.toNat ++ be 8 value.toNat
  | .table entries => be 1 Kind.table.byte.toNat ++ sized (entriesBytes entries)
  | .void => be 1 Kind.void.byte.toNat ++ []
  | .bytes value => be 1 Kind.bytes.byte.toNat ++ sized value

/-- The entries of an array. -/
def arrayBytes : List FieldValue → Bytes
  | [] => []
  | entry :: entries => valueBytes entry ++ arrayBytes entries

/-- The entries of a table: each its key and its value. -/
def entriesBytes : List TableEntry → Bytes
  | [] => []
  | .mk key value :: entries => shortBytes key ++ (valueBytes value ++ entriesBytes entries)

end

/-- A table. -/
def tableBytes (t : Table) : Bytes := sized (entriesBytes t)

/-- The length of a short string is one byte. -/
@[simp] theorem length_shortBytes (value : Bytes) :
    (shortBytes value).length = 1 + value.length := by
  simp [shortBytes]

/-- The size of a table or an array is four bytes. -/
@[simp] theorem length_sized (body : Bytes) : (sized body).length = 4 + body.length := by
  simp [sized]

theorem sized_ne_nil (body : Bytes) : sized body ≠ [] := by
  rw [← List.length_pos_iff, length_sized]
  omega

/-- A value takes its kind byte at least. -/
theorem length_valueBytes_pos (v : FieldValue) : 0 < (valueBytes v).length := by
  cases v <;> simp [valueBytes]

/-! ## The encoder writes the format -/

/-- `amqp_encode_bytes` writes the bytes if there is room for them. -/
theorem encodeBytes_writes (e : Status) (bs : Bytes) : Writes (encodeBytes e bs) bs where
  fits s h := if_pos h
  only s s' h := by
    rcases Nat.lt_or_ge s.encoded.length (s.offset + bs.length) with hlt | hle
    · rw [encodeBytes, if_neg (by omega)] at h
      exact absurd h (by simp)
    · exact .inl hle

theorem encode8_writes (e : Status) (v : UInt8) : Writes (encode8 e v) (be 1 v.toNat) :=
  encodeBytes_writes e _

theorem encode16_writes (e : Status) (v : UInt16) : Writes (encode16 e v) (be 2 v.toNat) :=
  encodeBytes_writes e _

theorem encode32_writes (e : Status) (v : UInt32) : Writes (encode32 e v) (be 4 v.toNat) :=
  encodeBytes_writes e _

theorem encode64_writes (e : Status) (v : UInt64) : Writes (encode64 e v) (be 8 v.toNat) :=
  encodeBytes_writes e _

/-- A length cut to a byte is written as the length. -/
theorem encode8_length_writes (e : Status) (n : ℕ) :
    Writes (encode8 e (UInt8.ofNat n)) (be 1 n) := by
  have h := encode8_writes e (UInt8.ofNat n)
  rwa [show (UInt8.ofNat n).toNat = n % 256 ^ 1 from rfl, be_mod] at h

/-- A length cut to four bytes is written as the length. -/
theorem encode32_length_writes (e : Status) (n : ℕ) :
    Writes (encode32 e (UInt32.ofNat n)) (be 4 n) := by
  have h := encode32_writes e (UInt32.ofNat n)
  rwa [show (UInt32.ofNat n).toNat = n % 256 ^ 4 from rfl, be_mod] at h

/-- The patch: behind the body, the size goes in front of it. -/
theorem encodeSized_writes {f : Buffer → Except Status Buffer} {body : Bytes}
    (hf : Writes f body) : Writes (encodeSized f) (sized body) where
  fits s h := by
    rw [length_sized] at h
    have hsize : s.offset + 4 + body.length - s.offset - 4 = body.length := by omega
    have hbody : s.offset + (be 4 body.length).length + body.length ≤ s.encoded.length := by
      rw [length_be]; omega
    have hentries := hf.fits { s with offset := s.offset + 4 } (by simp only; omega)
    have hlen : (write s.encoded (s.offset + 4) body).length = s.encoded.length :=
      length_write (by omega)
    have hpatch := (encode32_length_writes .tableTooBig body.length).fits
      { encoded := write s.encoded (s.offset + 4) body, offset := s.offset }
      (by simp only [length_be, hlen]; omega)
    have hwrite := write_write_before hbody
    rw [length_be] at hwrite
    simp only [encodeSized, hentries, ok_bind, Buffer.put, hsize]
    simp only [hpatch, ok_bind, Buffer.put, hwrite, sized, List.length_append, length_be,
      ← Nat.add_assoc]
    rfl
  only s s' h := by
    left
    obtain ⟨t, ht, h⟩ := bind_eq_ok_iff.mp h
    obtain ⟨u, hu, -⟩ := bind_eq_ok_iff.mp h
    have hfront := ((encode32_writes .tableTooBig _).ok_iff (be_ne_nil _ (by omega))).mp hu
    rw [length_sized]
    rcases hf.only _ t ht with hs | ⟨rfl, rfl⟩
    · simp only at hs
      omega
    · simp only [length_be] at hfront
      simpa using hfront.1

/-- A long string is written with its length in front. -/
theorem encodeLong_writes (value : Bytes) :
    Writes (fun s => encode32 .tableTooBig (UInt32.ofNat value.length) s >>=
      encodeBytes .tableTooBig value) (sized value) :=
  (encode32_length_writes _ _).bind (encodeBytes_writes _ _)

mutual

/-- A value is written as its bytes, whatever is nested in it. -/
theorem encodeFieldValue_writes : ∀ v, Writes (encodeFieldValue v) (valueBytes v)
  | .boolean true => (encode8_writes _ _).bind (encode8_writes _ 1)
  | .boolean false => (encode8_writes _ _).bind (encode8_writes _ 0)
  | .i8 _ => (encode8_writes _ _).bind (encode8_writes _ _)
  | .u8 _ => (encode8_writes _ _).bind (encode8_writes _ _)
  | .i16 _ => (encode8_writes _ _).bind (encode16_writes _ _)
  | .u16 _ => (encode8_writes _ _).bind (encode16_writes _ _)
  | .i32 _ => (encode8_writes _ _).bind (encode32_writes _ _)
  | .u32 _ => (encode8_writes _ _).bind (encode32_writes _ _)
  | .i64 _ => (encode8_writes _ _).bind (encode64_writes _ _)
  | .u64 _ => (encode8_writes _ _).bind (encode64_writes _ _)
  | .f32 _ => (encode8_writes _ _).bind (encode32_writes _ _)
  | .f64 _ => (encode8_writes _ _).bind (encode64_writes _ _)
  | .decimal _ _ =>
    (encode8_writes _ _).bind ((encode8_writes _ _).bind (encode32_writes _ _))
  | .utf8 value => (encode8_writes _ _).bind (encodeLong_writes value)
  | .array entries =>
    (encode8_writes _ _).bind (encodeSized_writes (encodeArrayEntries_writes entries))
  | .timestamp _ => (encode8_writes _ _).bind (encode64_writes _ _)
  | .table entries =>
    (encode8_writes _ _).bind (encodeSized_writes (encodeTableEntries_writes entries))
  | .void => (encode8_writes _ _).bind Writes.nil
  | .bytes value => (encode8_writes _ _).bind (encodeLong_writes value)

/-- The entries of an array are written one after the other. -/
theorem encodeArrayEntries_writes : ∀ es, Writes (encodeArrayEntries es) (arrayBytes es)
  | [] => Writes.nil
  | v :: vs => (encodeFieldValue_writes v).bind (encodeArrayEntries_writes vs)

/-- The entries of a table are written one after the other. -/
theorem encodeTableEntries_writes : ∀ es, Writes (encodeTableEntries es) (entriesBytes es)
  | [] => Writes.nil
  | .mk key v :: es => by
    have h := (encode8_length_writes .tableTooBig key.length).bind
      ((encodeBytes_writes .tableTooBig key).bind
        ((encodeFieldValue_writes v).bind (encodeTableEntries_writes es)))
    rw [← List.append_assoc] at h
    exact h

end

/-- A table is written with its size in front. -/
theorem encodeTable_writes (t : Table) : Writes (encodeTable t) (tableBytes t) :=
  encodeSized_writes (encodeTableEntries_writes t)

/-! ## The decoder reads the format back -/

/-- `amqp_decode_bytes` reads as many bytes as it is asked for. -/
theorem decodeBytes_reads (bs : Bytes) : Reads (decodeBytes bs.length) bs bs := by
  intro s hs h
  rw [decodeBytes, if_pos (offset_add_le hs h)]
  have hslice : slice s.encoded s.offset bs.length = bs := (List.prefix_iff_eq_take.mp h).symm
  rw [hslice]
  rfl

/-- A word of `k` bytes is read from where it is written. -/
theorem decodeWord_reads {α : Type} (k n : ℕ) (word : ℕ → α) (a : α)
    (ha : word (n % 256 ^ k) = a) :
    Reads (fun s => decodeBytes k s >>= fun p => .ok (word (ofBe p.1), p.2)) a (be k n) := by
  have h := (decodeBytes_reads (be k n)).map fun bs => word (ofBe bs)
  rwa [length_be, ofBe_be, ha] at h

/-- A byte is read back. -/
theorem decode8_reads (v : UInt8) : Reads decode8 v (be 1 v.toNat) :=
  decodeWord_reads 1 v.toNat UInt8.ofNat v (by
    rw [Nat.mod_eq_of_lt (show v.toNat < 256 ^ 1 from v.toNat_lt), UInt8.ofNat_toNat])

/-- A word of two bytes is read back. -/
theorem decode16_reads (v : UInt16) : Reads decode16 v (be 2 v.toNat) :=
  decodeWord_reads 2 v.toNat UInt16.ofNat v (by
    rw [Nat.mod_eq_of_lt (show v.toNat < 256 ^ 2 from v.toNat_lt), UInt16.ofNat_toNat])

/-- A word of four bytes is read back. -/
theorem decode32_reads (v : UInt32) : Reads decode32 v (be 4 v.toNat) :=
  decodeWord_reads 4 v.toNat UInt32.ofNat v (by
    rw [Nat.mod_eq_of_lt (show v.toNat < 256 ^ 4 from v.toNat_lt), UInt32.ofNat_toNat])

/-- A word of eight bytes is read back. -/
theorem decode64_reads (v : UInt64) : Reads decode64 v (be 8 v.toNat) :=
  decodeWord_reads 8 v.toNat UInt64.ofNat v (by
    rw [Nat.mod_eq_of_lt (show v.toNat < 256 ^ 8 from v.toNat_lt), UInt64.ofNat_toNat])

/-- A length that fits four bytes is read back. -/
theorem decode32_length_reads {n : ℕ} (h : n < 2 ^ 32) :
    Reads decode32 (UInt32.ofNat n) (be 4 n) ∧ (UInt32.ofNat n).toNat = n := by
  have hn : (UInt32.ofNat n).toNat = n := Nat.mod_eq_of_lt h
  refine ⟨?_, hn⟩
  have hread := decode32_reads (UInt32.ofNat n)
  rwa [hn] at hread

mutual

/-- Every length in the value fits the field it is written to: those of strings, arrays and
tables four bytes, those of keys one. -/
def FieldValue.Fits : FieldValue → Prop
  | .utf8 value => value.length < 2 ^ 32
  | .bytes value => value.length < 2 ^ 32
  | .array entries => (arrayBytes entries).length < 2 ^ 32 ∧ arrayFits entries
  | .table entries => (entriesBytes entries).length < 2 ^ 32 ∧ entriesFit entries
  | .boolean _ | .i8 _ | .u8 _ | .i16 _ | .u16 _ | .i32 _ | .u32 _ | .i64 _ | .u64 _ => True
  | .f32 _ | .f64 _ | .decimal _ _ | .timestamp _ | .void => True

/-- Every entry of an array fits. -/
def arrayFits : List FieldValue → Prop
  | [] => True
  | entry :: entries => entry.Fits ∧ arrayFits entries

/-- Every entry of a table fits. -/
def entriesFit : List TableEntry → Prop
  | [] => True
  | .mk key value :: entries => key.length < 2 ^ 8 ∧ value.Fits ∧ entriesFit entries

end

/-- A table whose lengths fit. -/
def Fits (t : Table) : Prop := (entriesBytes t).length < 2 ^ 32 ∧ entriesFit t

/-- The size is read, and the loop runs to the limit it gives. -/
theorem decodeSized_reads {α : Type} {entries : ℕ → Buffer → Except DecodeFailure (α × Buffer)}
    {a : α} {body : Bytes} (hbody : body.length < 2 ^ 32)
    (h : Reads (fun s => entries (s.offset + body.length) s) a body) :
    Reads (decodeSized entries) a (sized body) := by
  obtain ⟨hread, hn⟩ := decode32_length_reads hbody
  refine hread.bind ?_
  simpa only [hn] using h

/-- A short string is read back if its length is a byte. -/
theorem decodeShort_reads {value : Bytes} (hlen : value.length < 2 ^ 8) :
    Reads decodeShort value (shortBytes value) := by
  have hn : (UInt8.ofNat value.length).toNat = value.length := Nat.mod_eq_of_lt hlen
  have hread := decode8_reads (UInt8.ofNat value.length)
  rw [hn] at hread
  refine hread.bind ?_
  simpa only [hn] using decodeBytes_reads value

/-- A string behind its length. -/
theorem decodeLong_reads {value : Bytes} (hlen : value.length < 2 ^ 32) :
    Reads decodeLong value (sized value) := by
  obtain ⟨hread, hn⟩ := decode32_length_reads hlen
  refine hread.bind ?_
  simpa only [hn] using decodeBytes_reads value

/-- A case of the `switch` reads what its decoder reads. -/
theorem simpleFieldDecoder_reads {α : Type} {a : α} {bs : Bytes}
    {decode : Buffer → Except DecodeFailure (α × Buffer)} (h : Reads decode a bs)
    (how : α → FieldValue) : Reads (simpleFieldDecoder decode how) (how a) bs := h.map how

/-- After the kind byte of `k`, the case of `k` is taken. -/
theorem decodeFieldValue_reads_of_payload {fuel : ℕ} {k : Kind} {v : FieldValue} {bs : Bytes}
    (h : Reads (decodePayload (decodeArrayEntries fuel) (decodeTableEntries fuel) k) v bs) :
    Reads (decodeFieldValue (fuel + 1)) v (be 1 k.byte.toNat ++ bs) := by
  rw [show decodeFieldValue (fuel + 1) = _ from funext fun s => by rw [decodeFieldValue]]
  refine (decode8_reads k.byte).bind ?_
  simpa only [Kind.ofByte_byte] using h

mutual

/-- A value whose lengths fit is read back, in as many calls as it has bytes. -/
theorem decodeFieldValue_reads : ∀ (v : FieldValue) (fuel : ℕ), v.Fits →
    (valueBytes v).length ≤ fuel → Reads (decodeFieldValue fuel) v (valueBytes v)
  | v, 0, _, hfuel => absurd hfuel (by have := length_valueBytes_pos v; omega)
  | .boolean true, _ + 1, _, _ =>
    decodeFieldValue_reads_of_payload (k := .boolean)
      (simpleFieldDecoder_reads (decode8_reads 1) fun val => .boolean (val ≠ 0))
  | .boolean false, _ + 1, _, _ =>
    decodeFieldValue_reads_of_payload (k := .boolean)
      (simpleFieldDecoder_reads (decode8_reads 0) fun val => .boolean (val ≠ 0))
  | .i8 value, _ + 1, _, _ => by
    have h := simpleFieldDecoder_reads (decode8_reads value.toUInt8) fun val => .i8 val.toInt8
    rw [Int8.toInt8_toUInt8] at h
    exact decodeFieldValue_reads_of_payload (k := .i8) h
  | .u8 _, _ + 1, _, _ =>
    decodeFieldValue_reads_of_payload (simpleFieldDecoder_reads (decode8_reads _) _)
  | .i16 value, _ + 1, _, _ => by
    have h := simpleFieldDecoder_reads (decode16_reads value.toUInt16) fun val =>
      .i16 val.toInt16
    rw [Int16.toInt16_toUInt16] at h
    exact decodeFieldValue_reads_of_payload (k := .i16) h
  | .u16 _, _ + 1, _, _ =>
    decodeFieldValue_reads_of_payload (simpleFieldDecoder_reads (decode16_reads _) _)
  | .i32 value, _ + 1, _, _ => by
    have h := simpleFieldDecoder_reads (decode32_reads value.toUInt32) fun val =>
      .i32 val.toInt32
    rw [Int32.toInt32_toUInt32] at h
    exact decodeFieldValue_reads_of_payload (k := .i32) h
  | .u32 _, _ + 1, _, _ =>
    decodeFieldValue_reads_of_payload (simpleFieldDecoder_reads (decode32_reads _) _)
  | .i64 value, _ + 1, _, _ => by
    have h := simpleFieldDecoder_reads (decode64_reads value.toUInt64) fun val =>
      .i64 val.toInt64
    rw [Int64.toInt64_toUInt64] at h
    exact decodeFieldValue_reads_of_payload (k := .i64) h
  | .u64 _, _ + 1, _, _ =>
    decodeFieldValue_reads_of_payload (simpleFieldDecoder_reads (decode64_reads _) _)
  | .f32 _, _ + 1, _, _ =>
    decodeFieldValue_reads_of_payload (simpleFieldDecoder_reads (decode32_reads _) _)
  | .f64 _, _ + 1, _, _ =>
    decodeFieldValue_reads_of_payload (simpleFieldDecoder_reads (decode64_reads _) _)
  | .decimal _ _, _ + 1, _, _ =>
    decodeFieldValue_reads_of_payload
      ((decode8_reads _).bind (simpleFieldDecoder_reads (decode32_reads _) _))
  | .utf8 _, _ + 1, hfits, _ =>
    decodeFieldValue_reads_of_payload (simpleFieldDecoder_reads (decodeLong_reads hfits) _)
  | .array entries, fuel + 1, hfits, hfuel => by
    have hloop := decodeArrayEntries_reads entries fuel hfits.2 (by
      simp only [valueBytes, List.length_append, length_be, length_sized] at hfuel; omega)
    exact decodeFieldValue_reads_of_payload
      (simpleFieldDecoder_reads (decodeSized_reads hfits.1 hloop) _)
  | .timestamp _, _ + 1, _, _ =>
    decodeFieldValue_reads_of_payload (simpleFieldDecoder_reads (decode64_reads _) _)
  | .table entries, fuel + 1, hfits, hfuel => by
    have hloop := decodeTableEntries_reads entries fuel hfits.2 (by
      simp only [valueBytes, List.length_append, length_be, length_sized] at hfuel; omega)
    exact decodeFieldValue_reads_of_payload
      (simpleFieldDecoder_reads (decodeSized_reads hfits.1 hloop) _)
  | .void, _ + 1, _, _ => decodeFieldValue_reads_of_payload (Reads.nil _)
  | .bytes _, _ + 1, hfits, _ =>
    decodeFieldValue_reads_of_payload (simpleFieldDecoder_reads (decodeLong_reads hfits) _)

/-- The loop over an array reads its entries back. -/
theorem decodeArrayEntries_reads : ∀ (es : List FieldValue) (fuel : ℕ), arrayFits es →
    (arrayBytes es).length + 1 ≤ fuel →
    Reads (fun s => decodeArrayEntries fuel (s.offset + (arrayBytes es).length) s) es
      (arrayBytes es)
  | _, 0, _, hfuel => absurd hfuel (by omega)
  | [], _ + 1, _, _ => fun s _ _ => by simp [decodeArrayEntries, arrayBytes, Buffer.skip]; rfl
  | v :: vs, fuel + 1, hfits, hfuel => by
    have hpos := length_valueBytes_pos v
    simp only [arrayBytes, List.length_append] at hfuel ⊢
    intro s hs h
    obtain ⟨hv, hmid, hvs⟩ := prefix_append hs h
    have hhead := decodeFieldValue_reads v fuel hfits.1 (by omega) s hs hv
    have htail := decodeArrayEntries_reads vs fuel hfits.2 (by omega) _ hmid hvs
    simp only [Buffer.offset_skip, Nat.add_assoc] at htail
    simp only [decodeArrayEntries]
    rw [if_pos (by omega), hhead, ok_bind]
    simp only [htail, ok_bind, Buffer.skip_skip, List.length_append]
    rfl

/-- The loop over a table reads its entries back. -/
theorem decodeTableEntries_reads : ∀ (es : List TableEntry) (fuel : ℕ), entriesFit es →
    (entriesBytes es).length + 1 ≤ fuel →
    Reads (fun s => decodeTableEntries fuel (s.offset + (entriesBytes es).length) s) es
      (entriesBytes es)
  | _, 0, _, hfuel => absurd hfuel (by omega)
  | [], _ + 1, _, _ => fun s _ _ => by simp [decodeTableEntries, entriesBytes, Buffer.skip]; rfl
  | .mk key v :: es, fuel + 1, hfits, hfuel => by
    obtain ⟨hkey, hvalue, hrest⟩ := hfits
    simp only [entriesBytes, List.length_append, length_shortBytes] at hfuel ⊢
    intro s hs h
    obtain ⟨h₁, hs₁, h⟩ := prefix_append hs h
    obtain ⟨h₂, hs₂, h₃⟩ := prefix_append hs₁ h
    have htail := decodeTableEntries_reads es fuel hrest (by omega) _ hs₂ h₃
    simp only [Buffer.offset_skip, Nat.add_assoc, length_shortBytes] at htail
    simp only [decodeTableEntries]
    rw [if_pos (by omega), decodeShort_reads hkey s hs h₁, ok_bind]
    simp only
    rw [decodeFieldValue_reads v fuel hvalue (by omega) _ hs₁ h₂, ok_bind]
    simp only [length_shortBytes, Nat.add_assoc]
    rw [htail, ok_bind]
    simp only [Buffer.skip_skip, List.length_append, length_shortBytes, Nat.add_assoc]
    rfl

end

end Amqp
