/-
# Field tables of `librabbitmq/amqp_table.c`

A field table is a list of named values; a value may itself be an array or a table, to any
depth.  `amqp_encode_table` writes a table into a buffer from an offset on, and patches the
size of each table and array in front of it when its end is known; `amqp_decode_table` reads
one back, its loops driven by the sizes it reads.

A `Buffer` is the pair of arguments `amqp_bytes_t encoded`, `size_t *offset`.  Allocation
from the pool is taken to succeed.
-/
import Pungoo.Codec

namespace Amqp

open Wire Codec

/-- `amqp_status_enum`, as far as the modelled functions return it; `AMQP_STATUS_OK` is the
`ok` of `Except`. -/
inductive Status
  | noMemory | badAmqpData | unknownClass | unknownMethod | invalidParameter | tableTooBig
  | wrongMethod | unexpectedState | incompatibleAmqpVersion | brokerUnsupportedSaslMethod | timeout
  deriving DecidableEq, Repr

/-! ## Reading and writing at an offset -/

/-- `amqp_encode_bytes(encoded, offset, input)`.  A caller answers a failure with its own
status `e`. -/
def encodeBytes (e : Status) (input : Bytes) (s : Buffer) : Except Status Buffer :=
  if s.offset + input.length ≤ s.encoded.length then
    .ok { encoded := write s.encoded s.offset input, offset := s.offset + input.length }
  else .error e

/-- `amqp_encode_8`. -/
def encode8 (e : Status) (input : UInt8) : Buffer → Except Status Buffer :=
  encodeBytes e (be 1 input.toNat)

/-- `amqp_encode_16`. -/
def encode16 (e : Status) (input : UInt16) : Buffer → Except Status Buffer :=
  encodeBytes e (be 2 input.toNat)

/-- `amqp_encode_32`. -/
def encode32 (e : Status) (input : UInt32) : Buffer → Except Status Buffer :=
  encodeBytes e (be 4 input.toNat)

/-- `amqp_encode_64`. -/
def encode64 (e : Status) (input : UInt64) : Buffer → Except Status Buffer :=
  encodeBytes e (be 8 input.toNat)

/-- Why a decoder gives up: the data, or the bound on its steps.  The second never happens
(`decodeTableEntries_ne_unfinished`). -/
inductive DecodeFailure
  | badAmqpData | unfinished
  deriving DecidableEq, Repr

/-- `amqp_decode_bytes(encoded, offset, &output, len)`. -/
def decodeBytes (len : ℕ) (s : Buffer) : Except DecodeFailure (Bytes × Buffer) :=
  if s.offset + len ≤ s.encoded.length then
    .ok (slice s.encoded s.offset len, { s with offset := s.offset + len })
  else .error .badAmqpData

/-- `amqp_decode_8`. -/
def decode8 (s : Buffer) : Except DecodeFailure (UInt8 × Buffer) := do
  let (bs, s) ← decodeBytes 1 s
  pure (UInt8.ofNat (ofBe bs), s)

/-- `amqp_decode_16`. -/
def decode16 (s : Buffer) : Except DecodeFailure (UInt16 × Buffer) := do
  let (bs, s) ← decodeBytes 2 s
  pure (UInt16.ofNat (ofBe bs), s)

/-- `amqp_decode_32`. -/
def decode32 (s : Buffer) : Except DecodeFailure (UInt32 × Buffer) := do
  let (bs, s) ← decodeBytes 4 s
  pure (UInt32.ofNat (ofBe bs), s)

/-- `amqp_decode_64`. -/
def decode64 (s : Buffer) : Except DecodeFailure (UInt64 × Buffer) := do
  let (bs, s) ← decodeBytes 8 s
  pure (UInt64.ofNat (ofBe bs), s)

/-! ## Values -/

/-- `amqp_field_value_kind_t`. -/
inductive Kind
  | boolean | i8 | u8 | i16 | u16 | i32 | u32 | i64 | u64 | f32 | f64 | decimal | utf8
  | array | timestamp | table | void | bytes
  deriving DecidableEq, Repr

/-- The value of a constant `AMQP_FIELD_KIND_*`. -/
def Kind.byte : Kind → UInt8
  | .boolean => 't'.toUInt8
  | .i8 => 'b'.toUInt8
  | .u8 => 'B'.toUInt8
  | .i16 => 's'.toUInt8
  | .u16 => 'u'.toUInt8
  | .i32 => 'I'.toUInt8
  | .u32 => 'i'.toUInt8
  | .i64 => 'l'.toUInt8
  | .u64 => 'L'.toUInt8
  | .f32 => 'f'.toUInt8
  | .f64 => 'd'.toUInt8
  | .decimal => 'D'.toUInt8
  | .utf8 => 'S'.toUInt8
  | .array => 'A'.toUInt8
  | .timestamp => 'T'.toUInt8
  | .table => 'F'.toUInt8
  | .void => 'V'.toUInt8
  | .bytes => 'x'.toUInt8

/-- The kinds a `switch` of the source has a case for. -/
def Kind.all : List Kind :=
  [.boolean, .i8, .u8, .i16, .u16, .i32, .u32, .i64, .u64, .f32, .f64, .decimal, .utf8,
    .array, .timestamp, .table, .void, .bytes]

/-- The kind of a byte, if it is one. -/
def Kind.ofByte (b : UInt8) : Option Kind := Kind.all.find? fun k => k.byte = b

@[simp] theorem Kind.ofByte_byte (k : Kind) : Kind.ofByte k.byte = some k := by
  cases k <;> rfl

mutual

/-- `amqp_field_value_t`: a kind and the member of the union that it selects.  A float is the
word it is punned with. -/
inductive FieldValue
  | boolean (value : Bool)
  | i8 (value : Int8)
  | u8 (value : UInt8)
  | i16 (value : Int16)
  | u16 (value : UInt16)
  | i32 (value : Int32)
  | u32 (value : UInt32)
  | i64 (value : Int64)
  | u64 (value : UInt64)
  | f32 (value : UInt32)
  | f64 (value : UInt64)
  | decimal (decimals : UInt8) (value : UInt32)
  | utf8 (value : Bytes)
  | array (entries : List FieldValue)
  | timestamp (value : UInt64)
  | table (entries : List TableEntry)
  | void
  | bytes (value : Bytes)

/-- `amqp_table_entry_t`. -/
inductive TableEntry
  | mk (key : Bytes) (value : FieldValue)

end

/-- `amqp_table_t`. -/
abbrev Table := List TableEntry

/-- The kind of a value. -/
def FieldValue.kind : FieldValue → Kind
  | .boolean _ => .boolean
  | .i8 _ => .i8
  | .u8 _ => .u8
  | .i16 _ => .i16
  | .u16 _ => .u16
  | .i32 _ => .i32
  | .u32 _ => .u32
  | .i64 _ => .i64
  | .u64 _ => .u64
  | .f32 _ => .f32
  | .f64 _ => .f64
  | .decimal _ _ => .decimal
  | .utf8 _ => .utf8
  | .array _ => .array
  | .timestamp _ => .timestamp
  | .table _ => .table
  | .void => .void
  | .bytes _ => .bytes

/-! ## The encoder -/

/-- The frame of `amqp_encode_array` and `amqp_encode_table`: four bytes are left free, the
entries are written behind them, and their size is filled in. -/
def encodeSized (entries : Buffer → Except Status Buffer) (s : Buffer) :
    Except Status Buffer := do
  let start := s.offset
  let s ← entries { s with offset := start + 4 }
  let patched ← encode32 .tableTooBig (UInt32.ofNat (s.offset - start - 4))
    { s with offset := start }
  pure { patched with offset := s.offset }

mutual

/-- `amqp_encode_field_value(encoded, entry, offset)`. -/
def encodeFieldValue : FieldValue → Buffer → Except Status Buffer
  | entry, s => do
    let s ← encode8 .badAmqpData entry.kind.byte s
    match entry with
    | .boolean value => encode8 .tableTooBig (if value then 1 else 0) s
    | .i8 value => encode8 .tableTooBig value.toUInt8 s
    | .u8 value => encode8 .tableTooBig value s
    | .i16 value => encode16 .tableTooBig value.toUInt16 s
    | .u16 value => encode16 .tableTooBig value s
    | .i32 value => encode32 .tableTooBig value.toUInt32 s
    | .u32 value => encode32 .tableTooBig value s
    | .i64 value => encode64 .tableTooBig value.toUInt64 s
    | .u64 value => encode64 .tableTooBig value s
    | .f32 value => encode32 .tableTooBig value s
    | .f64 value => encode64 .tableTooBig value s
    | .decimal decimals value => do
      let s ← encode8 .tableTooBig decimals s
      encode32 .tableTooBig value s
    | .utf8 value => do
      let s ← encode32 .tableTooBig (UInt32.ofNat value.length) s
      encodeBytes .tableTooBig value s
    | .bytes value => do
      let s ← encode32 .tableTooBig (UInt32.ofNat value.length) s
      encodeBytes .tableTooBig value s
    | .array entries => encodeSized (encodeArrayEntries entries) s
    | .timestamp value => encode64 .tableTooBig value s
    | .table entries => encodeSized (encodeTableEntries entries) s
    | .void => pure s

/-- The loop of `amqp_encode_array`. -/
def encodeArrayEntries : List FieldValue → Buffer → Except Status Buffer
  | [], s => pure s
  | entry :: entries, s => do
    let s ← encodeFieldValue entry s
    encodeArrayEntries entries s

/-- The loop of `amqp_encode_table`.  The length of a key is cut to a byte. -/
def encodeTableEntries : List TableEntry → Buffer → Except Status Buffer
  | [], s => pure s
  | .mk key value :: entries, s => do
    let s ← encode8 .tableTooBig (UInt8.ofNat key.length) s
    let s ← encodeBytes .tableTooBig key s
    let s ← encodeFieldValue value s
    encodeTableEntries entries s

end

/-- `amqp_encode_array(encoded, input, offset)`. -/
def encodeArray (input : List FieldValue) : Buffer → Except Status Buffer :=
  encodeSized (encodeArrayEntries input)

/-- `amqp_encode_table(encoded, input, offset)`. -/
def encodeTable (input : Table) : Buffer → Except Status Buffer :=
  encodeSized (encodeTableEntries input)

/-! ## The decoder -/

/-- The frame of `amqp_decode_array` and `amqp_decode_table`: the size, and the loop up to
the limit it sets. -/
def decodeSized {α : Type} (entries : ℕ → Buffer → Except DecodeFailure (α × Buffer))
    (s : Buffer) : Except DecodeFailure (α × Buffer) := do
  let (size, s) ← decode32 s
  entries (s.offset + size.toNat) s

/-- `SIMPLE_FIELD_DECODER(bits, dest, how)`: a word is decoded, and `how` makes the value. -/
def simpleFieldDecoder {α : Type} (decode : Buffer → Except DecodeFailure (α × Buffer))
    (how : α → FieldValue) (s : Buffer) : Except DecodeFailure (FieldValue × Buffer) := do
  let (val, s) ← decode s
  pure (how val, s)

/-- A string behind its length of one byte. -/
def decodeShort (s : Buffer) : Except DecodeFailure (Bytes × Buffer) := do
  let (len, s) ← decode8 s
  decodeBytes len.toNat s

/-- A string behind its length of four bytes. -/
def decodeLong (s : Buffer) : Except DecodeFailure (Bytes × Buffer) := do
  let (len, s) ← decode32 s
  decodeBytes len.toNat s

/-- The `switch` of `amqp_decode_field_value`, with the loops of the two nested kinds. -/
def decodePayload (array : ℕ → Buffer → Except DecodeFailure (List FieldValue × Buffer))
    (table : ℕ → Buffer → Except DecodeFailure (List TableEntry × Buffer)) :
    Kind → Buffer → Except DecodeFailure (FieldValue × Buffer)
  | .boolean => simpleFieldDecoder decode8 fun val => .boolean (val ≠ 0)
  | .i8 => simpleFieldDecoder decode8 fun val => .i8 val.toInt8
  | .u8 => simpleFieldDecoder decode8 .u8
  | .i16 => simpleFieldDecoder decode16 fun val => .i16 val.toInt16
  | .u16 => simpleFieldDecoder decode16 .u16
  | .i32 => simpleFieldDecoder decode32 fun val => .i32 val.toInt32
  | .u32 => simpleFieldDecoder decode32 .u32
  | .i64 => simpleFieldDecoder decode64 fun val => .i64 val.toInt64
  | .u64 => simpleFieldDecoder decode64 .u64
  | .f32 => simpleFieldDecoder decode32 .f32
  | .f64 => simpleFieldDecoder decode64 .f64
  | .decimal => fun s => do
    let (decimals, s) ← decode8 s
    simpleFieldDecoder decode32 (.decimal decimals) s
  | .utf8 => simpleFieldDecoder decodeLong .utf8
  | .bytes => simpleFieldDecoder decodeLong .bytes
  | .array => simpleFieldDecoder (decodeSized array) .array
  | .timestamp => simpleFieldDecoder decode64 .timestamp
  | .table => simpleFieldDecoder (decodeSized table) .table
  | .void => fun s => pure (.void, s)

mutual

/-- `amqp_decode_field_value(encoded, pool, entry, offset)`, with at most `fuel` calls
nested in it. -/
def decodeFieldValue : ℕ → Buffer → Except DecodeFailure (FieldValue × Buffer)
  | 0, _ => .error .unfinished
  | fuel + 1, s => do
    let (byte, s) ← decode8 s
    match Kind.ofByte byte with
    | none => .error .badAmqpData
    | some kind => decodePayload (decodeArrayEntries fuel) (decodeTableEntries fuel) kind s

/-- The loop of `amqp_decode_array`. -/
def decodeArrayEntries : ℕ → ℕ → Buffer → Except DecodeFailure (List FieldValue × Buffer)
  | 0, _, _ => .error .unfinished
  | fuel + 1, limit, s =>
    if s.offset < limit then do
      let (entry, s) ← decodeFieldValue fuel s
      let (entries, s) ← decodeArrayEntries fuel limit s
      pure (entry :: entries, s)
    else pure ([], s)

/-- The loop of `amqp_decode_table`. -/
def decodeTableEntries : ℕ → ℕ → Buffer → Except DecodeFailure (List TableEntry × Buffer)
  | 0, _, _ => .error .unfinished
  | fuel + 1, limit, s =>
    if s.offset < limit then do
      let (key, s) ← decodeShort s
      let (value, s) ← decodeFieldValue fuel s
      let (entries, s) ← decodeTableEntries fuel limit s
      pure (.mk key value :: entries, s)
    else pure ([], s)

end

/-- A bound on the calls a decoder makes: each reads a byte or is the last of its loop. -/
def fuelOf (s : Buffer) : ℕ := s.encoded.length - s.offset + 1

/-- A decoder failure as the status its callers return. -/
def asStatus {α : Type} (x : Except DecodeFailure α) : Except Status α :=
  match x with
  | .ok a => .ok a
  | .error _ => .error .badAmqpData

/-- `amqp_decode_table(encoded, pool, output, offset)`. -/
def decodeTable (s : Buffer) : Except Status (Table × Buffer) :=
  asStatus (decodeSized (decodeTableEntries (fuelOf s)) s)

end Amqp
