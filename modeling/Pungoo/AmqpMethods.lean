/-
# The methods of `librabbitmq/amqp_framing.c`

A method is a number and a record.  The file is generated: for each method the same
sequence of field encoders, and of field decoders, is written out.  `layout` lists the
sequence of each method, and one encoder and one decoder follow it.  Consecutive bits share
a byte.

What is sent of a method and can be encoded at all is decoded to the same method.
-/
import Pungoo.AmqpTableDecoder
import Mathlib.Data.Nat.Bits

namespace Amqp

open Wire Codec Failing

/-! ## Fields -/

/-- The types of fields; `bits` is a run of bits that share a byte. -/
inductive FieldType
  | octet | short | long | longlong | shortstr | longstr | table
  | bits (n : ℕ) (h : n ≤ 8 := by decide)
  deriving DecidableEq, Repr

/-- The type of the member of a `struct`. -/
def FieldType.Val : FieldType → Type
  | .octet => UInt8
  | .short => UInt16
  | .long => UInt32
  | .longlong => UInt64
  | .shortstr => Bytes
  | .longstr => Bytes
  | .table => Table
  | .bits n _ => Fin n → Bool

/-- A short string: its length is checked. -/
def encodeShortstr (input : Bytes) (s : Buffer) : Except Status Buffer :=
  if 255 < input.length then .error .badAmqpData
  else do
    let s ← encode8 .badAmqpData (UInt8.ofNat input.length) s
    encodeBytes .badAmqpData input s

/-- A long string: its length is checked. -/
def encodeLongstr (input : Bytes) (s : Buffer) : Except Status Buffer :=
  if 2 ^ 32 - 1 < input.length then .error .badAmqpData
  else do
    let s ← encode32 .badAmqpData (UInt32.ofNat input.length) s
    encodeBytes .badAmqpData input s

/-- The encoder of one field. -/
def encodeField : (t : FieldType) → t.Val → Buffer → Except Status Buffer
  | .octet, v => encode8 .badAmqpData v
  | .short, v => encode16 .badAmqpData v
  | .long, v => encode32 .badAmqpData v
  | .longlong, v => encode64 .badAmqpData v
  | .shortstr, v => encodeShortstr v
  | .longstr, v => encodeLongstr v
  | .table, v => encodeTable v
  | .bits _ _, v => encode8 .badAmqpData (UInt8.ofNat (Nat.ofBits v))

/-- The decoder of one field. -/
def decodeField : (t : FieldType) → Buffer → Except Status (t.Val × Buffer)
  | .octet, s => asStatus (decode8 s)
  | .short, s => asStatus (decode16 s)
  | .long, s => asStatus (decode32 s)
  | .longlong, s => asStatus (decode64 s)
  | .shortstr, s => asStatus (decodeShort s)
  | .longstr, s => asStatus (decodeLong s)
  | .table, s => decodeTable s
  | .bits _ _, s => do
    let (bitBuffer, s) ← asStatus (decode8 s)
    pure (fun i => bitBuffer.toNat.testBit i, s)

/-- The members of a `struct` with the given fields. -/
def Fields : List FieldType → Type
  | [] => Unit
  | t :: ts => t.Val × Fields ts

/-- The encoders of the fields, one after another. -/
def encodeFields : (ts : List FieldType) → Fields ts → Buffer → Except Status Buffer
  | [], _, s => pure s
  | t :: ts, (v, vs), s => do
    let s ← encodeField t v s
    encodeFields ts vs s

/-- The decoders of the fields, one after another. -/
def decodeFields : (ts : List FieldType) → Buffer → Except Status (Fields ts × Buffer)
  | [], s => pure ((), s)
  | t :: ts, s => do
    let (v, s) ← decodeField t s
    let (vs, s) ← decodeFields ts s
    pure ((v, vs), s)

/-! ## Methods -/

/-- `amqp_method_number_t`: the methods of the protocol, `AMQP_*_METHOD`. -/
inductive MethodNumber
  | connectionStart | connectionStartOk | connectionSecure | connectionSecureOk
  | connectionTune | connectionTuneOk | connectionOpen | connectionOpenOk | connectionClose
  | connectionCloseOk | connectionBlocked | connectionUnblocked | channelOpen
  | channelOpenOk | channelFlow | channelFlowOk | channelClose | channelCloseOk
  | accessRequest | accessRequestOk | exchangeDeclare | exchangeDeclareOk | exchangeDelete
  | exchangeDeleteOk | exchangeBind | exchangeBindOk | exchangeUnbind | exchangeUnbindOk
  | queueDeclare | queueDeclareOk | queueBind | queueBindOk | queuePurge | queuePurgeOk
  | queueDelete | queueDeleteOk | queueUnbind | queueUnbindOk | basicQos | basicQosOk
  | basicConsume | basicConsumeOk | basicCancel | basicCancelOk | basicPublish
  | basicReturn | basicDeliver | basicGet | basicGetOk | basicGetEmpty | basicAck
  | basicReject | basicRecoverAsync | basicRecover | basicRecoverOk | basicNack | txSelect
  | txSelectOk | txCommit | txCommitOk | txRollback | txRollbackOk | confirmSelect
  | confirmSelectOk
  deriving DecidableEq, Repr

/-- The value of the constant `AMQP_*_METHOD`: the class and the method. -/
def MethodNumber.id : MethodNumber → UInt32
  | .connectionStart => 0x000A000A
  | .connectionStartOk => 0x000A000B
  | .connectionSecure => 0x000A0014
  | .connectionSecureOk => 0x000A0015
  | .connectionTune => 0x000A001E
  | .connectionTuneOk => 0x000A001F
  | .connectionOpen => 0x000A0028
  | .connectionOpenOk => 0x000A0029
  | .connectionClose => 0x000A0032
  | .connectionCloseOk => 0x000A0033
  | .connectionBlocked => 0x000A003C
  | .connectionUnblocked => 0x000A003D
  | .channelOpen => 0x0014000A
  | .channelOpenOk => 0x0014000B
  | .channelFlow => 0x00140014
  | .channelFlowOk => 0x00140015
  | .channelClose => 0x00140028
  | .channelCloseOk => 0x00140029
  | .accessRequest => 0x001E000A
  | .accessRequestOk => 0x001E000B
  | .exchangeDeclare => 0x0028000A
  | .exchangeDeclareOk => 0x0028000B
  | .exchangeDelete => 0x00280014
  | .exchangeDeleteOk => 0x00280015
  | .exchangeBind => 0x0028001E
  | .exchangeBindOk => 0x0028001F
  | .exchangeUnbind => 0x00280028
  | .exchangeUnbindOk => 0x00280033
  | .queueDeclare => 0x0032000A
  | .queueDeclareOk => 0x0032000B
  | .queueBind => 0x00320014
  | .queueBindOk => 0x00320015
  | .queuePurge => 0x0032001E
  | .queuePurgeOk => 0x0032001F
  | .queueDelete => 0x00320028
  | .queueDeleteOk => 0x00320029
  | .queueUnbind => 0x00320032
  | .queueUnbindOk => 0x00320033
  | .basicQos => 0x003C000A
  | .basicQosOk => 0x003C000B
  | .basicConsume => 0x003C0014
  | .basicConsumeOk => 0x003C0015
  | .basicCancel => 0x003C001E
  | .basicCancelOk => 0x003C001F
  | .basicPublish => 0x003C0028
  | .basicReturn => 0x003C0032
  | .basicDeliver => 0x003C003C
  | .basicGet => 0x003C0046
  | .basicGetOk => 0x003C0047
  | .basicGetEmpty => 0x003C0048
  | .basicAck => 0x003C0050
  | .basicReject => 0x003C005A
  | .basicRecoverAsync => 0x003C0064
  | .basicRecover => 0x003C006E
  | .basicRecoverOk => 0x003C006F
  | .basicNack => 0x003C0078
  | .txSelect => 0x005A000A
  | .txSelectOk => 0x005A000B
  | .txCommit => 0x005A0014
  | .txCommitOk => 0x005A0015
  | .txRollback => 0x005A001E
  | .txRollbackOk => 0x005A001F
  | .confirmSelect => 0x0055000A
  | .confirmSelectOk => 0x0055000B

/-- The cases of the `switch` of `amqp_decode_method` and of `amqp_encode_method`. -/
def MethodNumber.all : List MethodNumber :=
  [.connectionStart, .connectionStartOk, .connectionSecure, .connectionSecureOk,
    .connectionTune, .connectionTuneOk, .connectionOpen, .connectionOpenOk, .connectionClose,
    .connectionCloseOk, .connectionBlocked, .connectionUnblocked, .channelOpen, .channelOpenOk,
    .channelFlow, .channelFlowOk, .channelClose, .channelCloseOk, .accessRequest,
    .accessRequestOk, .exchangeDeclare, .exchangeDeclareOk, .exchangeDelete, .exchangeDeleteOk,
    .exchangeBind, .exchangeBindOk, .exchangeUnbind, .exchangeUnbindOk, .queueDeclare,
    .queueDeclareOk, .queueBind, .queueBindOk, .queuePurge, .queuePurgeOk, .queueDelete,
    .queueDeleteOk, .queueUnbind, .queueUnbindOk, .basicQos, .basicQosOk, .basicConsume,
    .basicConsumeOk, .basicCancel, .basicCancelOk, .basicPublish, .basicReturn, .basicDeliver,
    .basicGet, .basicGetOk, .basicGetEmpty, .basicAck, .basicReject, .basicRecoverAsync,
    .basicRecover, .basicRecoverOk, .basicNack, .txSelect, .txSelectOk, .txCommit, .txCommitOk,
    .txRollback, .txRollbackOk, .confirmSelect, .confirmSelectOk]

/-- The fields of a method in their order on the wire, with their names in the `struct` of
the method. -/
def MethodNumber.layout : MethodNumber → List FieldType
  -- version_major, version_minor, server_properties, mechanisms, locales
  | .connectionStart => [.octet, .octet, .table, .longstr, .longstr]
  -- client_properties, mechanism, response, locale
  | .connectionStartOk => [.table, .shortstr, .longstr, .shortstr]
  -- challenge
  | .connectionSecure => [.longstr]
  -- response
  | .connectionSecureOk => [.longstr]
  -- channel_max, frame_max, heartbeat
  | .connectionTune => [.short, .long, .short]
  -- channel_max, frame_max, heartbeat
  | .connectionTuneOk => [.short, .long, .short]
  -- virtual_host, capabilities, insist
  | .connectionOpen => [.shortstr, .shortstr, .bits 1]
  -- known_hosts
  | .connectionOpenOk => [.shortstr]
  -- reply_code, reply_text, class_id, method_id
  | .connectionClose => [.short, .shortstr, .short, .short]
  -- reason
  | .connectionBlocked => [.shortstr]
  -- out_of_band
  | .channelOpen => [.shortstr]
  -- channel_id
  | .channelOpenOk => [.longstr]
  -- active
  | .channelFlow => [.bits 1]
  -- active
  | .channelFlowOk => [.bits 1]
  -- reply_code, reply_text, class_id, method_id
  | .channelClose => [.short, .shortstr, .short, .short]
  -- realm, exclusive, passive, active, write, read
  | .accessRequest => [.shortstr, .bits 5]
  -- ticket
  | .accessRequestOk => [.short]
  -- ticket, exchange, type, passive, durable, auto_delete, internal, nowait, arguments
  | .exchangeDeclare => [.short, .shortstr, .shortstr, .bits 5, .table]
  -- ticket, exchange, if_unused, nowait
  | .exchangeDelete => [.short, .shortstr, .bits 2]
  -- ticket, destination, source, routing_key, nowait, arguments
  | .exchangeBind => [.short, .shortstr, .shortstr, .shortstr, .bits 1, .table]
  -- ticket, destination, source, routing_key, nowait, arguments
  | .exchangeUnbind => [.short, .shortstr, .shortstr, .shortstr, .bits 1, .table]
  -- ticket, queue, passive, durable, exclusive, auto_delete, nowait, arguments
  | .queueDeclare => [.short, .shortstr, .bits 5, .table]
  -- queue, message_count, consumer_count
  | .queueDeclareOk => [.shortstr, .long, .long]
  -- ticket, queue, exchange, routing_key, nowait, arguments
  | .queueBind => [.short, .shortstr, .shortstr, .shortstr, .bits 1, .table]
  -- ticket, queue, nowait
  | .queuePurge => [.short, .shortstr, .bits 1]
  -- message_count
  | .queuePurgeOk => [.long]
  -- ticket, queue, if_unused, if_empty, nowait
  | .queueDelete => [.short, .shortstr, .bits 3]
  -- message_count
  | .queueDeleteOk => [.long]
  -- ticket, queue, exchange, routing_key, arguments
  | .queueUnbind => [.short, .shortstr, .shortstr, .shortstr, .table]
  -- prefetch_size, prefetch_count, global
  | .basicQos => [.long, .short, .bits 1]
  -- ticket, queue, consumer_tag, no_local, no_ack, exclusive, nowait, arguments
  | .basicConsume => [.short, .shortstr, .shortstr, .bits 4, .table]
  -- consumer_tag
  | .basicConsumeOk => [.shortstr]
  -- consumer_tag, nowait
  | .basicCancel => [.shortstr, .bits 1]
  -- consumer_tag
  | .basicCancelOk => [.shortstr]
  -- ticket, exchange, routing_key, mandatory, immediate
  | .basicPublish => [.short, .shortstr, .shortstr, .bits 2]
  -- reply_code, reply_text, exchange, routing_key
  | .basicReturn => [.short, .shortstr, .shortstr, .shortstr]
  -- consumer_tag, delivery_tag, redelivered, exchange, routing_key
  | .basicDeliver => [.shortstr, .longlong, .bits 1, .shortstr, .shortstr]
  -- ticket, queue, no_ack
  | .basicGet => [.short, .shortstr, .bits 1]
  -- delivery_tag, redelivered, exchange, routing_key, message_count
  | .basicGetOk => [.longlong, .bits 1, .shortstr, .shortstr, .long]
  -- cluster_id
  | .basicGetEmpty => [.shortstr]
  -- delivery_tag, multiple
  | .basicAck => [.longlong, .bits 1]
  -- delivery_tag, requeue
  | .basicReject => [.longlong, .bits 1]
  -- requeue
  | .basicRecoverAsync => [.bits 1]
  -- requeue
  | .basicRecover => [.bits 1]
  -- delivery_tag, multiple, requeue
  | .basicNack => [.longlong, .bits 2]
  -- nowait
  | .confirmSelect => [.bits 1]
  | .connectionCloseOk | .connectionUnblocked | .channelCloseOk | .exchangeDeclareOk
  | .exchangeDeleteOk | .exchangeBindOk | .exchangeUnbindOk | .queueBindOk | .queueUnbindOk
  | .basicQosOk | .basicRecoverOk | .txSelect | .txSelectOk | .txCommit | .txCommitOk
  | .txRollback | .txRollbackOk | .confirmSelectOk => []

/-- The method of a number, if there is one. -/
def MethodNumber.ofId (id : UInt32) : Option MethodNumber := all.find? fun m => m.id = id

/-- The decoder of method numbers knows every method. -/
@[simp] theorem MethodNumber.ofId_id (m : MethodNumber) : ofId m.id = some m := by
  cases m <;> rfl

/-- `amqp_method_t`: a number and the `struct` of that number. -/
structure Method where
  number : MethodNumber
  fields : Fields number.layout

/-- `amqp_encode_method(methodNumber, decoded, encoded)`.  The offset of the result is what
the function returns. -/
def encodeMethod (m : Method) (encoded : Bytes) : Except Status Buffer :=
  encodeFields m.number.layout m.fields { encoded := encoded, offset := 0 }

/-- `amqp_decode_method(methodNumber, pool, encoded, decoded)`. -/
def decodeMethod (methodNumber : UInt32) (encoded : Bytes) : Except Status Method :=
  match MethodNumber.ofId methodNumber with
  | none => .error .unknownMethod
  | some number => do
    let (fields, _) ← decodeFields number.layout { encoded := encoded, offset := 0 }
    pure { number := number, fields := fields }

/-! ## The format of a method -/

/-- A field on the wire. -/
def fieldBytes : (t : FieldType) → t.Val → Bytes
  | .octet, v => be 1 (UInt8.toNat v)
  | .short, v => be 2 (UInt16.toNat v)
  | .long, v => be 4 (UInt32.toNat v)
  | .longlong, v => be 8 (UInt64.toNat v)
  | .shortstr, v => shortBytes v
  | .longstr, v => sized v
  | .table, v => tableBytes v
  | .bits _ _, v => be 1 (Nat.ofBits v)

/-- The strings of a field fit where they are written; the encoder checks it. -/
def stringFits : (t : FieldType) → t.Val → Prop
  | .shortstr, v => List.length v < 2 ^ 8
  | .longstr, v => List.length v < 2 ^ 32
  | .octet, _ | .short, _ | .long, _ | .longlong, _ | .table, _ | .bits _ _, _ => True

/-- The tables of a field fit; the encoder does not check it. -/
def tableFits : (t : FieldType) → t.Val → Prop
  | .table, v => Fits v
  | .octet, _ | .short, _ | .long, _ | .longlong, _ | .shortstr, _ | .longstr, _ => True
  | .bits _ _, _ => True

/-- A property of the value of every field. -/
def fieldsAll (P : (t : FieldType) → t.Val → Prop) : (ts : List FieldType) → Fields ts → Prop
  | [], _ => True
  | t :: ts, (v, vs) => P t v ∧ fieldsAll P ts vs

/-- Eight bits at most make a byte. -/
theorem ofBits_lt {n : ℕ} (h : n ≤ 8) (f : Fin n → Bool) : Nat.ofBits f < 256 :=
  lt_of_lt_of_le (Nat.ofBits_lt_two_pow f) (Nat.pow_le_pow_right (by omega) h)

/-- A short string has its length in one byte in front. -/
theorem encodeShortstr_writes {v : Bytes} (h : v.length < 2 ^ 8) :
    Writes (encodeShortstr v) (shortBytes v) := by
  rw [show encodeShortstr v = _ from funext fun s => if_neg (show ¬ 255 < v.length by omega)]
  exact (encode8_length_writes _ _).bind (encodeBytes_writes _ _)

/-- A long string has its length in four bytes in front. -/
theorem encodeLongstr_writes {v : Bytes} (h : v.length < 2 ^ 32) :
    Writes (encodeLongstr v) (sized v) := by
  rw [show encodeLongstr v = _ from
    funext fun s => if_neg (show ¬ 2 ^ 32 - 1 < v.length by omega)]
  exact (encode32_length_writes _ _).bind (encodeBytes_writes _ _)

/-- What `encode_shortstr` succeeds on has a length of one byte. -/
theorem length_of_encodeShortstr {v : Bytes} {s s' : Buffer}
    (h : encodeShortstr v s = .ok s') : v.length < 2 ^ 8 := by
  unfold encodeShortstr at h
  split at h
  next => exact absurd h (by simp)
  next hle => omega

/-- What `encode_longstr` succeeds on has a length of four bytes. -/
theorem length_of_encodeLongstr {v : Bytes} {s s' : Buffer}
    (h : encodeLongstr v s = .ok s') : v.length < 2 ^ 32 := by
  unfold encodeLongstr at h
  split at h
  next => exact absurd h (by simp)
  next hle => omega

/-- A field is written as its bytes. -/
theorem encodeField_writes (t : FieldType) (v : t.Val) (h : stringFits t v) :
    Writes (encodeField t v) (fieldBytes t v) := by
  cases t with
  | octet => exact encode8_writes _ _
  | short => exact encode16_writes _ _
  | long => exact encode32_writes _ _
  | longlong => exact encode64_writes _ _
  | shortstr => exact encodeShortstr_writes h
  | longstr => exact encodeLongstr_writes h
  | table => exact encodeTable_writes v
  | bits n hn => exact encode8_length_writes .badAmqpData (Nat.ofBits v)

/-- A field that was encoded has a length that fits. -/
theorem stringFits_of_ok {t : FieldType} {v : t.Val} {s s' : Buffer}
    (h : encodeField t v s = .ok s') : stringFits t v := by
  cases t with
  | shortstr => exact length_of_encodeShortstr h
  | longstr => exact length_of_encodeLongstr h
  | octet | short | long | longlong | table | bits => trivial

/-- What the table decoder reads, a method decoder reads. -/
theorem asStatus_reads {α : Type} {f : Buffer → Except DecodeFailure (α × Buffer)} {a : α}
    {bs : Bytes} (h : Reads f a bs) : Reads (fun s => asStatus (f s)) a bs := by
  intro s hs hbs
  simp only [h s hs hbs]
  rfl

/-- A field is read back from its bytes. -/
theorem decodeField_reads (t : FieldType) (v : t.Val) (h : stringFits t v) (ht : tableFits t v) :
    Reads (decodeField t) v (fieldBytes t v) := by
  cases t with
  | octet => exact asStatus_reads (decode8_reads v)
  | short => exact asStatus_reads (decode16_reads v)
  | long => exact asStatus_reads (decode32_reads v)
  | longlong => exact asStatus_reads (decode64_reads v)
  | shortstr => exact asStatus_reads (decodeShort_reads h)
  | longstr => exact asStatus_reads (decodeLong_reads h)
  | table => exact fun s hs hbs => decodeTable_reads ht hs hbs
  | bits n hn =>
    have hbyte : (UInt8.ofNat (Nat.ofBits v)).toNat = Nat.ofBits v :=
      Nat.mod_eq_of_lt (ofBits_lt hn v)
    have hread := decode8_reads (UInt8.ofNat (Nat.ofBits v))
    rw [hbyte] at hread
    have hbits : (fun i : Fin n => (UInt8.ofNat (Nat.ofBits v)).toNat.testBit i) = v := by
      funext i
      rw [hbyte, Nat.testBit_ofBits_lt v i i.isLt]
    have hmap := (asStatus_reads hread).map fun b : UInt8 => fun i : Fin n => b.toNat.testBit i
    rw [hbits] at hmap
    exact hmap

/-- The fields on the wire, one after another. -/
def fieldsBytes : (ts : List FieldType) → Fields ts → Bytes
  | [], _ => []
  | t :: ts, (v, vs) => fieldBytes t v ++ fieldsBytes ts vs

/-- The fields are written one after the other. -/
theorem encodeFields_writes : ∀ (ts : List FieldType) (vs : Fields ts),
    fieldsAll stringFits ts vs → Writes (encodeFields ts vs) (fieldsBytes ts vs)
  | [], _, _ => Writes.nil
  | t :: ts, (v, vs), h => (encodeField_writes t v h.1).bind (encodeFields_writes ts vs h.2)

/-- Fields that were encoded have lengths that fit. -/
theorem stringsFit_of_ok : ∀ {ts : List FieldType} {vs : Fields ts} {s s' : Buffer},
    encodeFields ts vs s = .ok s' → fieldsAll stringFits ts vs
  | [], _, _, _, _ => trivial
  | _ :: _, (_, _), _, _, h => by
    obtain ⟨u, hu, h⟩ := bind_eq_ok_iff.mp h
    exact ⟨stringFits_of_ok hu, stringsFit_of_ok h⟩

/-- The fields are read back from their bytes. -/
theorem decodeFields_reads : ∀ (ts : List FieldType) (vs : Fields ts),
    fieldsAll stringFits ts vs → fieldsAll tableFits ts vs →
    Reads (decodeFields ts) vs (fieldsBytes ts vs)
  | [], (), _, _ => Reads.nil ()
  | t :: ts, (v, vs), h, ht =>
    (decodeField_reads t v h.1 ht.1).bind
      ((decodeFields_reads ts vs h.2 ht.2).map (Prod.mk v))

/-! ## Methods on the wire -/

/-- The arguments of a method. -/
def Method.bytes (m : Method) : Bytes := fieldsBytes m.number.layout m.fields

/-- The strings among the arguments fit where they are written. -/
def Method.StringsFit (m : Method) : Prop := fieldsAll stringFits m.number.layout m.fields

/-- The tables among the arguments fit. -/
def Method.TablesFit (m : Method) : Prop := fieldsAll tableFits m.number.layout m.fields

/-- A method is written if there is room for it, in front of what was in the buffer. -/
theorem encodeMethod_fits {m : Method} (h : m.StringsFit) {encoded : Bytes}
    (hlen : m.bytes.length ≤ encoded.length) :
    encodeMethod m encoded =
      .ok { encoded := write encoded 0 m.bytes, offset := m.bytes.length } := by
  have hput := (encodeFields_writes m.number.layout m.fields h).fits ⟨encoded, 0⟩ (by
    simpa [Method.bytes] using hlen)
  rw [encodeMethod, hput]
  simp [Buffer.put, Method.bytes]

/-- The encoder returns only for what it has written to the front of the buffer. -/
theorem encodeMethod_ok {m : Method} {encoded : Bytes} {s : Buffer}
    (h : encodeMethod m encoded = .ok s) :
    m.StringsFit ∧ m.bytes.length ≤ encoded.length ∧
      s = { encoded := write encoded 0 m.bytes, offset := m.bytes.length } := by
  have hfits : m.StringsFit := stringsFit_of_ok h
  have hle : m.bytes.length ≤ encoded.length := by
    rcases (encodeFields_writes m.number.layout m.fields hfits).only _ s h with hle | ⟨hnil, -⟩
    · simpa [Method.bytes] using hle
    · rw [Method.bytes, hnil]
      exact Nat.zero_le _
  refine ⟨hfits, hle, ?_⟩
  exact Except.ok.inj (h.symm.trans (encodeMethod_fits hfits hle))

/-- A method is read from its bytes, whatever follows. -/
theorem decodeMethod_reads {m : Method} (h : m.StringsFit) (ht : m.TablesFit) (rest : Bytes) :
    decodeMethod m.number.id (m.bytes ++ rest) = .ok m := by
  have hread := decodeFields_reads m.number.layout m.fields h ht ⟨m.bytes ++ rest, 0⟩ (by simp)
    (by simp [Method.bytes])
  simp only [decodeMethod, MethodNumber.ofId_id, hread, ok_bind]
  rfl

/-- A method whose tables fit is either refused, or written to the front of the buffer and
decoded to the same method, whatever follows it. -/
theorem method_roundtrip (m : Method) (ht : m.TablesFit) (encoded : Bytes) (s : Buffer)
    (h : encodeMethod m encoded = .ok s) :
    s.offset ≤ encoded.length ∧ s.encoded.length = encoded.length ∧
      s.encoded.drop s.offset = encoded.drop s.offset ∧
      ∀ rest, decodeMethod m.number.id (s.encoded.take s.offset ++ rest) = .ok m := by
  obtain ⟨hfits, hle, rfl⟩ := encodeMethod_ok h
  have hzero : 0 + m.bytes.length ≤ encoded.length := by omega
  refine ⟨hle, length_write hzero, ?_, fun rest => ?_⟩
  · simpa using drop_write m.bytes (Nat.zero_le encoded.length)
  · have htake : (write encoded 0 m.bytes).take m.bytes.length = m.bytes := by
      simpa using take_write_end m.bytes (Nat.zero_le encoded.length)
    rw [htake]
    exact decodeMethod_reads hfits ht rest

/-- `basic.consume` with a table of arguments. -/
theorem method_roundtrip_consume :
    ∃ m : Method, m.number = .basicConsume ∧ m.TablesFit ∧
      ∃ s, encodeMethod m (List.replicate 32 0) = .ok s ∧ s.offset = 14 ∧
        decodeMethod 0x003C0014 (s.encoded.take s.offset) = .ok m := by
  let m : Method := ⟨.basicConsume, ((0 : UInt16), ([113] : Bytes), ([] : Bytes),
    (fun i => i = 1 : Fin 4 → Bool), ([.mk [120] (.boolean true)] : Table), ())⟩
  have hfits : m.TablesFit := by
    refine ⟨trivial, trivial, trivial, trivial, ?_, trivial⟩
    simp [tableFits, Fits, entriesFit, FieldValue.Fits, entriesBytes, valueBytes]
  have h := (method_roundtrip m hfits (List.replicate 32 0) _ rfl).2.2.2 []
  rw [List.append_nil] at h
  exact ⟨m, rfl, hfits, _, rfl, rfl, h⟩

end Amqp
