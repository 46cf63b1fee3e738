/-
# Frames of `librabbitmq/amqp_connection.c`

A frame is a type, a channel, the size of the payload, the payload and an end marker.
`amqp_frame_to_bytes` writes it into the outbound buffer of the connection: the payload
first, then its size in front of it.  It does not check the size of the buffer everywhere;
`Failure.undefined` is a write behind its end.
-/
import Pungoo.AmqpProperties

namespace Amqp

open Wire Codec Failing

/-! ## Frames -/

/-- The union `payload` of `amqp_frame_t`, with the frame type that selects its member. -/
inductive Payload
  | method (m : Method)
  | header (bodySize : UInt64) (properties : Properties)
  | body (fragment : Bytes)
  | heartbeat
  | protocolHeader (transportHigh transportLow protocolVersionMajor protocolVersionMinor : UInt8)

/-- `amqp_frame_t`. -/
structure Frame where
  channel : UInt16
  payload : Payload

/-- `HEADER_SIZE`. -/
def headerSize : ℕ := 7

/-- `FOOTER_SIZE`. -/
def footerSize : ℕ := 1

/-- `AMQP_FRAME_END`. -/
def frameEnd : UInt8 := 206

/-- `frame_type`: `AMQP_FRAME_*`, or `AMQP_PSEUDOFRAME_PROTOCOL_HEADER`. -/
def Payload.frameType : Payload → UInt8
  | .method _ => 1
  | .header _ _ => 2
  | .body _ => 3
  | .heartbeat => 8
  | .protocolHeader _ _ _ _ => 'A'.toUInt8

/-! ## The encoder -/

/-- A write at a fixed offset, `amqp_e8`, `amqp_e16`, `amqp_e32`, `amqp_e64` or `memcpy`. -/
def poke (o : ℕ) (bs buffer : Bytes) : Except Failure Bytes :=
  if o + bs.length ≤ buffer.length then .ok (write buffer o bs) else .error .undefined

/-- An encoder that gets the part of the buffer from `o` to the footer.  The size of that
part is unsigned: it is huge where the buffer is too short, which counts as undefined here.  There
`amqp_encode_method` may still refuse its arguments before it writes; the frames below are sent
in buffers that are not that short. -/
def encodeInto (o : ℕ) (encode : Bytes → Except Status Buffer) (buffer : Bytes) :
    Except Failure (Bytes × ℕ) :=
  if buffer.length < o + footerSize then .error .undefined
  else do
    let s ← orFail (encode (slice buffer o (buffer.length - o - footerSize)))
    pure (write buffer o s.encoded, s.offset)

/-- The payload of `amqp_frame_to_bytes`, with its size `out_frame_len`. -/
def Payload.toBytes (payload : Payload) (buffer : Bytes) : Except Failure (Bytes × ℕ) :=
  match payload with
  | .body fragment => do
    let out ← poke headerSize fragment buffer
    pure (out, fragment.length)
  | .method m => do
    let out ← poke headerSize (be 4 m.number.id.toNat) buffer
    let (out, res) ← encodeInto (headerSize + 4) (encodeMethod m) out
    pure (out, res + 4)
  | .header bodySize properties => do
    let out ← poke headerSize (be 2 properties.classId.toNat) buffer
    -- weight
    let out ← poke (headerSize + 2) (be 2 0) out
    let out ← poke (headerSize + 4) (be 8 bodySize.toNat) out
    let (out, res) ← encodeInto (headerSize + 12) (encodeProperties properties) out
    pure (out, res + 12)
  | .heartbeat => .ok (buffer, 0)
  | .protocolHeader _ _ _ _ => .error (.status .invalidParameter)

/-- `amqp_frame_to_bytes(frame, buffer, &encoded)`: the buffer afterwards, and the length of
`encoded`, which starts where the buffer does. -/
def frameToBytes (frame : Frame) (buffer : Bytes) : Except Failure (Bytes × ℕ) := do
  let out ← poke 0 (be 1 frame.payload.frameType.toNat) buffer
  let out ← poke 1 (be 2 frame.channel.toNat) out
  let (out, outFrameLen) ← frame.payload.toBytes out
  let out ← poke 3 (be 4 outFrameLen) out
  let out ← poke (headerSize + outFrameLen) [frameEnd] out
  pure (out, outFrameLen + headerSize + footerSize)

/-! ## The format -/

/-- A payload on the wire. -/
def Payload.bytes : Payload → Bytes
  | .method m => be 4 m.number.id.toNat ++ m.bytes
  | .header bodySize properties =>
    be 2 properties.classId.toNat ++ (be 2 0 ++ (be 8 bodySize.toNat ++ properties.bytes))
  | .body fragment => fragment
  | .heartbeat => []
  | .protocolHeader _ _ _ _ => []

/-- A frame on the wire. -/
def frameBytes (frame : Frame) : Bytes :=
  be 1 frame.payload.frameType.toNat ++ be 2 frame.channel.toNat ++
    (be 4 frame.payload.bytes.length ++ frame.payload.bytes) ++ [frameEnd]

/-- A payload the encoder takes: strings that fit, a class that has properties. -/
def Payload.Encodable : Payload → Prop
  | .method m => m.StringsFit
  | .header _ properties => properties.classId ∈ knownClasses ∧ properties.StringsFit
  | .body _ => True
  | .heartbeat => True
  | .protocolHeader _ _ _ _ => False

/-- The flags of a content header are flags of properties. -/
def Payload.Named : Payload → Prop
  | .header _ properties => NamedFlags properties.flags
  | .method _ | .body _ | .heartbeat | .protocolHeader _ _ _ _ => True

theorem length_frameBytes (frame : Frame) :
    (frameBytes frame).length = frame.payload.bytes.length + headerSize + footerSize := by
  simp [frameBytes, headerSize, footerSize]
  omega

/-! ## Writes at fixed offsets -/

variable {o p n : ℕ} {head bs buffer out : Bytes}

theorem poke_fits (h : o + bs.length ≤ buffer.length) :
    poke o bs buffer = .ok (write buffer o bs) := if_pos h

theorem poke_of_lt (h : buffer.length < o + bs.length) :
    poke o bs buffer = .error .undefined := if_neg (by omega)

theorem poke_eq_ok (h : poke o bs buffer = .ok out) :
    o + bs.length ≤ buffer.length ∧ out = write buffer o bs := by
  rcases Nat.lt_or_ge buffer.length (o + bs.length) with hlt | hfits
  · rw [poke_of_lt hlt] at h
    exact absurd h (by simp)
  · rw [poke_fits hfits] at h
    exact ⟨hfits, (Except.ok.inj h).symm⟩

/-- Two writes, the second where the first ends, are one. -/
theorem poke_bind_poke {α : Type} (hp : p = o + head.length)
    (more : Bytes → Except Failure α) :
    (poke o head buffer >>= fun out => poke p bs out >>= more) =
      poke o (head ++ bs) buffer >>= more := by
  subst hp
  rcases Nat.lt_or_ge buffer.length (o + (head ++ bs).length) with hlt | hfits
  · rw [poke_of_lt hlt, error_bind]
    rcases Nat.lt_or_ge buffer.length (o + head.length) with hlt' | hfits'
    · rw [poke_of_lt hlt', error_bind]
    · rw [poke_fits hfits', ok_bind, poke_of_lt, error_bind]
      simpa [length_write hfits', Nat.add_assoc] using hlt
  · have hboth : o + head.length + bs.length ≤ buffer.length := by
      simpa [Nat.add_assoc] using hfits
    have hhead : o + head.length ≤ buffer.length := by omega
    rw [poke_fits hfits, poke_fits hhead, ok_bind, ok_bind,
      poke_fits (by rw [length_write hhead]; exact hboth), ok_bind, write_write_after hboth]

section EncodeInto

variable {encode : Bytes → Except Status Buffer}

/-- An encoder of `bs` behind a write of `head` writes both. -/
theorem encodeInto_fits (hp : p = o + head.length)
    (hencode : ∀ encoded : Bytes, bs.length ≤ encoded.length →
      encode encoded = .ok { encoded := write encoded 0 bs, offset := bs.length })
    (h : o + (head ++ bs).length + footerSize ≤ buffer.length) :
    (poke o head buffer >>= encodeInto p encode) =
      .ok (write buffer o (head ++ bs), bs.length) := by
  subst hp
  rw [List.length_append] at h
  have hhead : o + head.length ≤ buffer.length := by omega
  have hlen : (write buffer o head).length = buffer.length := length_write hhead
  have hbs : bs.length ≤ buffer.length - (o + head.length) - footerSize := by omega
  have hpart : (slice (write buffer o head) (o + head.length)
      (buffer.length - (o + head.length) - footerSize)).length =
        buffer.length - (o + head.length) - footerSize := length_slice (by omega)
  have hcopy : write (write buffer o head) (o + head.length)
      (write (slice (write buffer o head) (o + head.length)
        (buffer.length - (o + head.length) - footerSize)) 0 bs) = write buffer o (head ++ bs) := by
    rw [write_slice (by omega) hbs, write_write_after (by omega)]
  rw [poke_fits hhead, ok_bind, encodeInto, hlen, if_neg (by omega),
    hencode _ (hpart.symm ▸ hbs)]
  simp only [orFail, ok_bind, hcopy]
  rfl

/-- An encoder that returns got a part of the buffer. -/
theorem encodeInto_eq_ok (h : encodeInto o encode buffer = .ok (out, n)) :
    o + footerSize ≤ buffer.length ∧ ∃ s,
      encode (slice buffer o (buffer.length - o - footerSize)) = .ok s ∧ n = s.offset := by
  unfold encodeInto at h
  split at h
  next => exact absurd h (by simp)
  next hlong =>
    obtain ⟨s, hs, hpure⟩ := bind_eq_ok_iff.mp h
    obtain ⟨-, rfl⟩ := Prod.mk.inj (Except.ok.inj hpure)
    exact ⟨by omega, s, orFail_eq_ok.mp hs, rfl⟩

theorem encodeInto_eq_undefined (h : encodeInto o encode buffer = .error .undefined) :
    buffer.length < o + footerSize := by
  unfold encodeInto at h
  split at h
  next hshort => exact hshort
  next =>
    rcases bind_eq_error_iff.mp h with h | ⟨s, -, h⟩
    · exact absurd h orFail_ne_undefined
    · exact absurd h (by simp [pure, Except.pure])

end EncodeInto

/-! ## The encoder writes the format -/

/-- Where the payload and the footer fit, the payload is written behind the header. -/
theorem toBytes_fits {payload : Payload} (h : payload.Encodable) (hnamed : payload.Named)
    (hfits : headerSize + payload.bytes.length + footerSize ≤ buffer.length) :
    payload.toBytes buffer =
      .ok (write buffer headerSize payload.bytes, payload.bytes.length) := by
  cases payload with
  | method m =>
    have hargs := encodeInto_fits (p := headerSize + 4) (by simp)
      (fun encoded hlen => encodeMethod_fits h hlen) hfits
    simp only [Payload.toBytes]
    rw [← bind_assoc, hargs]
    simp [Payload.bytes, Nat.add_comm]
  | header bodySize p =>
    have hbytes : (Payload.header bodySize p).bytes =
        (be 2 p.classId.toNat ++ be 2 0 ++ be 8 bodySize.toNat) ++ p.bytes := by
      simp [Payload.bytes]
    rw [hbytes] at hfits ⊢
    have hargs := encodeInto_fits (p := headerSize + 12) (by simp)
      (fun encoded hlen => encodeProperties_fits h.1 hnamed h.2 hlen) hfits
    simp only [Payload.toBytes]
    rw [poke_bind_poke (by simp), poke_bind_poke (by simp), ← bind_assoc, hargs]
    simp only [ok_bind, List.length_append, length_be, Nat.add_comm]
    rfl
  | body fragment =>
    have hfragment : headerSize + fragment.length ≤ buffer.length := by
      simp only [Payload.bytes] at hfits
      omega
    simp only [Payload.toBytes, poke_fits hfragment]
    rfl
  | heartbeat =>
    have hempty : write buffer headerSize [] = buffer := write_nil (by omega)
    simp [Payload.toBytes, Payload.bytes, hempty]
  | protocolHeader => exact absurd h (by simp [Payload.Encodable])

/-- The header in front of a payload, and the end marker behind it. -/
theorem write_frame {kind size payload : Bytes} (hkind : kind.length = 3)
    (hsize : size.length = 4) (h : payload.length + 8 ≤ buffer.length) :
    write (write (write (write buffer 0 kind) headerSize payload) 3 size)
        (headerSize + payload.length) [frameEnd] =
      write buffer 0 (kind ++ (size ++ payload) ++ [frameEnd]) := by
  have hlen : (write buffer 0 kind).length = buffer.length := length_write (by omega)
  have hpatch : write (write (write buffer 0 kind) headerSize payload) 3 size =
      write (write buffer 0 kind) 3 (size ++ payload) := by
    have hoffset : headerSize = 3 + size.length := by rw [hsize]; rfl
    rw [hoffset, write_write_before (by omega)]
  have hjoin : write (write buffer 0 kind) 3 (size ++ payload) =
      write buffer 0 (kind ++ (size ++ payload)) := by
    have hoffset : 3 = 0 + kind.length := by omega
    rw [hoffset, write_write_after (by rw [List.length_append]; omega)]
  have hend : headerSize + payload.length = 0 + (kind ++ (size ++ payload)).length := by
    simp only [List.length_append, headerSize]
    omega
  rw [hpatch, hjoin, hend, write_write_after]
  simp only [List.length_append, List.length_singleton]
  omega

/-- A frame that fits is written to the front of the buffer. -/
theorem frameToBytes_fits {frame : Frame} (h : frame.payload.Encodable)
    (hnamed : frame.payload.Named) (hfits : (frameBytes frame).length ≤ buffer.length) :
    frameToBytes frame buffer =
      .ok (write buffer 0 (frameBytes frame), (frameBytes frame).length) := by
  obtain ⟨channel, payload⟩ := frame
  rw [length_frameBytes] at hfits ⊢
  simp only [headerSize, footerSize] at hfits
  have hkind : 0 + (be 1 payload.frameType.toNat ++ be 2 channel.toNat).length ≤
      buffer.length := by
    simp only [List.length_append, length_be]
    omega
  have hlen : ∀ bs : Bytes, headerSize + bs.length ≤ buffer.length →
      (write (write buffer 0 (be 1 payload.frameType.toNat ++ be 2 channel.toNat))
        headerSize bs).length = buffer.length := by
    intro bs hbs
    rw [length_write (by rw [length_write hkind]; exact hbs), length_write hkind]
  have hpayload : headerSize + payload.bytes.length ≤ buffer.length := by
    simp only [headerSize]
    omega
  have hpatch : 3 + (be 4 payload.bytes.length).length ≤ (write (write buffer 0
      (be 1 payload.frameType.toNat ++ be 2 channel.toNat)) headerSize
        payload.bytes).length := by
    rw [hlen _ hpayload, length_be]
    omega
  simp only [frameToBytes]
  rw [poke_bind_poke (by simp), poke_fits hkind, ok_bind,
    toBytes_fits h hnamed (by rw [length_write hkind]; simp only [headerSize, footerSize]; omega)]
  simp only [ok_bind]
  rw [poke_fits hpatch, ok_bind,
    poke_fits (by rw [length_write hpatch, hlen _ hpayload]; simp only [headerSize,
      List.length_singleton]; omega), ok_bind, write_frame (by simp) (by simp) (by omega)]
  rfl

/-! ## When the encoder returns -/

/-- What an encoder of a payload keeps: it stays in the buffer it got. -/
def Stays (encode : Bytes → Except Status Buffer) : Prop :=
  ∀ encoded s, encode encoded = .ok s →
    s.offset ≤ encoded.length ∧ s.encoded.length = encoded.length

theorem encodeMethod_stays (m : Method) : Stays (encodeMethod m) := by
  intro encoded s h
  obtain ⟨-, hle, rfl⟩ := encodeMethod_ok h
  exact ⟨hle, length_write (by omega)⟩

/-- The words of flags, whatever the flags are. -/
theorem encodeFlags_writes_some (passes : ℕ) (flags : UInt32) :
    ∃ bs, Writes (encodeFlags passes flags) bs := by
  induction passes generalizing flags with
  | zero => exact ⟨[], Writes.nil⟩
  | succ passes ih =>
    obtain ⟨bs, hbs⟩ := ih (flags >>> 16)
    by_cases hmore : flags >>> 16 ≠ 0
    · have hword := (encode16_writes .badAmqpData ((flags &&& 0xFFFE).toUInt16 ||| 1)).bind hbs
      exact ⟨_, by simpa only [encodeFlags, if_pos hmore] using hword⟩
    · have hword := (encode16_writes .badAmqpData (flags &&& 0xFFFE).toUInt16).bind Writes.nil
      exact ⟨_, by simpa only [encodeFlags, if_neg hmore, pure, Except.pure] using hword⟩

theorem encodeProperties_stays (p : Properties) : Stays (encodeProperties p) := by
  intro encoded s h
  obtain ⟨u, hu, hmore⟩ := bind_eq_ok_iff.mp h
  split at hmore
  next hknown =>
    obtain ⟨bs, hflags⟩ := encodeFlags_writes_some 2 p.flags
    have hwrites := hflags.bind (encodeFlagged_writes p.flags (propertyLayout p.classId) p.values
      (flaggedStringsFit_of_ok p.flags hmore))
    have hok : (encodeFlags 2 p.flags ⟨encoded, 0⟩ >>=
        encodeFlagged p.flags (propertyLayout p.classId) p.values) = .ok s :=
      bind_eq_ok_iff.mpr ⟨u, hu, hmore⟩
    rcases hwrites.only _ s hok with hle | ⟨-, rfl⟩
    · obtain rfl := Except.ok.inj (hok.symm.trans (hwrites.fits _ hle))
      exact ⟨by simpa using hle, length_write hle⟩
    · exact ⟨Nat.zero_le _, rfl⟩
  next => exact absurd hmore (by simp)

theorem encodeInto_stays {encode : Bytes → Except Status Buffer} (hstays : Stays encode)
    (h : encodeInto o encode buffer = .ok (out, n)) :
    o + n + footerSize ≤ buffer.length ∧ out.length = buffer.length := by
  unfold encodeInto at h
  split at h
  next => exact absurd h (by simp)
  next hlong =>
    obtain ⟨s, hs, hpure⟩ := bind_eq_ok_iff.mp h
    obtain ⟨rfl, rfl⟩ := Prod.mk.inj (Except.ok.inj hpure)
    obtain ⟨hoffset, hlen⟩ := hstays _ s (orFail_eq_ok.mp hs)
    have hpart : (slice buffer o (buffer.length - o - footerSize)).length =
        buffer.length - o - footerSize := length_slice (by omega)
    exact ⟨by omega, length_write (by omega)⟩

/-- An encoder that returns takes the payload, and knows its size. -/
theorem toBytes_eq_ok {payload : Payload} (hnamed : payload.Named)
    (h : payload.toBytes buffer = .ok (out, n)) :
    payload.Encodable ∧ n = payload.bytes.length := by
  cases payload with
  | method m =>
    obtain ⟨t, ht, h⟩ := bind_eq_ok_iff.mp h
    obtain ⟨⟨u, k⟩, hu, hpure⟩ := bind_eq_ok_iff.mp h
    obtain ⟨-, rfl⟩ := Prod.mk.inj (Except.ok.inj hpure)
    obtain ⟨-, s, hs, rfl⟩ := encodeInto_eq_ok hu
    obtain ⟨hstrings, -, rfl⟩ := encodeMethod_ok hs
    exact ⟨hstrings, by simp [Payload.bytes, Nat.add_comm]⟩
  | header bodySize p =>
    simp only [Payload.toBytes] at h
    rw [poke_bind_poke (by simp), poke_bind_poke (by simp)] at h
    obtain ⟨t, ht, h⟩ := bind_eq_ok_iff.mp h
    obtain ⟨⟨u, k⟩, hu, hpure⟩ := bind_eq_ok_iff.mp h
    obtain ⟨-, rfl⟩ := Prod.mk.inj (Except.ok.inj hpure)
    obtain ⟨-, s, hs, rfl⟩ := encodeInto_eq_ok hu
    obtain ⟨hknown, hstrings, -, rfl⟩ := encodeProperties_ok hs hnamed
    refine ⟨⟨hknown, hstrings⟩, ?_⟩
    simp only [Payload.bytes, List.length_append, length_be]
    omega
  | body fragment =>
    obtain ⟨t, -, hpure⟩ := bind_eq_ok_iff.mp h
    obtain ⟨-, rfl⟩ := Prod.mk.inj (Except.ok.inj hpure)
    exact ⟨trivial, rfl⟩
  | heartbeat =>
    obtain ⟨-, rfl⟩ := Prod.mk.inj (Except.ok.inj h)
    exact ⟨trivial, rfl⟩
  | protocolHeader => exact absurd h (by simp [Payload.toBytes])

/-- The bytes of the buffer that the encoder of a frame uses without a check. -/
def Payload.room : Payload → ℕ
  | .method _ => 12
  | .header _ _ => 20
  | .body fragment => fragment.length + 8
  | .heartbeat => 8
  | .protocolHeader _ _ _ _ => 3

/-- A fixed part and the part of an encoder behind it: with room for the fixed part and the
footer they stay in the buffer, and leave some for the end marker. -/
theorem encodeInto_room {encode : Bytes → Except Status Buffer} (hstays : Stays encode)
    (hp : o + head.length = p) (h : p + footerSize ≤ buffer.length)
    {x : Except Failure (Bytes × ℕ)}
    (hx : x = poke o head buffer >>= fun out => encodeInto p encode out >>= fun y =>
      pure (y.1, y.2 + head.length)) :
    x ≠ .error .undefined ∧ ∀ out n, x = .ok (out, n) →
      o + n + footerSize ≤ buffer.length ∧ out.length = buffer.length := by
  subst hp hx
  have hhead : o + head.length ≤ buffer.length := by omega
  rw [poke_fits hhead, ok_bind]
  constructor
  · intro hundefined
    rcases bind_eq_error_iff.mp hundefined with hundefined | ⟨y, -, hundefined⟩
    · have hlt := encodeInto_eq_undefined hundefined
      rw [length_write hhead] at hlt
      omega
    · exact absurd hundefined (by simp [pure, Except.pure])
  · intro out n hok
    obtain ⟨⟨u, k⟩, hu, hpure⟩ := bind_eq_ok_iff.mp hok
    obtain ⟨rfl, rfl⟩ := Prod.mk.inj (Except.ok.inj hpure)
    obtain ⟨hroom, hlen⟩ := encodeInto_stays hstays hu
    rw [length_write hhead] at hroom hlen
    exact ⟨by omega, hlen⟩

/-- Without that room they do not. -/
theorem encodeInto_of_lt {encode : Bytes → Except Status Buffer} {α : Type}
    (h : buffer.length < p + footerSize) (more : Bytes × ℕ → Except Failure α) :
    (poke o head buffer >>= fun out => encodeInto p encode out >>= more) =
      .error .undefined := by
  rcases Nat.lt_or_ge buffer.length (o + head.length) with hlt | hfits
  · rw [poke_of_lt hlt, error_bind]
  · rw [poke_fits hfits, ok_bind, encodeInto, if_pos (by rw [length_write hfits]; exact h),
      error_bind]

/-- With its room the encoder of a payload stays in the buffer. -/
theorem toBytes_room {payload : Payload} (h : payload.room ≤ buffer.length) :
    payload.toBytes buffer ≠ .error .undefined ∧
      ∀ out n, payload.toBytes buffer = .ok (out, n) →
        headerSize + n + footerSize ≤ buffer.length ∧ out.length = buffer.length := by
  cases payload with
  | method m =>
    exact encodeInto_room (encodeMethod_stays m) (by simp [headerSize]) h rfl
  | header bodySize p =>
    simp only [Payload.toBytes]
    rw [poke_bind_poke (by simp), poke_bind_poke (by simp)]
    exact encodeInto_room (encodeProperties_stays p) (by simp [headerSize]) h rfl
  | body fragment =>
    have hfits : headerSize + fragment.length ≤ buffer.length := by
      simp only [Payload.room] at h
      simp only [headerSize]
      omega
    simp only [Payload.toBytes, poke_fits hfits, ok_bind]
    refine ⟨by simp [pure, Except.pure], fun out n hok => ?_⟩
    obtain ⟨rfl, rfl⟩ := Prod.mk.inj (Except.ok.inj hok)
    simp only [Payload.room] at h
    exact ⟨by simp only [headerSize, footerSize]; omega, length_write hfits⟩
  | heartbeat =>
    refine ⟨by simp [Payload.toBytes], fun out n hok => ?_⟩
    obtain ⟨rfl, rfl⟩ := Prod.mk.inj (Except.ok.inj hok)
    exact ⟨h, rfl⟩
  | protocolHeader => exact ⟨by simp [Payload.toBytes], by simp [Payload.toBytes]⟩

/-- Without it the encoder of a payload leaves the buffer, or leaves nothing of it for the end
marker. -/
theorem toBytes_of_lt_room {payload : Payload} (hshort : buffer.length < payload.room)
    (hkind : 3 ≤ buffer.length) :
    payload.toBytes buffer = .error .undefined ∨
      ∃ out n, payload.toBytes buffer = .ok (out, n) ∧ out.length = buffer.length ∧
        buffer.length < headerSize + n + footerSize := by
  cases payload with
  | method m =>
    left
    exact encodeInto_of_lt hshort _
  | header bodySize p =>
    left
    simp only [Payload.toBytes]
    rw [poke_bind_poke (by simp), poke_bind_poke (by simp)]
    exact encodeInto_of_lt hshort _
  | body fragment =>
    simp only [Payload.room] at hshort
    rcases Nat.lt_or_ge buffer.length (headerSize + fragment.length) with hlt | hfits
    · left
      simp only [Payload.toBytes, poke_of_lt hlt, error_bind]
    · right
      refine ⟨_, fragment.length, ?_, length_write hfits, ?_⟩
      · simp only [Payload.toBytes, poke_fits hfits]
        rfl
      · simp only [headerSize, footerSize]
        omega
  | heartbeat => exact .inr ⟨buffer, 0, rfl, rfl, hshort⟩
  | protocolHeader => exact absurd hkind (by simp only [Payload.room] at hshort; omega)

/-! ## Frames in a buffer -/

/-- The steps behind the payload. -/
theorem frameToBytes_eq (frame : Frame) (buffer : Bytes) :
    frameToBytes frame buffer =
      poke 0 (be 1 frame.payload.frameType.toNat ++ be 2 frame.channel.toNat) buffer >>=
        fun out => frame.payload.toBytes out >>= fun x =>
          poke 3 (be 4 x.2) x.1 >>= fun out =>
            poke (headerSize + x.2) [frameEnd] out >>= fun out =>
              pure (out, x.2 + headerSize + footerSize) := by
  simp only [frameToBytes]
  rw [poke_bind_poke (by simp)]

/-- A frame is either written to the front of the buffer, or refused, or it has no room and
the encoder writes behind the end of the buffer. -/
theorem frameToBytes_undefined_iff (frame : Frame) (buffer : Bytes) :
    frameToBytes frame buffer = .error .undefined ↔ buffer.length < frame.payload.room := by
  rw [frameToBytes_eq]
  have hkind :
      0 + (be 1 frame.payload.frameType.toNat ++ be 2 frame.channel.toNat).length = 3 := by simp
  have hthree : 3 ≤ frame.payload.room := by
    cases frame.payload <;> simp [Payload.room]
  constructor
  · intro h
    by_contra hroom
    have hfits : 0 + (be 1 frame.payload.frameType.toNat ++ be 2 frame.channel.toNat).length ≤
      buffer.length := by omega
    rw [poke_fits hfits, ok_bind] at h
    have hlen := length_write hfits
    obtain ⟨hne, hok⟩ := toBytes_room (show frame.payload.room ≤ (write buffer 0
      (be 1 frame.payload.frameType.toNat ++ be 2 frame.channel.toNat)).length by omega)
    rcases bind_eq_error_iff.mp h with h | ⟨⟨out, n⟩, hout, h⟩
    · exact hne h
    · obtain ⟨hroom', hlen'⟩ := hok out n hout
      have hpatch : 3 + (be 4 n).length ≤ out.length := by
        simp only [headerSize, footerSize, length_be] at hroom' ⊢
        omega
      rw [poke_fits hpatch, ok_bind, poke_fits (by
        rw [length_write hpatch, hlen']; exact hroom'), ok_bind] at h
      exact absurd h (by simp [pure, Except.pure])
  · intro hshort
    rcases Nat.lt_or_ge buffer.length 3 with hlt | hge
    · rw [poke_of_lt (by omega), error_bind]
    · have hfits : 0 + (be 1 frame.payload.frameType.toNat ++ be 2 frame.channel.toNat).length ≤
        buffer.length := by omega
      have hlen := length_write hfits
      rw [poke_fits hfits, ok_bind]
      rcases toBytes_of_lt_room (show (write buffer 0 (be 1 frame.payload.frameType.toNat ++
        be 2 frame.channel.toNat)).length < frame.payload.room by omega) (by omega)
        with h | ⟨out, n, h, hout, hn⟩
      · rw [h, error_bind]
      · rw [h, ok_bind]
        simp only
        rcases Nat.lt_or_ge out.length (3 + (be 4 n).length) with hlt | hge'
        · rw [poke_of_lt hlt, error_bind]
        · rw [poke_fits hge', ok_bind, poke_of_lt, error_bind]
          rw [length_write hge', hout]
          exact hn

/-- An encoder that returns had room. -/
theorem room_of_ok {frame : Frame} (h : frameToBytes frame buffer = .ok (out, n)) :
    frame.payload.room ≤ buffer.length := by
  by_contra hlt
  rw [(frameToBytes_undefined_iff frame buffer).mpr (by omega)] at h
  exact absurd h (by simp)

/-- An encoder that returns has neither lengthened nor shortened the buffer. -/
theorem frameToBytes_length {frame : Frame} (h : frameToBytes frame buffer = .ok (out, n)) :
    out.length = buffer.length := by
  have hroom := room_of_ok h
  rw [frameToBytes_eq] at h
  obtain ⟨out₁, h₁, h⟩ := bind_eq_ok_iff.mp h
  obtain ⟨⟨out₂, k⟩, h₂, h⟩ := bind_eq_ok_iff.mp h
  obtain ⟨out₃, h₃, h⟩ := bind_eq_ok_iff.mp h
  obtain ⟨out₄, h₄, h⟩ := bind_eq_ok_iff.mp h
  obtain ⟨rfl, -⟩ := Prod.mk.inj (Except.ok.inj h)
  obtain ⟨hfits₁, rfl⟩ := poke_eq_ok h₁
  obtain ⟨hfits₃, rfl⟩ := poke_eq_ok h₃
  obtain ⟨hfits₄, rfl⟩ := poke_eq_ok h₄
  obtain ⟨-, hlen⟩ := (toBytes_room (by rw [length_write hfits₁]; exact hroom)).2 _ _ h₂
  rw [length_write hfits₄, length_write hfits₃, hlen, length_write hfits₁]

/-- The encoder returns only for a frame that fits, which it has written to the front of the
buffer. -/
theorem frameToBytes_eq_ok {frame : Frame} (hnamed : frame.payload.Named)
    (h : frameToBytes frame buffer = .ok (out, n)) :
    frame.payload.Encodable ∧ (frameBytes frame).length ≤ buffer.length ∧
      out = write buffer 0 (frameBytes frame) ∧ n = (frameBytes frame).length := by
  have hroom := room_of_ok h
  have hok := h
  rw [frameToBytes_eq] at hok
  obtain ⟨out₁, h₁, hok⟩ := bind_eq_ok_iff.mp hok
  obtain ⟨⟨out₂, k⟩, h₂, -⟩ := bind_eq_ok_iff.mp hok
  obtain ⟨hfits₁, rfl⟩ := poke_eq_ok h₁
  obtain ⟨hencodable, hk⟩ := toBytes_eq_ok hnamed h₂
  obtain ⟨hstays, -⟩ := (toBytes_room (by rw [length_write hfits₁]; exact hroom)).2 _ _ h₂
  rw [length_write hfits₁, hk] at hstays
  have hle : (frameBytes frame).length ≤ buffer.length := by
    rw [length_frameBytes]
    omega
  obtain ⟨rfl, rfl⟩ := Prod.mk.inj
    (Except.ok.inj (h.symm.trans (frameToBytes_fits hencodable hnamed hle)))
  exact ⟨hencodable, hle, rfl, rfl⟩

end Amqp
