/-
# The inbound byte stream

What `amqp_handle_input` is for: bytes arrive one at a time, and a frame comes out when its
last byte is there.  `absorb` is that machine; its state is the bytes of the next frame so
far.  `handleInput` follows it (`handleInput_follows`), so what a connection receives does
not depend on how the stream is divided.

On a new connection the header of the first frame is read with one byte of the payload.  That
byte is not copied to the block of the frame; `first` is the byte the block has in its place.
-/
import Pungoo.AmqpInbound

namespace Amqp

open Wire Codec Failing Chunks

/-! ## A frame from its bytes -/

/-- A method from the bytes between the header of a frame and its end marker.  `undefined` is
a frame without such bytes. -/
def parseMethod (content : Bytes) : Except Failure (Option Payload) :=
  if content.length = 0 then .error .undefined
  else if content.length < 4 then .error (.status .unknownMethod)
  else do
    let m ← orFail (decodeMethod (UInt32.ofNat (ofBe (slice content 0 4))) (content.drop 4))
    pure (some (.method m))

/-- A content header from these bytes.  `undefined` is a header that is too short. -/
def parseHeader (content : Bytes) : Except Failure (Option Payload) :=
  if content.length < 12 then .error .undefined
  else do
    let properties ← decodeProperties (UInt16.ofNat (ofBe (slice content 0 2)))
      (content.drop 12)
    pure (some (.header (UInt64.ofNat (ofBe (slice content 4 8))) properties))

/-- A payload from these bytes; `none` if the type is unknown. -/
def parsePayload (frameType : ℕ) (content : Bytes) : Except Failure (Option Payload) :=
  match frameType with
  | 1 => parseMethod content
  | 2 => parseHeader content
  | 3 => .ok (some (.body content))
  | 8 => .ok (some .heartbeat)
  | _ => .ok none

/-- The bytes between the header of a frame and its end marker. -/
def content (bytes : Bytes) : Bytes :=
  slice bytes headerSize (bytes.length - headerSize - footerSize)

/-- A frame from all of its bytes. -/
def parseFrame (bytes : Bytes) : Except Failure (Option Frame) :=
  if slice bytes (bytes.length - 1) 1 ≠ [frameEnd] then .error (.status .badAmqpData)
  else do
    let payload ← parsePayload (ofBe (slice bytes 0 1)) (content bytes)
    pure (payload.map (Frame.mk (UInt16.ofNat (ofBe (slice bytes 1 2)))))

/-! ## The machine -/

/-- The bytes of the next frame that have arrived.  On a new connection `first` is the byte
that will stand in the place of the first byte of the payload. -/
structure Pending where
  first : Option UInt8
  bytes : Bytes
  deriving DecidableEq, Repr

/-- Between two frames. -/
def Pending.idle : Pending := { first := none, bytes := [] }

/-- A new connection. -/
def Pending.new (b : UInt8) : Pending := { first := some b, bytes := [] }

/-- The number of bytes of the header; on a new connection one more is waited for. -/
def Pending.headLength (p : Pending) : ℕ :=
  match p.first with
  | none => 7
  | some _ => 8

/-- With more bytes. -/
def Pending.append (p : Pending) (bs : Bytes) : Pending := { p with bytes := p.bytes ++ bs }

/-- The bytes of the frame as they stand in its block. -/
def Pending.received (p : Pending) : Bytes :=
  match p.first with
  | none => p.bytes
  | some b => p.bytes.set 7 b

/-- The size of a frame that its header announces, as `uint32_t`. -/
def announced (bytes : Bytes) : ℕ := (ofBe (slice bytes 3 4) + headerSize + footerSize) % 2 ^ 32

/-- The last byte of a frame is there. -/
def Pending.complete (p : Pending) : Except Failure (Option Frame × Pending) := do
  let frame ← parseFrame p.received
  pure (frame, Pending.idle)

/-- The header is there: its size is checked.  `undefined` is a size that wraps around. -/
def Pending.accept (frameMax : ℕ) (p : Pending) : Except Failure (Option Frame × Pending) :=
  let size := announced p.bytes
  if frameMax < size then .error (.status .badAmqpData)
  else if size = 0 then .error (.status .noMemory)
  else if size < headerSize + footerSize then .error .undefined
  else if p.bytes.length < size then .ok (none, p)
  else p.complete

/-- The protocol header that a server sends if it does not like the client's. -/
def Pending.isProtocolHeader (p : Pending) : Prop :=
  p.first ≠ none ∧ p.bytes.length = 8 ∧ p.bytes.take 4 = [65, 77, 81, 80]

instance (p : Pending) : Decidable p.isProtocolHeader := by
  unfold Pending.isProtocolHeader
  infer_instance

/-- The frame of a protocol header. -/
def protocolHeaderFrame (bytes : Bytes) : Frame where
  channel := 0
  payload := .protocolHeader (UInt8.ofNat (ofBe (slice bytes 4 1)))
    (UInt8.ofNat (ofBe (slice bytes 5 1))) (UInt8.ofNat (ofBe (slice bytes 6 1)))
    (UInt8.ofNat (ofBe (slice bytes 7 1)))

/-- The machine: one byte arrives. -/
def absorb (frameMax : ℕ) (p : Pending) (b : UInt8) : Except Failure (Option Frame × Pending) :=
  let p := p.append [b]
  if p.bytes.length < p.headLength then .ok (none, p)
  else if p.isProtocolHeader then .ok (some (protocolHeaderFrame p.bytes), Pending.idle)
  else p.accept frameMax

/-! ## Runs of the machine -/

section Runs

variable {frameMax : ℕ} {p : Pending} {bs : Bytes} {b : UInt8}

@[simp] theorem bytes_append : (p.append bs).bytes = p.bytes ++ bs := rfl

@[simp] theorem first_append : (p.append bs).first = p.first := rfl

@[simp] theorem headLength_append : (p.append bs).headLength = p.headLength := rfl

@[simp] theorem append_nil : p.append [] = p := by
  simp [Pending.append]

theorem append_append (bs cs : Bytes) : (p.append bs).append cs = p.append (bs ++ cs) := by
  simp [Pending.append]

theorem headLength_le : 7 ≤ p.headLength ∧ p.headLength ≤ 8 := by
  unfold Pending.headLength
  cases p.first <;> simp

/-- Once the header is there, later bytes do not change the announced size. -/
theorem announced_append {bytes : Bytes} (h : 7 ≤ bytes.length) (bs : Bytes) :
    announced (bytes ++ bs) = announced bytes := by
  unfold announced slice
  rw [List.drop_append_of_le_length (by omega), List.take_append_of_le_length (by
    rw [List.length_drop]; omega)]

/-- Bytes of a header that is not complete. -/
theorem run_header (h : p.bytes.length + bs.length < p.headLength) :
    run (absorb frameMax) p bs = ([], .ok (p.append bs)) := by
  induction bs generalizing p with
  | nil => simp
  | cons b bs ih =>
    rw [List.length_cons] at h
    have hstep : absorb frameMax p b = .ok (none, p.append [b]) := by
      unfold absorb
      exact if_pos (by simp; omega)
    rw [run_cons_ok hstep, ih (by simp; omega), append_append]
    rfl

/-- The byte that completes a header. -/
theorem run_header_end (frameMax : ℕ) (hne : bs ≠ [])
    (h : p.bytes.length + bs.length = p.headLength) :
    run (absorb frameMax) p bs =
      ofStep (if (p.append bs).isProtocolHeader then
          .ok (some (protocolHeaderFrame (p.append bs).bytes), Pending.idle)
        else (p.append bs).accept frameMax) := by
  obtain ⟨cs, b, rfl⟩ := (List.eq_nil_or_concat bs).resolve_left hne
  rw [List.concat_eq_append] at h ⊢
  rw [List.length_append, List.length_singleton] at h
  rw [run_concat (run_header (by omega))]
  unfold absorb
  rw [append_append]
  simp only [headLength_append, bytes_append, List.length_append, List.length_singleton]
  rw [if_neg (by omega)]

/-- The sizes a frame can have. -/
structure Pending.Admitted (frameMax : ℕ) (p : Pending) : Prop where
  header : p.headLength ≤ p.bytes.length
  other : ¬ p.isProtocolHeader
  least : headerSize + footerSize ≤ announced p.bytes
  most : announced p.bytes ≤ frameMax

theorem Pending.Admitted.append (h : p.Admitted frameMax) (bs : Bytes) :
    (p.append bs).Admitted frameMax := by
  have hseven : 7 ≤ p.bytes.length := Nat.le_trans headLength_le.1 h.header
  have hsame : announced (p.append bs).bytes = announced p.bytes := announced_append hseven bs
  refine ⟨?_, ?_, hsame ▸ h.least, hsame ▸ h.most⟩
  · have := h.header
    simp only [headLength_append, bytes_append, List.length_append]
    omega
  · rintro ⟨hfirst, hlen, htake⟩
    -- the header and one byte are there, so nothing was appended
    obtain ⟨b, hb⟩ := Option.ne_none_iff_exists'.mp hfirst
    have hhead : p.headLength = 8 := by
      unfold Pending.headLength
      rw [first_append] at hb
      rw [hb]
    have hheader := h.header
    rw [bytes_append, List.length_append] at hlen
    obtain rfl : bs = [] := List.length_eq_zero_iff.mp (by omega)
    rw [append_nil] at hfirst htake
    exact h.other ⟨hfirst, by simpa using hlen, htake⟩

/-- The last byte of a frame, or a byte before it. -/
theorem absorb_admitted (h : p.Admitted frameMax) (b : UInt8) :
    absorb frameMax p b =
      if p.bytes.length + 1 < announced p.bytes then .ok (none, p.append [b])
      else (p.append [b]).complete := by
  have hnext := h.append [b]
  have hsame : announced (p.append [b]).bytes = announced p.bytes :=
    announced_append (Nat.le_trans headLength_le.1 h.header) [b]
  have hleast := h.least
  have hmost := h.most
  unfold absorb
  rw [if_neg (by have := hnext.header; omega), if_neg hnext.other]
  unfold Pending.accept
  simp only [hsame]
  rw [if_neg (by omega), if_neg (by simp only [headerSize, footerSize] at hleast; omega),
    if_neg (by omega)]
  simp

/-- Bytes of a frame that is not complete. -/
theorem run_body (h : p.Admitted frameMax)
    (hlen : p.bytes.length + bs.length < announced p.bytes) :
    run (absorb frameMax) p bs = ([], .ok (p.append bs)) := by
  induction bs generalizing p with
  | nil => simp
  | cons b bs ih =>
    rw [List.length_cons] at hlen
    have hstep : absorb frameMax p b = .ok (none, p.append [b]) := by
      rw [absorb_admitted h, if_pos (by omega)]
    have hsame : announced (p.append [b]).bytes = announced p.bytes :=
      announced_append (Nat.le_trans headLength_le.1 h.header) [b]
    rw [run_cons_ok hstep, ih (h.append [b]) (by rw [hsame]; simp; omega), append_append]
    rfl

/-- The bytes that complete a frame. -/
theorem run_complete (h : p.Admitted frameMax) (hne : bs ≠ [])
    (hlen : p.bytes.length + bs.length = announced p.bytes) :
    run (absorb frameMax) p bs = ofStep (p.append bs).complete := by
  obtain ⟨cs, b, rfl⟩ := (List.eq_nil_or_concat bs).resolve_left hne
  rw [List.concat_eq_append] at hlen ⊢
  rw [List.length_append, List.length_singleton] at hlen
  have hsame : announced (p.append cs).bytes = announced p.bytes :=
    announced_append (Nat.le_trans headLength_le.1 h.header) cs
  rw [run_concat (run_body h (by omega)), absorb_admitted (h.append cs),
    if_neg (by rw [hsame]; simp; omega), append_append]

end Runs

end Amqp
