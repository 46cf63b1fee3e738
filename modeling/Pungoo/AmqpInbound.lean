/-
# Inbound data of `librabbitmq/amqp_connection.c`

`amqp_handle_input` gets what was received and not yet handled.  It copies bytes until the
header of a frame is complete, allocates a block for the whole frame, copies on until the
frame is complete, and decodes it.  It takes at most one frame from its data, so that its
caller calls it again with the rest.

Memory of the pool is not cleared: `pool` says what the blocks hold that it hands out.
`Failure.undefined` is an access outside of the block or the header buffer.
-/
import Pungoo.AmqpFrames
import Pungoo.Chunks

namespace Amqp

open Wire Codec Failing

/-! ## The state -/

/-- `amqp_connection_state_enum`. -/
inductive ConnectionState
  | idle | initial | header | body
  deriving DecidableEq, Repr

/-- The members of `struct amqp_connection_state_t_` that handle input.  `frameMax` is
`(size_t)state->frame_max`; `block` is the block from the pool that a frame is collected
in. -/
structure Inbound where
  state : ConnectionState
  frameMax : ℕ
  headerBuffer : Bytes
  block : Bytes
  inboundOffset : ℕ
  targetSize : ℕ
  pool : ℕ → ℕ → UInt8

/-- The inbound part of `amqp_new_connection`. -/
def newInbound (frameMax : ℕ) (pool : ℕ → ℕ → UInt8) : Inbound where
  state := .initial
  frameMax := frameMax
  headerBuffer := List.replicate (headerSize + 1) 0
  block := []
  inboundOffset := 0
  targetSize := 8
  pool := pool

/-- `inbound_buffer.bytes` points to the block of a frame once there is one. -/
def Inbound.inboundBuffer (s : Inbound) : Bytes :=
  match s.state with
  | .body => s.block
  | .idle | .initial | .header => s.headerBuffer

/-- A write to `inbound_buffer`. -/
def Inbound.setBuffer (s : Inbound) (bytes : Bytes) : Inbound :=
  match s.state with
  | .body => { s with block := bytes }
  | .idle | .initial | .header => { s with headerBuffer := bytes }

/-- `return_to_idle(state)`. -/
def Inbound.returnToIdle (s : Inbound) : Inbound :=
  { s with state := .idle, inboundOffset := 0, targetSize := headerSize }

/-! ## Handling input -/

/-- Subtraction of `size_t`. -/
def subSize (a b : ℕ) : ℕ := (a + 2 ^ 64 - b) % 2 ^ 64

/-- A read at a fixed offset, `amqp_d8`, `amqp_d16`, `amqp_d32` or `amqp_d64`. -/
def peek (o n : ℕ) (buffer : Bytes) : Except Failure ℕ :=
  if o + n ≤ buffer.length then .ok (ofBe (slice buffer o n)) else .error .undefined

/-- `consume_data(state, &received_data)`. -/
def consumeData (s : Inbound) (receivedData : Bytes) : Except Failure (ℕ × Inbound) := do
  let bytesConsumed := min (subSize s.targetSize s.inboundOffset) receivedData.length
  let bytes ← poke s.inboundOffset (receivedData.take bytesConsumed) s.inboundBuffer
  pure (bytesConsumed,
    { s.setBuffer bytes with inboundOffset := s.inboundOffset + bytesConsumed })

/-- The size of the block `amqp_pool_alloc` hands out: it rounds up. -/
def blockSize (amount : ℕ) : ℕ := (amount + 7) / 8 * 8

/-- The part of a frame from `o` to its footer.  The length is unsigned: there is none if it
wraps around. -/
def encodedPart (o targetSize : ℕ) (rawFrame : Bytes) : Option Bytes :=
  if targetSize < o + footerSize then none
  else some (slice rawFrame o (targetSize - o - footerSize))

/-- The case `AMQP_FRAME_METHOD`.  A decoder that is given a length that wrapped around reads
behind the block. -/
def decodeMethodFrame (targetSize : ℕ) (rawFrame : Bytes) : Except Failure (Option Payload) := do
  let id ← peek headerSize 4 rawFrame
  match encodedPart (headerSize + 4) targetSize rawFrame with
  | some encoded => do
    let m ← orFail (decodeMethod (UInt32.ofNat id) encoded)
    pure (some (.method m))
  | none =>
    if (MethodNumber.ofId (UInt32.ofNat id)).isSome then .error .undefined
    else .error (.status .unknownMethod)

/-- The case `AMQP_FRAME_HEADER`; the weight is not read. -/
def decodeHeaderFrame (targetSize : ℕ) (rawFrame : Bytes) : Except Failure (Option Payload) := do
  let classId ← peek headerSize 2 rawFrame
  let bodySize ← peek (headerSize + 4) 8 rawFrame
  match encodedPart (headerSize + 12) targetSize rawFrame with
  | some encoded => do
    let properties ← decodeProperties (UInt16.ofNat classId) encoded
    pure (some (.header (UInt64.ofNat bodySize) properties))
  | none => .error .undefined

/-- The case `AMQP_FRAME_BODY`. -/
def decodeBodyFrame (targetSize : ℕ) (rawFrame : Bytes) : Except Failure (Option Payload) :=
  match encodedPart headerSize targetSize rawFrame with
  | some encoded => .ok (some (.body encoded))
  | none => .error .undefined

/-- The `switch` over `frame_type` of `amqp_handle_input`. -/
def decodeFramePayload (frameType targetSize : ℕ) (rawFrame : Bytes) :
    Except Failure (Option Payload) :=
  match frameType with
  | 1 => decodeMethodFrame targetSize rawFrame
  | 2 => decodeHeaderFrame targetSize rawFrame
  | 3 => decodeBodyFrame targetSize rawFrame
  | 8 => .ok (some .heartbeat)
  -- other frames are ignored
  | _ => .ok none

/-- `amqp_handle_input` where the frame is complete. -/
def handleBody (s : Inbound) (bytesConsumed : ℕ) : Except Failure (ℕ × Option Frame × Inbound) := do
  let footer ← peek (s.targetSize - 1) 1 s.block
  if footer ≠ frameEnd.toNat then .error (.status .badAmqpData)
  else do
    let frameType ← peek 0 1 s.block
    let channel ← peek 1 2 s.block
    let payload ← decodeFramePayload frameType s.targetSize s.block
    pure (bytesConsumed, payload.map (Frame.mk (UInt16.ofNat channel)), s.returnToIdle)

/-- `amqp_handle_input` where the header is complete.  The size of the frame is the sum of
`uint32_t`. -/
def handleHeader (s : Inbound) (bytesConsumed : ℕ) (receivedData : Bytes) :
    Except Failure (ℕ × Option Frame × Inbound) := do
  let size ← peek 3 4 s.headerBuffer
  let targetSize := (size + headerSize + footerSize) % 2 ^ 32
  if s.frameMax < targetSize then .error (.status .badAmqpData)
  else if targetSize = 0 then .error (.status .noMemory)
  else do
    let block ← poke 0 (s.headerBuffer.take headerSize)
      ((List.range (blockSize targetSize)).map (s.pool 0))
    let s := { s with state := .body, targetSize := targetSize, block := block,
                      pool := fun k => s.pool (k + 1) }
    let (more, s) ← consumeData s receivedData
    if s.inboundOffset < s.targetSize then pure (bytesConsumed + more, none, s)
    else handleBody s (bytesConsumed + more)

/-- `amqp_handle_input(state, received_data, &decoded_frame)`: the number of bytes it took,
and the frame unless `frame_type` is zero. -/
def handleInput (s : Inbound) (receivedData : Bytes) :
    Except Failure (ℕ × Option Frame × Inbound) :=
  if receivedData.length = 0 then .ok (0, none, s)
  else do
    let s := if s.state = .idle then { s with state := .header } else s
    let (bytesConsumed, s) ← consumeData s receivedData
    let receivedData := receivedData.drop bytesConsumed
    if s.inboundOffset < s.targetSize then pure (bytesConsumed, none, s)
    else
      match s.state with
      | .initial =>
        -- a protocol header from the server
        if s.headerBuffer.take 4 = [65, 77, 81, 80] then do
          let transportHigh ← peek 4 1 s.headerBuffer
          let transportLow ← peek 5 1 s.headerBuffer
          let major ← peek 6 1 s.headerBuffer
          let minor ← peek 7 1 s.headerBuffer
          let payload := Payload.protocolHeader (UInt8.ofNat transportHigh)
            (UInt8.ofNat transportLow) (UInt8.ofNat major) (UInt8.ofNat minor)
          pure (bytesConsumed, some (Frame.mk 0 payload), s.returnToIdle)
        else handleHeader s bytesConsumed receivedData
      | .header => handleHeader s bytesConsumed receivedData
      | .body => handleBody s bytesConsumed
      -- `amqp_abort`
      | .idle => .error .undefined

end Amqp
