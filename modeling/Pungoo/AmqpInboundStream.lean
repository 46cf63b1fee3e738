/-
# `amqp_handle_input` follows the byte stream

`handleInput` keeps the bytes of a frame in two buffers, with an offset and a target.
`Represents` says which bytes those are; `handleInput_follows` is the simulation.
-/
import Pungoo.AmqpStream

namespace Amqp

open Wire Codec Failing Chunks

/-! ## Reading a block whose front is known -/

section Block

variable {buf bytes : Bytes} {o n : ℕ}

theorem length_le_of_take (h : buf.take bytes.length = bytes) : bytes.length ≤ buf.length := by
  have hlen := congrArg List.length h
  rw [List.length_take] at hlen
  omega

theorem slice_of_take (h : buf.take bytes.length = bytes) (hle : o + n ≤ bytes.length) :
    slice buf o n = slice bytes o n := by
  conv_rhs => rw [← h]
  unfold slice
  rw [List.drop_take, List.take_take, Nat.min_eq_left (by omega)]

theorem peek_of_take (h : buf.take bytes.length = bytes) (hle : o + n ≤ bytes.length) :
    peek o n buf = .ok (ofBe (slice bytes o n)) := by
  have hbuf := length_le_of_take h
  rw [peek, if_pos (by omega), slice_of_take h hle]

theorem peek_of_lt (h : buf.length < o + n) : peek o n buf = .error .undefined :=
  if_neg (by omega)

theorem peek_of_le (h : o + n ≤ buf.length) : peek o n buf = .ok (ofBe (slice buf o n)) :=
  if_pos h

end Block

/-! ## Frames that are too short -/

/-- No byte of a method number but the first is the end marker of a frame. -/
theorem id_ne_frameEnd (m : MethodNumber) :
    m.id.toNat / 65536 % 256 ≠ frameEnd.toNat ∧ m.id.toNat / 256 % 256 ≠ frameEnd.toNat ∧
      m.id.toNat % 256 ≠ frameEnd.toNat := by
  cases m <;> decide

/-- A method number that reaches into the end marker is the number of no method. -/
theorem ofId_of_frameEnd {cs : Bytes} (hlen : cs.length = 4) {i : ℕ} (hi : 0 < i)
    (hend : cs[i]? = some frameEnd) : MethodNumber.ofId (UInt32.ofNat (ofBe cs)) = none := by
  obtain ⟨a, b, c, d, rfl⟩ : ∃ a b c d, cs = [a, b, c, d] := by
    rcases cs with _ | ⟨a, _ | ⟨b, _ | ⟨c, _ | ⟨d, _ | ⟨e, es⟩⟩⟩⟩⟩ <;> simp at hlen
    exact ⟨a, b, c, d, rfl⟩
  by_contra hne
  obtain ⟨m, hm⟩ := Option.ne_none_iff_exists'.mp hne
  have hid : m.id = UInt32.ofNat (ofBe [a, b, c, d]) := by
    simpa using List.find?_some hm
  have ha := a.toNat_lt
  have hb := b.toNat_lt
  have hc := c.toNat_lt
  have hd := d.toNat_lt
  have hof : ofBe [a, b, c, d] =
      a.toNat * 16777216 + b.toNat * 65536 + c.toNat * 256 + d.toNat := by
    simp [ofBe]
    ring
  have hnat : m.id.toNat = ofBe [a, b, c, d] := by
    rw [hid, UInt32.toNat_ofNat']
    omega
  obtain ⟨h₁, h₂, h₃⟩ := id_ne_frameEnd m
  rw [hnat, hof] at h₁ h₂ h₃
  rcases i with _ | _ | _ | _ | i
  · exact absurd hi (by simp)
  · obtain rfl : b = frameEnd := by simpa using hend
    omega
  · obtain rfl : c = frameEnd := by simpa using hend
    omega
  · obtain rfl : d = frameEnd := by simpa using hend
    omega
  · simp at hend

/-! ## A frame in its block -/

section Body

variable {block bytes : Bytes}

theorem length_content (hlen : headerSize + footerSize ≤ bytes.length) :
    (content bytes).length = bytes.length - 8 := by
  rw [content, length_slice (by omega), Nat.sub_sub]
  rfl

/-- The part of the frame behind `o`, read from the block. -/
theorem encodedPart_eq (o : ℕ) (htake : block.take bytes.length = bytes)
    (hle : headerSize + o + footerSize ≤ bytes.length) :
    encodedPart (headerSize + o) bytes.length block = some ((content bytes).drop o) := by
  have hsize : bytes.length - headerSize - footerSize - o =
    bytes.length - (headerSize + o) - footerSize := by omega
  rw [encodedPart, if_neg (by omega), slice_of_take htake (by omega)]
  unfold content slice
  rw [List.drop_take, List.drop_drop, hsize]

/-- A field of the payload at a fixed place. -/
theorem peek_content (o : ℕ) {n : ℕ} (htake : block.take bytes.length = bytes)
    (hle : headerSize + o + n + footerSize ≤ bytes.length) :
    peek (headerSize + o) n block = .ok (ofBe (slice (content bytes) o n)) := by
  rw [peek_of_take htake (by omega)]
  unfold content slice
  rw [List.drop_take, List.drop_drop, List.take_take, Nat.min_eq_left (by omega)]

/-- The end marker in the four bytes behind the header. -/
theorem frameEnd_in_id (hshort : bytes.length < 12) (hnine : 9 ≤ bytes.length)
    (htake : block.take bytes.length = bytes)
    (hend : slice bytes (bytes.length - 1) 1 = [frameEnd]) :
    (slice block headerSize 4)[bytes.length - 8]? = some frameEnd := by
  have hbytes : bytes[bytes.length - 1]? = some frameEnd := by
    have hzero : (slice bytes (bytes.length - 1) 1)[0]? = bytes[bytes.length - 1 + 0]? := by
      rw [getElem?_slice, if_pos (by omega)]
    rw [hend] at hzero
    simpa using hzero.symm
  have hindex : headerSize + (bytes.length - 8) = bytes.length - 1 := by
    simp only [headerSize]
    omega
  rw [getElem?_slice, if_pos (by omega), hindex, ← hbytes]
  conv_rhs => rw [← htake]
  rw [List.length_take, List.getElem?_take, if_pos (by have := length_le_of_take htake; omega)]
  congr 2
  have := length_le_of_take htake
  omega

theorem decodeMethodFrame_eq (hlen : headerSize + footerSize ≤ bytes.length)
    (hblock : block.length = blockSize bytes.length) (htake : block.take bytes.length = bytes)
    (hend : slice bytes (bytes.length - 1) 1 = [frameEnd]) :
    decodeMethodFrame bytes.length block = parseMethod (content bytes) := by
  have hcontent := length_content hlen
  have hle : 8 ≤ bytes.length := hlen
  have hseven : headerSize = 7 := rfl
  unfold decodeMethodFrame parseMethod
  rcases Nat.lt_or_ge bytes.length 12 with hshort | hlong
  · -- the number of the method reaches into the end marker
    have hnone : encodedPart (headerSize + 4) bytes.length block = none := if_pos hshort
    rw [hnone]
    rcases Nat.lt_or_ge bytes.length 9 with hempty | hnine
    · have height : block.length = 8 := by rw [hblock, blockSize]; omega
      rw [peek_of_lt (by omega), error_bind, if_pos (by omega)]
    · have hsixteen : block.length = 16 := by rw [hblock, blockSize]; omega
      have hunknown := ofId_of_frameEnd (length_slice (by omega)) (by omega)
        (frameEnd_in_id hshort hnine htake hend)
      have hzero : (content bytes).length ≠ 0 := by omega
      have hfour : (content bytes).length < 4 := by omega
      rw [peek_of_le (by omega), ok_bind, hunknown, if_neg hzero, if_pos hfour]
      rfl
  · have hpart := encodedPart_eq 4 htake (show 12 ≤ bytes.length from hlong)
    have hid := peek_content 0 (n := 4) htake (show 12 ≤ bytes.length from hlong)
    have hzero : (content bytes).length ≠ 0 := by omega
    have hfour : ¬ (content bytes).length < 4 := by omega
    rw [Nat.add_zero] at hid
    rw [hid, ok_bind, hpart, if_neg hzero, if_neg hfour]

theorem decodeHeaderFrame_eq (hlen : headerSize + footerSize ≤ bytes.length)
    (htake : block.take bytes.length = bytes) :
    decodeHeaderFrame bytes.length block = parseHeader (content bytes) := by
  have hcontent := length_content hlen
  unfold decodeHeaderFrame parseHeader
  rcases Nat.lt_or_ge bytes.length 20 with hshort | hlong
  · have hnone : encodedPart (headerSize + 12) bytes.length block = none := if_pos hshort
    rw [hnone, if_pos (by omega)]
    unfold peek
    split
    · rw [ok_bind]
      split <;> rfl
    · rfl
  · have hpart := encodedPart_eq 12 htake (show 20 ≤ bytes.length from hlong)
    have hclass := peek_content 0 (n := 2) htake (show 10 ≤ bytes.length by omega)
    have hsize := peek_content 4 (n := 8) htake (show 20 ≤ bytes.length from hlong)
    rw [Nat.add_zero] at hclass
    rw [hclass, ok_bind, hsize, ok_bind, hpart, if_neg (by omega)]

/-- The payload read from the block, whatever the block holds behind the frame. -/
theorem decodeFramePayload_eq (frameType : ℕ) (hlen : headerSize + footerSize ≤ bytes.length)
    (hblock : block.length = blockSize bytes.length) (htake : block.take bytes.length = bytes)
    (hend : slice bytes (bytes.length - 1) 1 = [frameEnd]) :
    decodeFramePayload frameType bytes.length block = parsePayload frameType (content bytes) := by
  have hbody : decodeBodyFrame bytes.length block = .ok (some (.body (content bytes))) := by
    have hpart := encodedPart_eq 0 htake hlen
    rw [Nat.add_zero, List.drop_zero] at hpart
    rw [decodeBodyFrame, hpart]
  have hmethod := decodeMethodFrame_eq hlen hblock htake hend
  have hheader := decodeHeaderFrame_eq hlen htake
  match frameType with
  | 1 => exact hmethod
  | 2 => exact hheader
  | 3 => exact hbody
  | 0 | 4 | 5 | 6 | 7 | 8 | _ + 9 => rfl

end Body

/-- One byte of a buffer. -/
theorem slice_one_eq_iff {bytes : Bytes} {o : ℕ} (h : o < bytes.length) (b : UInt8) :
    slice bytes o 1 = [b] ↔ ofBe (slice bytes o 1) = b.toNat := by
  have hlen : (slice bytes o 1).length = 1 := length_slice (by omega)
  obtain ⟨c, hc⟩ := List.length_eq_one_iff.mp hlen
  rw [hc]
  simp [ofBe, UInt8.toNat_inj]

/-- A complete frame in its block is decoded to the frame of its bytes. -/
theorem handleBody_eq {s : Inbound} {bytes : Bytes} (n : ℕ)
    (htarget : s.targetSize = bytes.length) (hlen : headerSize + footerSize ≤ bytes.length)
    (hblock : s.block.length = blockSize bytes.length)
    (htake : s.block.take bytes.length = bytes) :
    handleBody s n = parseFrame bytes >>= fun frame => .ok (n, frame, s.returnToIdle) := by
  have hle : 8 ≤ bytes.length := hlen
  have hmark := slice_one_eq_iff (show bytes.length - 1 < bytes.length by omega) frameEnd
  unfold handleBody parseFrame
  rw [htarget, peek_of_take htake (by omega), ok_bind]
  by_cases hend : slice bytes (bytes.length - 1) 1 = [frameEnd]
  · rw [if_neg (not_not.mpr (hmark.mp hend)), if_neg (not_not.mpr hend),
      peek_of_take htake (by omega), ok_bind, peek_of_take htake (by omega), ok_bind,
      decodeFramePayload_eq _ hlen hblock htake hend, bind_assoc]
    rfl
  · rw [if_pos (fun h => hend (hmark.mpr h)), if_pos hend, error_bind]

/-! ## Copying into the buffers -/

theorem subSize_eq {a b : ℕ} (h : b ≤ a) (ha : a < 2 ^ 64) : subSize a b = a - b := by
  unfold subSize
  omega

/-- Until the block of the frame is there, bytes go to the header buffer. -/
theorem buffer_of_ne_body {s : Inbound} (h : s.state ≠ .body) :
    s.inboundBuffer = s.headerBuffer ∧
      ∀ bytes, s.setBuffer bytes = { s with headerBuffer := bytes } := by
  unfold Inbound.inboundBuffer Inbound.setBuffer
  cases hstate : s.state with
  | body => exact absurd hstate h
  | idle | initial | header => exact ⟨rfl, fun _ => rfl⟩

/-- After that they go to the block. -/
theorem buffer_of_body {s : Inbound} (h : s.state = .body) :
    s.inboundBuffer = s.block ∧ ∀ bytes, s.setBuffer bytes = { s with block := bytes } := by
  unfold Inbound.inboundBuffer Inbound.setBuffer
  rw [h]
  exact ⟨rfl, fun _ => rfl⟩

/-- `consume_data` puts what is there and still fits in the target behind the bytes that the
buffer holds. -/
theorem consumeData_spec {s : Inbound} (bytes data : Bytes)
    (hoffset : s.inboundOffset = bytes.length) (hle : bytes.length ≤ s.targetSize)
    (htarget : s.targetSize < 2 ^ 64) (hbuffer : s.targetSize ≤ s.inboundBuffer.length)
    (hfront : s.inboundBuffer.take bytes.length = bytes) :
    ∃ buffer, consumeData s data =
        .ok ((data.take (s.targetSize - bytes.length)).length, { s.setBuffer buffer with
          inboundOffset := (bytes ++ data.take (s.targetSize - bytes.length)).length }) ∧
      buffer.length = s.inboundBuffer.length ∧
      buffer.take (bytes ++ data.take (s.targetSize - bytes.length)).length =
        bytes ++ data.take (s.targetSize - bytes.length) := by
  have hmin : min (s.targetSize - bytes.length) data.length =
      (data.take (s.targetSize - bytes.length)).length := List.length_take.symm
  have htake : data.take (data.take (s.targetSize - bytes.length)).length =
      data.take (s.targetSize - bytes.length) := by
    rw [List.length_take, ← List.take_take, List.take_length]
  have hfits : bytes.length + (data.take (s.targetSize - bytes.length)).length ≤
      s.inboundBuffer.length := by
    rw [List.length_take]
    omega
  refine ⟨write s.inboundBuffer bytes.length (data.take (s.targetSize - bytes.length)), ?_,
    length_write hfits, ?_⟩
  · unfold consumeData
    rw [hoffset, subSize_eq hle htarget, hmin]
    simp only [htake]
    rw [poke_fits hfits, ok_bind, List.length_append]
    rfl
  · rw [List.length_append, take_write_end _ (length_le_of_take hfront), hfront]

/-! ## The bytes a connection holds -/

/-- The header of a frame is being collected. -/
structure Collecting (s : Inbound) (p : Pending) : Prop where
  offset : s.inboundOffset = p.bytes.length
  front : s.headerBuffer.take p.bytes.length = p.bytes
  length : s.headerBuffer.length = 8
  target : s.targetSize = p.headLength
  state : s.state = .header ∧ p.first = none ∨ s.state = .initial ∧ p.first = some (s.pool 0 7)

/-- The frame is being collected in its block. -/
structure Filling (s : Inbound) (p : Pending) : Prop where
  offset : s.inboundOffset = p.bytes.length
  front : s.block.take p.bytes.length = p.received
  length : s.headerBuffer.length = 8
  target : s.targetSize = announced p.bytes
  block : s.block.length = blockSize (announced p.bytes)
  state : s.state = .body
  admitted : p.Admitted s.frameMax

/-- A connection between two frames. -/
structure Idle (s : Inbound) : Prop where
  offset : s.inboundOffset = 0
  length : s.headerBuffer.length = 8
  target : s.targetSize = headerSize
  state : s.state = .idle

/-- The state holds the bytes of `p`. -/
def Represents (frameMax : ℕ) (s : Inbound) (p : Pending) : Prop :=
  s.frameMax = frameMax ∧
    (Idle s ∧ p = Pending.idle ∨
      Collecting s p ∧ p.bytes.length < p.headLength ∧ p ≠ Pending.idle ∨
      Filling s p ∧ p.bytes.length < announced p.bytes)

section Represents

variable {s : Inbound} {p : Pending} {frameMax : ℕ}

theorem Collecting.ne_body (h : Collecting s p) : s.state ≠ .body := by
  rcases h.state with ⟨hs, -⟩ | ⟨hs, -⟩ <;> simp [hs]

/-- A connection that is idle starts to collect a header with the first byte. -/
theorem Idle.collecting (h : Idle s) :
    Collecting { s with state := .header } Pending.idle where
  offset := h.offset
  front := rfl
  length := h.length
  target := h.target
  state := .inl ⟨rfl, rfl⟩

theorem Idle.returnToIdle (h : s.headerBuffer.length = 8) : Idle s.returnToIdle :=
  ⟨rfl, h, rfl, rfl⟩

theorem length_received (p : Pending) : p.received.length = p.bytes.length := by
  unfold Pending.received
  cases p.first <;> simp

/-- Bytes behind the header stand in the block as they are. -/
theorem received_append (h : p.headLength ≤ p.bytes.length) (bs : Bytes) :
    (p.append bs).received = p.received ++ bs := by
  obtain ⟨first, bytes⟩ := p
  cases first with
  | none => rfl
  | some b =>
    have hlen : 8 ≤ bytes.length := h
    simp only [Pending.received, Pending.append]
    rw [List.set_append_left 7 b (by omega)]

/-- Bytes for the header. -/
theorem consumeData_collecting (h : Collecting s p) (hle : p.bytes.length ≤ p.headLength)
    (data : Bytes) :
    ∃ t, consumeData s data = .ok ((data.take (p.headLength - p.bytes.length)).length, t) ∧
      Collecting t (p.append (data.take (p.headLength - p.bytes.length))) ∧
      t.frameMax = s.frameMax ∧ t.state = s.state := by
  have hhead : p.headLength ≤ 8 := headLength_le.2
  obtain ⟨hbuffer, hset⟩ := buffer_of_ne_body h.ne_body
  obtain ⟨buffer, hconsume, hlen, hfront⟩ := consumeData_spec p.bytes data h.offset
    (by rw [h.target]; exact hle) (by rw [h.target]; omega)
    (by rw [hbuffer, h.length, h.target]; exact hhead) (by rw [hbuffer]; exact h.front)
  rw [h.target, hset] at hconsume
  rw [h.target] at hfront
  rw [hbuffer, h.length] at hlen
  exact ⟨_, hconsume, ⟨rfl, hfront, hlen, h.target, h.state⟩, rfl, rfl⟩

/-- Bytes for the frame behind its header. -/
theorem consumeData_filling (h : Filling s p) (hle : p.bytes.length ≤ announced p.bytes)
    (data : Bytes) :
    ∃ t, consumeData s data = .ok ((data.take (announced p.bytes - p.bytes.length)).length, t) ∧
      Filling t (p.append (data.take (announced p.bytes - p.bytes.length))) ∧
      t.frameMax = s.frameMax := by
  have hsame := announced_append (Nat.le_trans headLength_le.1 h.admitted.header)
    (data.take (announced p.bytes - p.bytes.length))
  have hlt : announced p.bytes < 2 ^ 32 := Nat.mod_lt _ (by decide)
  obtain ⟨hbuffer, hset⟩ := buffer_of_body h.state
  have hreceived := length_received p
  obtain ⟨buffer, hconsume, hlen, hfront⟩ := consumeData_spec p.received data
    (by rw [hreceived]; exact h.offset) (by rw [hreceived, h.target]; exact hle)
    (by rw [h.target]; omega) (by rw [hbuffer, h.block, h.target, blockSize]; omega)
    (by rw [hbuffer, hreceived]; exact h.front)
  rw [h.target, hset, hreceived] at hconsume
  rw [h.target, hreceived] at hfront
  rw [hbuffer, h.block] at hlen
  refine ⟨_, hconsume, ⟨?_, ?_, h.length, ?_, ?_, h.state, h.admitted.append _⟩, rfl⟩
  · simp [hreceived]
  · rw [received_append h.admitted.header, ← hfront]
    simp [hreceived]
  · rw [bytes_append, hsame]
    exact h.target
  · rw [bytes_append, hsame]
    exact hlen

/-- A complete frame is decoded. -/
theorem handleBody_filling (h : Filling s p) (hlen : p.bytes.length = announced p.bytes) (n : ℕ) :
    handleBody s n = parseFrame p.received >>= fun frame => .ok (n, frame, s.returnToIdle) := by
  have hreceived : p.received.length = announced p.bytes := (length_received p).trans hlen
  exact handleBody_eq n (by rw [hreceived]; exact h.target)
    (by rw [hreceived]; exact h.admitted.least) (by rw [hreceived]; exact h.block)
    (by rw [length_received]; exact h.front)

/-- The block of a frame holds its header.  On a new connection the byte behind the header is
not copied from the header buffer. -/
theorem take_newBlock (h : Collecting s p) (hlen : p.bytes.length = p.headLength) {size : ℕ}
    (hsize : 8 ≤ size) :
    (write ((List.range (blockSize size)).map (s.pool 0)) 0
      (s.headerBuffer.take headerSize)).take p.bytes.length = p.received := by
  have hhead : (s.headerBuffer.take headerSize).length = 7 := by
    rw [List.length_take, h.length]
    rfl
  have height : 8 ≤ blockSize size := by
    unfold blockSize
    omega
  have hseven : (write ((List.range (blockSize size)).map (s.pool 0)) 0
      (s.headerBuffer.take headerSize)).take 7 = s.headerBuffer.take 7 := by
    have htake := take_write_end (s.headerBuffer.take headerSize) (Nat.zero_le
      ((List.range (blockSize size)).map (s.pool 0)).length)
    rw [hhead] at htake
    simpa [headerSize] using htake
  obtain ⟨first, bytes⟩ := p
  have hfront := h.front
  simp only at hlen hfront ⊢
  cases first with
  | none =>
    have hbytes : bytes.length = 7 := hlen
    rw [hbytes] at hfront ⊢
    rw [hseven, hfront]
    rfl
  | some b =>
    have hbytes : bytes.length = 8 := hlen
    have hb : b = s.pool 0 7 := by
      rcases h.state with ⟨-, hfirst⟩ | ⟨-, hfirst⟩
      · exact absurd hfirst (by simp)
      · exact Option.some.inj hfirst
    have hnext : (write ((List.range (blockSize size)).map (s.pool 0)) 0
        (s.headerBuffer.take headerSize))[7]? = some b := by
      rw [getElem?_write (by rw [hhead, List.length_map, List.length_range]; omega),
        if_neg (by omega), if_neg (by omega), List.getElem?_map, List.getElem?_range (by omega), hb]
      rfl
    have hset : bytes.set 7 b = bytes.take 7 ++ [b] := by
      rw [List.set_eq_take_append_cons_drop, if_pos (by omega), List.drop_of_length_le (by omega)]
    rw [hbytes] at hfront ⊢
    have hreceived : Pending.received ⟨some b, bytes⟩ = bytes.take 7 ++ [b] := hset
    rw [List.take_add_one, hseven, hnext, hreceived, ← hfront, List.take_take]
    rfl

/-- A header that is there, and is not a protocol header: its size is checked, and a block is
allocated. -/
theorem handleHeader_collecting (h : Collecting s p) (hlen : p.bytes.length = p.headLength)
    (hother : ¬ p.isProtocolHeader) (n : ℕ) (data : Bytes) :
    (s.frameMax < announced p.bytes →
        handleHeader s n data = .error (.status .badAmqpData)) ∧
      (announced p.bytes ≤ s.frameMax → announced p.bytes = 0 →
        handleHeader s n data = .error (.status .noMemory)) ∧
      (announced p.bytes ≤ s.frameMax → headerSize + footerSize ≤ announced p.bytes →
        ∃ t, (handleHeader s n data = consumeData t data >>= fun x =>
            if x.2.inboundOffset < x.2.targetSize then pure (n + x.1, none, x.2)
            else handleBody x.2 (n + x.1)) ∧ Filling t p ∧ t.frameMax = s.frameMax) := by
  have hseven : 7 ≤ p.bytes.length := hlen ▸ headLength_le.1
  have hpeek : peek 3 4 s.headerBuffer = .ok (ofBe (slice p.bytes 3 4)) :=
    peek_of_take h.front (by omega)
  have hsize : (ofBe (slice p.bytes 3 4) + headerSize + footerSize) % 2 ^ 32 =
      announced p.bytes := rfl
  unfold handleHeader
  simp only [hpeek, ok_bind, hsize]
  refine ⟨fun hbig => if_pos hbig, fun hmost hzero => ?_, fun hmost hleast => ?_⟩
  · rw [if_neg (by omega), if_pos hzero]
  · have hleast' : 8 ≤ announced p.bytes := hleast
    have hfits : 0 + (s.headerBuffer.take headerSize).length ≤
        ((List.range (blockSize (announced p.bytes))).map (s.pool 0)).length := by
      rw [List.length_take, h.length, List.length_map, List.length_range, blockSize, headerSize]
      omega
    rw [if_neg (by omega), if_neg (by omega), poke_fits hfits, ok_bind]
    refine ⟨_, rfl, ⟨h.offset, take_newBlock h hlen hleast', h.length, rfl, ?_, rfl, ?_⟩, rfl⟩
    · rw [length_write hfits, List.length_map, List.length_range]
    · exact ⟨by omega, hother, hleast, hmost⟩

theorem Represents.idle (h : Represents frameMax s Pending.idle) : Idle s := by
  rcases h.2 with ⟨hidle, -⟩ | ⟨-, -, hne⟩ | ⟨hfilling, -⟩
  · exact hidle
  · exact absurd rfl hne
  · exact absurd hfilling.admitted.header (by decide)

theorem represents_idle (hmax : s.frameMax = frameMax) (h : Idle s) :
    Represents frameMax s Pending.idle := ⟨hmax, .inl ⟨h, rfl⟩⟩

/-- A new connection waits for the header of the first frame, and for one byte more. -/
theorem represents_new (frameMax : ℕ) (pool : ℕ → ℕ → UInt8) :
    Represents frameMax (newInbound frameMax pool) (Pending.new (pool 0 7)) :=
  ⟨rfl, .inr (.inl ⟨⟨rfl, rfl, rfl, rfl, .inr ⟨rfl, rfl⟩⟩, show 0 < 8 by decide,
    by simp [Pending.new, Pending.idle]⟩)⟩

end Represents

/-! ## The simulation -/

section Follows

variable {frameMax : ℕ} {s : Inbound} {p q : Pending} {data : Bytes}

/-- The last byte of a frame was taken. -/
theorem agrees_complete {n : ℕ} (hn : 0 < n) (hmax : s.frameMax = frameMax)
    (hlen : s.headerBuffer.length = 8)
    (hrun : run (absorb frameMax) p (data.take n) = ofStep q.complete) :
    Agrees (absorb frameMax) (Represents frameMax) p data
      (parseFrame q.received >>= fun frame => .ok (n, frame, s.returnToIdle)) := by
  unfold Pending.complete at hrun
  cases hparse : parseFrame q.received with
  | error e =>
    rw [hparse] at hrun
    exact ⟨n, hrun⟩
  | ok frame =>
    rw [hparse] at hrun
    exact ⟨hn, _, hrun, hmax, .inl ⟨Idle.returnToIdle hlen, rfl⟩⟩

/-- Bytes for a frame behind its header were taken, behind bytes `front` of the same chunk. -/
theorem agrees_filling {front rest : Bytes} (hdata : front ++ rest ≠ [])
    (hrun : run (absorb frameMax) p front = ([], .ok q)) (hq : q.Admitted frameMax)
    (hlen : q.bytes.length < announced q.bytes)
    (h : Filling s (q.append (rest.take (announced q.bytes - q.bytes.length))))
    (hmax : s.frameMax = frameMax) {n : ℕ}
    (hn : n = front.length + (rest.take (announced q.bytes - q.bytes.length)).length) :
    Agrees (absorb frameMax) (Represents frameMax) p (front ++ rest)
      (if s.inboundOffset < s.targetSize then pure (n, none, s) else handleBody s n) := by
  have hsame := announced_append (Nat.le_trans headLength_le.1 hq.header)
    (rest.take (announced q.bytes - q.bytes.length))
  have hpos : 0 < n := by
    have hall := List.length_pos_iff.mpr hdata
    rw [List.length_append] at hall
    rw [hn, List.length_take]
    omega
  have htake : (front ++ rest).take n =
      front ++ rest.take (announced q.bytes - q.bytes.length) := by
    rw [hn, List.take_length_add_append, List.length_take, ← List.take_take, List.take_length]
  rw [h.offset, h.target, bytes_append, hsame, List.length_append]
  split
  next hmore =>
    have hbody := run_body hq hmore
    refine ⟨hpos, _, ?_, hmax, .inr (.inr ⟨h, ?_⟩)⟩
    · rw [htake, run_append, hrun, andThen_ok, hbody]
      rfl
    · rw [bytes_append, hsame, List.length_append]
      exact hmore
  next hdone =>
    have hend : q.bytes.length + (rest.take (announced q.bytes - q.bytes.length)).length =
        announced q.bytes := by
      rw [List.length_take] at hdone ⊢
      omega
    have hne : rest.take (announced q.bytes - q.bytes.length) ≠ [] := by
      intro hnil
      rw [hnil] at hend
      simp only [List.length_nil] at hend
      omega
    rw [handleBody_filling h (by rw [bytes_append, hsame, List.length_append]; exact hend)]
    refine agrees_complete hpos hmax h.length ?_
    rw [htake, run_append, hrun, andThen_ok, run_complete hq hne hend, List.nil_append]

/-- A header was completed by the bytes `front` of a chunk. -/
theorem agrees_handleHeader {front rest : Bytes} (hfront : front ≠ [])
    (hrun : run (absorb frameMax) p front = ofStep (q.accept frameMax))
    (hbad : (run (absorb frameMax) p (front ++ rest)).2 ≠ .error .undefined)
    (h : Collecting s q) (hlen : q.bytes.length = q.headLength) (hother : ¬ q.isProtocolHeader)
    (hmax : s.frameMax = frameMax) :
    Agrees (absorb frameMax) (Represents frameMax) p (front ++ rest)
      (handleHeader s front.length rest) := by
  have htake : (front ++ rest).take front.length = front := List.take_left
  have hpos : 0 < front.length := List.length_pos_iff.mpr hfront
  obtain ⟨hbig, hzero, hsize⟩ := handleHeader_collecting h hlen hother front.length rest
  unfold Pending.accept at hrun
  simp only at hrun
  rw [hmax] at hbig hzero hsize
  rcases Nat.lt_or_ge frameMax (announced q.bytes) with hmost | hmost
  · rw [if_pos hmost] at hrun
    rw [hbig hmost]
    exact ⟨front.length, by rw [htake]; exact hrun⟩
  rw [if_neg (by omega)] at hrun
  by_cases hnone : announced q.bytes = 0
  · rw [if_pos hnone] at hrun
    rw [hzero hmost hnone]
    exact ⟨front.length, by rw [htake]; exact hrun⟩
  rw [if_neg hnone] at hrun
  rcases Nat.lt_or_ge (announced q.bytes) (headerSize + footerSize) with hleast | hleast
  · rw [if_pos hleast] at hrun
    rw [run_append, hrun] at hbad
    exact absurd rfl hbad
  rw [if_neg (by omega)] at hrun
  obtain ⟨t, hhandle, hfill, htmax⟩ := hsize hmost hleast
  have hadmitted : q.Admitted frameMax := ⟨by omega, hother, hleast, hmost⟩
  have height : q.bytes.length ≤ announced q.bytes :=
    Nat.le_trans (hlen ▸ headLength_le.2) hleast
  obtain ⟨u, hconsume, hu, humax⟩ := consumeData_filling hfill height rest
  rw [hhandle, hconsume, ok_bind]
  rcases Nat.lt_or_ge q.bytes.length (announced q.bytes) with hmore | hdone
  · rw [if_pos hmore] at hrun
    exact agrees_filling (by simp [hfront]) hrun hadmitted hmore hu (by omega) rfl
  · -- a frame without payload on a new connection is complete with its header
    rw [if_neg (by omega)] at hrun
    have hempty : announced q.bytes - q.bytes.length = 0 := by omega
    rw [hempty, List.take_zero, append_nil] at hu
    simp only [hempty, List.take_zero, List.length_nil, Nat.add_zero]
    rw [hu.offset, hu.target, if_neg (by omega), handleBody_filling hu (by omega)]
    exact agrees_complete hpos (by omega) hu.length (by rw [htake]; exact hrun)

/-- Bytes for the header of a frame. -/
theorem agrees_collecting (h : Collecting s p) (hlen : p.bytes.length < p.headLength)
    (hmax : s.frameMax = frameMax) (hdata : data ≠ [])
    (hbad : (run (absorb frameMax) p data).2 ≠ .error .undefined) :
    Agrees (absorb frameMax) (Represents frameMax) p data (handleInput s data) := by
  have hpos := List.length_pos_iff.mpr hdata
  obtain ⟨t, hconsume, ht, htmax, htstate⟩ := consumeData_collecting h (Nat.le_of_lt hlen) data
  have hnotIdle : s.state ≠ .idle := by
    rcases h.state with ⟨hs, -⟩ | ⟨hs, -⟩ <;> simp [hs]
  unfold handleInput
  rw [if_neg (by omega), if_neg hnotIdle]
  simp only [hconsume, ok_bind]
  rcases Nat.lt_or_ge (p.bytes.length + data.length) p.headLength with hshort | hlong
  · have hall : data.take (p.headLength - p.bytes.length) = data :=
      List.take_of_length_le (by omega)
    rw [hall] at ht ⊢
    have hmore : t.inboundOffset < t.targetSize := by
      rw [ht.offset, ht.target, bytes_append, headLength_append, List.length_append]
      exact hshort
    rw [if_pos hmore]
    refine ⟨hpos, _, ?_, htmax.trans hmax, .inr (.inl ⟨ht, ?_, ?_⟩)⟩
    · rw [List.take_length, run_header hshort]
      rfl
    · rw [bytes_append, List.length_append]
      exact hshort
    · intro hidle
      have hnil := congrArg Pending.bytes hidle
      rw [bytes_append] at hnil
      exact hdata (List.append_eq_nil_iff.mp hnil).2
  · have hfrontLength : (data.take (p.headLength - p.bytes.length)).length =
        p.headLength - p.bytes.length := by
      rw [List.length_take]
      omega
    have hsplit := List.take_append_drop (p.headLength - p.bytes.length) data
    have hrest : data.drop (data.take (p.headLength - p.bytes.length)).length =
        data.drop (p.headLength - p.bytes.length) := by rw [hfrontLength]
    rw [hrest]
    generalize data.take (p.headLength - p.bytes.length) = front at *
    generalize data.drop (p.headLength - p.bytes.length) = rest at *
    subst hsplit
    have hfront : front ≠ [] := List.length_pos_iff.mp (by omega)
    have htake : (front ++ rest).take front.length = front := List.take_left
    have hrun := run_header_end frameMax hfront
      (show p.bytes.length + front.length = p.headLength by omega)
    have hqlen : (p.append front).bytes.length = (p.append front).headLength := by
      rw [bytes_append, headLength_append, List.length_append]
      omega
    have hfull : ¬ t.inboundOffset < t.targetSize := by
      rw [ht.offset, ht.target, hqlen]
      exact lt_irrefl _
    rw [if_neg hfull]
    rcases ht.state with ⟨hstate, hfirst⟩ | ⟨hstate, hfirst⟩
    · have hother : ¬ (p.append front).isProtocolHeader := fun hp => hp.1 hfirst
      rw [if_neg hother] at hrun
      simp only [hstate]
      exact agrees_handleHeader hfront hrun hbad ht hqlen hother (htmax.trans hmax)
    · have height : (p.append front).bytes.length = 8 := by
        rw [hqlen]
        unfold Pending.headLength
        rw [hfirst]
      have hmagic : t.headerBuffer.take 4 = (p.append front).bytes.take 4 := by
        rw [← ht.front, height, List.take_take]
        rfl
      simp only [hstate, hmagic]
      by_cases hprotocol : (p.append front).bytes.take 4 = [65, 77, 81, 80]
      · have hp : (p.append front).isProtocolHeader := ⟨by rw [hfirst]; simp, height, hprotocol⟩
        rw [if_pos hp] at hrun
        rw [if_pos hprotocol, peek_of_take ht.front (by omega), ok_bind,
          peek_of_take ht.front (by omega), ok_bind, peek_of_take ht.front (by omega), ok_bind,
          peek_of_take ht.front (by omega), ok_bind]
        exact ⟨List.length_pos_iff.mpr hfront, _, by rw [htake]; exact hrun, htmax.trans hmax,
          .inl ⟨Idle.returnToIdle ht.length, rfl⟩⟩
      · have hother : ¬ (p.append front).isProtocolHeader := fun hp => hprotocol hp.2.2
        rw [if_neg hother] at hrun
        rw [if_neg hprotocol]
        exact agrees_handleHeader hfront hrun hbad ht hqlen hother (htmax.trans hmax)

/-- `amqp_handle_input` follows the machine: where no announced size wraps around, no method
is empty and no content header too short, it has the frames and the failures of the machine. -/
theorem handleInput_follows (frameMax : ℕ) :
    Follows handleInput (absorb frameMax) (Represents frameMax) .undefined := by
  rintro s p data ⟨hmax, hrep⟩ hdata hbad
  have hpos := List.length_pos_iff.mpr hdata
  rcases hrep with ⟨hidle, rfl⟩ | ⟨hcollecting, hlen, -⟩ | ⟨hfilling, hlen⟩
  · have hstart : handleInput s data = handleInput { s with state := .header } data := by
      unfold handleInput
      have hlen : ¬ data.length = 0 := by omega
      rw [if_neg hlen, if_neg hlen]
      simp only [if_pos hidle.state]
      rfl
    rw [hstart]
    exact agrees_collecting hidle.collecting (by decide) hmax hdata hbad
  · exact agrees_collecting hcollecting hlen hmax hdata hbad
  · obtain ⟨t, hconsume, ht, htmax⟩ := consumeData_filling hfilling (Nat.le_of_lt hlen) data
    have hnotIdle : s.state ≠ .idle := by simp [hfilling.state]
    unfold handleInput
    rw [if_neg (by omega), if_neg hnotIdle]
    simp only [hconsume, ok_bind, ht.state]
    exact agrees_filling (show [] ++ data ≠ [] from hdata) (run_nil p)
      (hmax ▸ hfilling.admitted) hlen ht (htmax.trans hmax) (by simp)

end Follows

end Amqp
