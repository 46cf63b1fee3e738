/-
# Frames between two connections

What one connection writes with `amqp_frame_to_bytes` and sends, the other reads with
`amqp_handle_input`, however the bytes are divided on their way.  The frames arrive, in their
order, and the receiver is left between two frames.
-/
import Pungoo.AmqpInboundStream

namespace Amqp

open Wire Codec Failing Chunks

/-! ## A whole frame -/

section Frame

variable {frameMax : ℕ} {p : Pending} {bytes : Bytes}

/-- The bytes of one frame: the announced size is their number. -/
structure Whole (frameMax : ℕ) (bytes : Bytes) : Prop where
  size : announced bytes = bytes.length
  least : headerSize + footerSize ≤ bytes.length
  most : bytes.length ≤ frameMax
  other : bytes.take 4 ≠ [65, 77, 81, 80]

/-- A whole frame takes the machine from one end of a frame to the next. -/
theorem run_whole (hp : p.bytes = []) (h : Whole frameMax bytes) :
    run (absorb frameMax) p bytes = ofStep (p.append bytes).complete := by
  have hleast : 8 ≤ bytes.length := h.least
  have hhead := headLength_le (p := p)
  have hsplit := List.take_append_drop p.headLength bytes
  have hfrontLength : (bytes.take p.headLength).length = p.headLength := by
    rw [List.length_take]
    omega
  have hfour : (bytes.take p.headLength).take 4 = bytes.take 4 := by
    rw [List.take_take, Nat.min_eq_left (by omega)]
  have hsize := h.size
  have hother := h.other
  have hmost := h.most
  rw [← hfour] at hother
  generalize hfront : bytes.take p.headLength = front at *
  generalize bytes.drop p.headLength = rest at *
  subst hsplit
  rw [announced_append (by omega), List.length_append] at hsize
  rw [List.length_append] at hleast hmost
  have hbytes : (p.append front).bytes = front := by rw [bytes_append, hp, List.nil_append]
  have hnot : ¬ (p.append front).isProtocolHeader := by
    rintro ⟨-, -, htake⟩
    rw [hbytes] at htake
    exact hother htake
  have hadmitted : (p.append front).Admitted frameMax := by
    refine ⟨?_, hnot, ?_, ?_⟩
    · rw [hbytes, headLength_append, hfrontLength]
    · rw [hbytes, hsize]
      exact hleast
    · rw [hbytes, hsize]
      exact hmost
  have hrun := run_header_end frameMax (p := p)
    (List.length_pos_iff.mp (show 0 < front.length by omega)) (by rw [hp]; simpa using hfrontLength)
  rw [if_neg hnot] at hrun
  unfold Pending.accept at hrun
  simp only [hbytes, hsize, headerSize, footerSize] at hrun
  rw [if_neg (by omega), if_neg (by omega), if_neg (by omega)] at hrun
  rcases Nat.eq_zero_or_pos rest.length with hrest | hrest
  · obtain rfl : rest = [] := List.length_eq_zero_iff.mp hrest
    rw [if_neg (by simp)] at hrun
    rw [List.append_nil]
    exact hrun
  · rw [if_pos (by omega)] at hrun
    rw [run_append, hrun]
    have hcomplete := run_complete hadmitted (List.length_pos_iff.mp hrest)
      (by rw [hbytes, hsize])
    change andThen ([], .ok (p.append front)) _ = _
    rw [andThen_ok, hcomplete, append_append]
    rfl

end Frame

/-! ## The bytes of a frame -/

/-- The tables of a payload fit. -/
def Payload.TablesFit : Payload → Prop
  | .method m => m.TablesFit
  | .header _ properties => properties.TablesFit
  | .body _ | .heartbeat | .protocolHeader _ _ _ _ => True

/-- A frame that a connection can send, and another with this `frameMax` can receive. -/
structure Frame.Sendable (frameMax : ℕ) (frame : Frame) : Prop where
  encodable : frame.payload.Encodable
  named : frame.payload.Named
  tables : frame.payload.TablesFit
  most : (frameBytes frame).length ≤ frameMax
  width : (frameBytes frame).length < 2 ^ 32

theorem parseMethod_bytes {m : Method} (h : m.StringsFit) (ht : m.TablesFit) :
    parseMethod (Payload.method m).bytes = .ok (some (.method m)) := by
  have hlen : (Payload.method m).bytes.length = 4 + m.bytes.length := by simp [Payload.bytes]
  have hid : slice (Payload.method m).bytes 0 4 = be 4 m.number.id.toNat := by
    simpa [Payload.bytes] using slice_append [] (be 4 m.number.id.toNat) m.bytes rfl (by simp)
  have hargs : (Payload.method m).bytes.drop 4 = m.bytes := List.drop_left' (by simp)
  have hread := decodeMethod_reads h ht []
  rw [List.append_nil] at hread
  unfold parseMethod
  rw [if_neg (by omega), if_neg (by omega), hid, hargs,
    ofBe_be_of_lt (k := 4) m.number.id.toNat_lt, UInt32.ofNat_toNat, hread]
  rfl

theorem parseHeader_bytes {bodySize : UInt64} {p : Properties} (hknown : p.classId ∈ knownClasses)
    (hnamed : NamedFlags p.flags) (h : p.StringsFit) (ht : p.TablesFit) :
    parseHeader (Payload.header bodySize p).bytes = .ok (some (.header bodySize p)) := by
  have hlen : (Payload.header bodySize p).bytes.length = 12 + p.bytes.length := by
    simp [Payload.bytes]
    omega
  have hclass : slice (Payload.header bodySize p).bytes 0 2 = be 2 p.classId.toNat := by
    simpa [Payload.bytes] using slice_append [] (be 2 p.classId.toNat)
      (be 2 0 ++ (be 8 bodySize.toNat ++ p.bytes)) rfl (by simp)
  have hsize : slice (Payload.header bodySize p).bytes 4 8 = be 8 bodySize.toNat := by
    simpa [Payload.bytes] using slice_append (be 2 p.classId.toNat ++ be 2 0)
      (be 8 bodySize.toNat) p.bytes (by simp) (by simp)
  have hrest : (Payload.header bodySize p).bytes.drop 12 = p.bytes := by
    have hassoc : (Payload.header bodySize p).bytes =
        (be 2 p.classId.toNat ++ be 2 0 ++ be 8 bodySize.toNat) ++ p.bytes := by
      simp [Payload.bytes]
    rw [hassoc]
    exact List.drop_left' (by simp)
  have hread := decodeProperties_reads hknown hnamed h ht []
  rw [List.append_nil] at hread
  unfold parseHeader
  rw [if_neg (by omega), hclass, hsize, hrest, ofBe_be_of_lt (k := 2) p.classId.toNat_lt,
    ofBe_be_of_lt (k := 8) bodySize.toNat_lt, UInt16.ofNat_toNat, UInt64.ofNat_toNat, hread]
  rfl

theorem parsePayload_bytes {payload : Payload} (h : payload.Encodable) (hnamed : payload.Named)
    (ht : payload.TablesFit) :
    parsePayload payload.frameType.toNat payload.bytes = .ok (some payload) := by
  cases payload with
  | method m => exact parseMethod_bytes h ht
  | header bodySize p => exact parseHeader_bytes h.1 hnamed h.2 ht
  | body fragment => rfl
  | heartbeat => rfl
  | protocolHeader => exact absurd h (by simp [Payload.Encodable])

section Frame

variable {frame : Frame} {frameMax : ℕ}

/-- A frame is read back from its bytes. -/
theorem parseFrame_frameBytes (h : frame.payload.Encodable) (hnamed : frame.payload.Named)
    (ht : frame.payload.TablesFit) : parseFrame (frameBytes frame) = .ok (some frame) := by
  have hlen : (frameBytes frame).length = frame.payload.bytes.length + 8 := by
    rw [length_frameBytes]
    rfl
  have hend : slice (frameBytes frame) ((frameBytes frame).length - 1) 1 = [frameEnd] := by
    have hpart := slice_append (be 1 frame.payload.frameType.toNat ++ be 2 frame.channel.toNat ++
      (be 4 frame.payload.bytes.length ++ frame.payload.bytes)) [frameEnd] [] rfl rfl
    rw [List.append_nil] at hpart
    have hindex : (frameBytes frame).length - 1 = (be 1 frame.payload.frameType.toNat ++
        be 2 frame.channel.toNat ++
          (be 4 frame.payload.bytes.length ++ frame.payload.bytes)).length := by
      rw [frameBytes, List.length_append, List.length_singleton, Nat.add_sub_cancel]
    rw [hindex]
    exact hpart
  have hkind : slice (frameBytes frame) 0 1 = be 1 frame.payload.frameType.toNat := by
    simpa [frameBytes] using slice_append [] (be 1 frame.payload.frameType.toNat)
      (be 2 frame.channel.toNat ++ (be 4 frame.payload.bytes.length ++
        (frame.payload.bytes ++ [frameEnd]))) rfl (by simp)
  have hchannel : slice (frameBytes frame) 1 2 = be 2 frame.channel.toNat := by
    simpa [frameBytes] using slice_append (be 1 frame.payload.frameType.toNat)
      (be 2 frame.channel.toNat) (be 4 frame.payload.bytes.length ++
        (frame.payload.bytes ++ [frameEnd])) (by simp) (by simp)
  have hcontent : content (frameBytes frame) = frame.payload.bytes := by
    have hfront : headerSize = (be 1 frame.payload.frameType.toNat ++
        be 2 frame.channel.toNat ++ be 4 frame.payload.bytes.length).length := by
      simp [headerSize]
    have hback : (frameBytes frame).length - headerSize - footerSize =
        frame.payload.bytes.length := by
      rw [length_frameBytes, Nat.add_assoc, Nat.sub_sub, Nat.add_sub_cancel]
    have hpart := slice_append _ frame.payload.bytes [frameEnd] hfront hback
    simpa [content, frameBytes] using hpart
  unfold parseFrame
  rw [if_neg (not_not.mpr hend), hkind, hchannel, hcontent,
    ofBe_be_of_lt (k := 1) frame.payload.frameType.toNat_lt, parsePayload_bytes h hnamed ht,
    ofBe_be_of_lt (k := 2) frame.channel.toNat_lt, UInt16.ofNat_toNat]
  rfl

/-- The bytes of a frame are a whole frame. -/
theorem whole_frameBytes (h : frame.Sendable frameMax) : Whole frameMax (frameBytes frame) := by
  have hlen := length_frameBytes frame
  have hwidth := h.width
  refine ⟨?_, by omega, h.most, ?_⟩
  · have hsize : slice (frameBytes frame) 3 4 = be 4 frame.payload.bytes.length := by
      simpa [frameBytes] using slice_append (be 1 frame.payload.frameType.toNat ++
        be 2 frame.channel.toNat) (be 4 frame.payload.bytes.length)
          (frame.payload.bytes ++ [frameEnd]) (by simp) (by simp)
    unfold announced
    rw [hsize, ofBe_be_of_lt (k := 4) (by omega), ← hlen, Nat.mod_eq_of_lt hwidth]
  · -- a frame type is no letter
    intro hmagic
    have hhead : (frameBytes frame)[0]? = some frame.payload.frameType := by
      simp [frameBytes, be]
    have hletter : ((frameBytes frame).take 4)[0]? = some frame.payload.frameType := by
      rw [List.getElem?_take, if_pos (by omega), hhead]
    rw [hmagic] at hletter
    have htype : (65 : UInt8) = frame.payload.frameType := by simpa using hletter
    have hencodable := h.encodable
    cases hpayload : frame.payload <;> rw [hpayload] at htype hencodable
    all_goals first | exact hencodable | exact absurd htype (by simp [Payload.frameType])

/-- A frame is received by a connection between two frames. -/
theorem run_frameBytes (h : frame.Sendable frameMax) :
    run (absorb frameMax) Pending.idle (frameBytes frame) = ([frame], .ok Pending.idle) := by
  rw [run_whole rfl (whole_frameBytes h)]
  have hreceived : (Pending.idle.append (frameBytes frame)).received = frameBytes frame := rfl
  unfold Pending.complete
  rw [hreceived, parseFrame_frameBytes h.encodable h.named h.tables]
  rfl

end Frame

/-! ## Many frames -/

section Frames

variable {frameMax : ℕ} {s : Inbound} {frames : List Frame} {cs : List Bytes}

/-- Frames one after another are received by the machine, in their order. -/
theorem run_frames (h : ∀ frame ∈ frames, frame.Sendable frameMax) :
    run (absorb frameMax) Pending.idle (frames.flatMap frameBytes) =
      (frames, .ok Pending.idle) := by
  induction frames with
  | nil => rfl
  | cons frame frames ih =>
    rw [List.forall_mem_cons] at h
    rw [List.flatMap_cons, run_append, run_frameBytes h.1, andThen_ok, ih h.2]
    rfl

/-- Where the machine ends between two frames, so does the connection. -/
theorem feed_of_run {p : Pending} (hrep : Represents frameMax s p)
    (hrun : run (absorb frameMax) p cs.flatten = (frames, .ok Pending.idle)) :
    ∃ t, feed handleInput s cs = (frames, .ok t) ∧ Idle t ∧ t.frameMax = frameMax := by
  obtain ⟨hout, hend⟩ := feed_eq_run (handleInput_follows frameMax) hrep (by rw [hrun]; simp)
  rw [hrun] at hout hend
  rcases hfeed : feed handleInput s cs with ⟨out, e | t⟩ <;> rw [hfeed] at hout hend
  · exact hend.elim
  · have hidle : Represents frameMax t Pending.idle := hend
    obtain rfl : out = frames := hout
    exact ⟨t, rfl, hidle.idle, hidle.1⟩

/-- Frames arrive in their order, however their bytes are divided. -/
theorem feed_frames (h : ∀ frame ∈ frames, frame.Sendable frameMax) (hs : Idle s)
    (hmax : s.frameMax = frameMax) (hcs : cs.flatten = frames.flatMap frameBytes) :
    ∃ t, feed handleInput s cs = (frames, .ok t) ∧ Idle t ∧ t.frameMax = frameMax :=
  feed_of_run (represents_idle hmax hs) (by rw [hcs]; exact run_frames h)

/-- `amqp_send_frame(state, frame)`: what goes to the socket, and the outbound buffer
afterwards. -/
def sendFrame (outboundBuffer : Bytes) (frame : Frame) : Except Failure (Option Bytes × Bytes) := do
  let (outboundBuffer, len) ← frameToBytes frame outboundBuffer
  pure (some (outboundBuffer.take len), outboundBuffer)

/-- A frame with named flags, and tables that fit: the encoder takes these on trust. -/
def Frame.Sound (frame : Frame) : Prop := frame.payload.Named ∧ frame.payload.TablesFit

/-- A frame that fits is sent. -/
theorem sendFrame_fits {frame : Frame} {outboundBuffer : Bytes} (h : frame.payload.Encodable)
    (hnamed : frame.payload.Named) (hfits : (frameBytes frame).length ≤ outboundBuffer.length) :
    ∃ buffer, sendFrame outboundBuffer frame = .ok (some (frameBytes frame), buffer) ∧
      buffer.length = outboundBuffer.length := by
  have htake : (write outboundBuffer 0 (frameBytes frame)).take (frameBytes frame).length =
      frameBytes frame := by
    simpa using take_write_end (frameBytes frame) (Nat.zero_le outboundBuffer.length)
  refine ⟨write outboundBuffer 0 (frameBytes frame), ?_, length_write (by omega)⟩
  unfold sendFrame
  rw [frameToBytes_fits h hnamed hfits]
  simp only [ok_bind, htake]
  rfl

/-- Whatever is sent, the outbound buffer keeps its length. -/
theorem sendFrame_length {frame : Frame} {outboundBuffer buffer : Bytes} {o : Option Bytes}
    (h : sendFrame outboundBuffer frame = .ok (o, buffer)) :
    buffer.length = outboundBuffer.length := by
  obtain ⟨⟨out, len⟩, hframe, h⟩ := bind_eq_ok_iff.mp h
  obtain ⟨-, rfl⟩ := Prod.mk.inj (Except.ok.inj h)
  exact frameToBytes_length hframe
/-- A frame that was sent fits. -/
theorem sendFrame_eq_ok {frame : Frame} {outboundBuffer buffer : Bytes} {o : Option Bytes}
    (hnamed : frame.payload.Named) (h : sendFrame outboundBuffer frame = .ok (o, buffer)) :
    frame.payload.Encodable ∧ (frameBytes frame).length ≤ outboundBuffer.length ∧
      o = some (frameBytes frame) ∧ buffer.length = outboundBuffer.length := by
  obtain ⟨⟨out, len⟩, hframe, -⟩ := bind_eq_ok_iff.mp h
  obtain ⟨hencodable, hle, -, -⟩ := frameToBytes_eq_ok hnamed hframe
  obtain ⟨buffer', hsend, hlen⟩ := sendFrame_fits hencodable hnamed hle
  rw [h] at hsend
  obtain ⟨rfl, rfl⟩ := Prod.mk.inj (Except.ok.inj hsend)
  exact ⟨hencodable, hle, rfl, hlen⟩

/-- What was sent are the bytes of the frames, and each of them can be received. -/
theorem run_sendFrame_eq_ok {outboundBuffer buffer : Bytes} {sent : List Bytes}
    (hwidth : outboundBuffer.length < 2 ^ 32) (hmax : outboundBuffer.length ≤ frameMax)
    (hsound : ∀ frame ∈ frames, frame.Sound)
    (h : run sendFrame outboundBuffer frames = (sent, .ok buffer)) :
    sent = frames.map frameBytes ∧ ∀ frame ∈ frames, frame.Sendable frameMax := by
  induction frames generalizing outboundBuffer sent with
  | nil => exact ⟨(Prod.mk.inj h).1.symm, by simp⟩
  | cons frame frames ih =>
    rw [List.forall_mem_cons] at hsound
    cases hframe : sendFrame outboundBuffer frame with
    | error e =>
      rw [run_cons_error hframe] at h
      exact absurd (Prod.mk.inj h).2 (by simp)
    | ok x =>
      obtain ⟨o, out⟩ := x
      rw [run_cons_ok hframe] at h
      obtain ⟨rfl, hend⟩ := Prod.mk.inj h
      obtain ⟨hencodable, hle, rfl, hlen⟩ := sendFrame_eq_ok hsound.1.1 hframe
      obtain ⟨hrest, hall⟩ := ih (by rw [hlen]; exact hwidth) (by rw [hlen]; exact hmax) hsound.2
        (Prod.ext rfl hend)
      refine ⟨congrArg (frameBytes frame :: ·) hrest, List.forall_mem_cons.mpr ⟨?_, hall⟩⟩
      exact ⟨hencodable, hsound.1.1, hsound.1.2, by omega, by omega⟩

/-- What one connection sends the other receives: the same frames in the same order, however
the bytes are divided, if the outbound buffer is no larger than the other's `frame_max`. -/
theorem frames_roundtrip (frames : List Frame) (outboundBuffer buffer : Bytes) (s : Inbound)
    (sent cs : List Bytes) (hwidth : outboundBuffer.length < 2 ^ 32)
    (hmax : outboundBuffer.length ≤ s.frameMax) (hsound : ∀ frame ∈ frames, frame.Sound)
    (hsend : run sendFrame outboundBuffer frames = (sent, .ok buffer)) (hs : Idle s)
    (hcs : cs.flatten = sent.flatten) :
    ∃ t, feed handleInput s cs = (frames, .ok t) ∧ Idle t ∧ t.frameMax = s.frameMax := by
  obtain ⟨rfl, hsendable⟩ := run_sendFrame_eq_ok hwidth hmax hsound hsend
  exact feed_frames hsendable hs rfl (hcs.trans List.flatMap_def.symm)

theorem frames_roundtrip_two :
    ∃ t, feed handleInput (newInbound 16 fun _ _ => 0).returnToIdle
        [[8, 0, 0, 0, 0, 0], [0, 206, 3, 0, 1], [0, 0, 0, 3, 1, 2, 3, 206]] =
      ([⟨0, .heartbeat⟩, ⟨1, .body [1, 2, 3]⟩], .ok t) := by
  obtain ⟨t, h, -⟩ := frames_roundtrip [⟨0, .heartbeat⟩, ⟨1, .body [1, 2, 3]⟩]
    (List.replicate 16 0) _ (newInbound 16 fun _ _ => 0).returnToIdle _
    [[8, 0, 0, 0, 0, 0], [0, 206, 3, 0, 1], [0, 0, 0, 3, 1, 2, 3, 206]] (by decide) (by decide)
    (by simp [Frame.Sound, Payload.Named, Payload.TablesFit]) rfl ⟨rfl, rfl, rfl, rfl⟩ rfl
  exact ⟨t, h⟩

/-! ## The first frame -/

/-- On a new connection the first byte of the first payload is replaced. -/
theorem set_frameBytes (frame : Frame) (b : UInt8) :
    (frameBytes frame).set 7 b =
      be 1 frame.payload.frameType.toNat ++ be 2 frame.channel.toNat ++
        be 4 frame.payload.bytes.length ++ (frame.payload.bytes ++ [frameEnd]).set 0 b := by
  have hsplit : frameBytes frame = (be 1 frame.payload.frameType.toNat ++
      be 2 frame.channel.toNat ++ be 4 frame.payload.bytes.length) ++
        (frame.payload.bytes ++ [frameEnd]) := by
    simp [frameBytes]
  have hlen : (be 1 frame.payload.frameType.toNat ++ be 2 frame.channel.toNat ++
      be 4 frame.payload.bytes.length).length = 7 := by simp
  rw [hsplit, List.set_append_right 7 b (by omega), hlen]

/-- The class of a method is less than 256: its highest byte is zero. -/
theorem id_lt (m : MethodNumber) : m.id.toNat < 256 ^ 3 := by
  cases m <;> decide

/-- So is that of the class of a content header. -/
theorem classId_lt : ∀ classId ∈ knownClasses, classId.toNat < 256 := by
  simp [knownClasses, basicClass]

/-- A method or a content header starts with a zero. -/
theorem payload_head {payload : Payload} (h : payload.Encodable)
    (hkind : payload.frameType = 1 ∨ payload.frameType = 2) :
    ∃ rest, payload.bytes = 0 :: rest := by
  cases payload with
  | method m =>
    have hzero : m.number.id.toNat / 256 ^ 3 = 0 := Nat.div_eq_of_lt (id_lt m.number)
    exact ⟨_, by simp only [Payload.bytes, be, hzero]; rfl⟩
  | header bodySize p =>
    have hzero : p.classId.toNat / 256 ^ 1 = 0 := Nat.div_eq_of_lt (classId_lt _ h.1)
    exact ⟨_, by simp only [Payload.bytes, be, hzero]; rfl⟩
  | protocolHeader => exact absurd h (by simp [Payload.Encodable])
  | body | heartbeat => exact absurd hkind (by simp [Payload.frameType])

/-- The machine on the first frame and the frames behind it. -/
theorem run_first {frame : Frame} {b : UInt8}
    (h : ∀ f ∈ frame :: frames, f.Sendable frameMax) :
    run (absorb frameMax) (Pending.new b) ((frame :: frames).flatMap frameBytes) =
      match parseFrame ((frameBytes frame).set 7 b) with
      | .error e => ([], .error e)
      | .ok f => (f.toList ++ frames, .ok Pending.idle) := by
  rw [List.forall_mem_cons] at h
  have hwhole := run_whole (p := Pending.new b) rfl (whole_frameBytes h.1)
  have hreceived : ((Pending.new b).append (frameBytes frame)).received =
      (frameBytes frame).set 7 b := rfl
  rw [List.flatMap_cons, run_append, hwhole]
  unfold Pending.complete
  rw [hreceived]
  cases hparse : parseFrame ((frameBytes frame).set 7 b) with
  | error e => rfl
  | ok f =>
    change andThen (f.toList, .ok Pending.idle) _ = _
    rw [andThen_ok, run_frames h.2]

/-- What a new connection receives.  A method or content header arrives first as it was sent
if the memory of its block is clear; a body arrives with its first byte replaced by what that
memory holds; a frame without payload is refused.  All later frames arrive as they were
sent. -/
theorem new_connection (frameMax : ℕ) (pool : ℕ → ℕ → UInt8) (frame : Frame)
    (frames : List Frame) (cs : List Bytes) (h : ∀ f ∈ frame :: frames, f.Sendable frameMax)
    (hcs : cs.flatten = (frame :: frames).flatMap frameBytes) :
    (frame.payload.frameType = 1 ∨ frame.payload.frameType = 2 → pool 0 7 = 0 →
        ∃ t, feed handleInput (newInbound frameMax pool) cs = (frame :: frames, .ok t) ∧
          Idle t) ∧
      (∀ c rest, frame.payload = .body (c :: rest) →
        ∃ t, feed handleInput (newInbound frameMax pool) cs =
            ({ frame with payload := .body (pool 0 7 :: rest) } :: frames, .ok t) ∧ Idle t) ∧
      (frame.payload.bytes = [] → pool 0 7 ≠ frameEnd →
        feed handleInput (newInbound frameMax pool) cs = ([], .error (.status .badAmqpData))) := by
  have hrep := represents_new frameMax pool
  have hrun := run_first (b := pool 0 7) h
  rw [← hcs] at hrun
  have hframe := (List.forall_mem_cons.mp h).1
  refine ⟨fun hkind hclear => ?_, fun c rest hbody => ?_, fun hempty hmark => ?_⟩
  · obtain ⟨rest, hpayload⟩ := payload_head hframe.encodable hkind
    have hsame : (frameBytes frame).set 7 (pool 0 7) = frameBytes frame := by
      rw [set_frameBytes, hpayload, hclear]
      simp [frameBytes, hpayload]
    rw [hsame, parseFrame_frameBytes hframe.encodable hframe.named hframe.tables] at hrun
    obtain ⟨t, hfeed, hidle, -⟩ := feed_of_run hrep hrun
    exact ⟨t, hfeed, hidle⟩
  · have hsame : (frameBytes frame).set 7 (pool 0 7) =
        frameBytes { frame with payload := .body (pool 0 7 :: rest) } := by
      rw [set_frameBytes]
      simp [frameBytes, hbody, Payload.bytes, Payload.frameType]
    have hparse : parseFrame (frameBytes { frame with payload := .body (pool 0 7 :: rest) }) =
        .ok (some { frame with payload := .body (pool 0 7 :: rest) }) :=
      parseFrame_frameBytes trivial trivial trivial
    rw [hsame, hparse] at hrun
    obtain ⟨t, hfeed, hidle, -⟩ := feed_of_run hrep hrun
    exact ⟨t, hfeed, hidle⟩
  · have hparse : parseFrame ((frameBytes frame).set 7 (pool 0 7)) =
        .error (.status .badAmqpData) := by
      have hset : (frameBytes frame).set 7 (pool 0 7) = (be 1 frame.payload.frameType.toNat ++
          be 2 frame.channel.toNat ++ be 4 0) ++ [pool 0 7] := by
        rw [set_frameBytes, hempty]
        rfl
      have hlast : slice ((be 1 frame.payload.frameType.toNat ++ be 2 frame.channel.toNat ++
          be 4 0) ++ [pool 0 7]) 7 1 = [pool 0 7] := by
        simpa using slice_append (be 1 frame.payload.frameType.toNat ++
          be 2 frame.channel.toNat ++ be 4 0) [pool 0 7] [] (by simp) rfl
      have hindex : ((be 1 frame.payload.frameType.toNat ++ be 2 frame.channel.toNat ++
          be 4 0) ++ [pool 0 7]).length - 1 = 7 := by simp
      unfold parseFrame
      rw [hset, hindex, hlast, if_pos (by simpa using hmark)]
    rw [hparse] at hrun
    obtain ⟨hout, hend⟩ := feed_eq_run (handleInput_follows frameMax) hrep (by rw [hrun]; simp)
    rw [hrun] at hout hend
    rcases hfeed : feed handleInput (newInbound frameMax pool) cs with ⟨out, e | t⟩ <;>
      rw [hfeed] at hout hend
    · obtain rfl : out = [] := hout
      obtain rfl : e = .status .badAmqpData := hend
      rfl
    · exact hend.elim

theorem new_connection_body :
    ∃ t, feed handleInput (newInbound 4096 fun _ _ => 7) [[3, 0, 1, 0, 0], [0, 2, 1, 2, 206]] =
      ([⟨1, .body [7, 2]⟩], .ok t) ∧ Idle t := by
  have hsent : ∀ f ∈ [(⟨1, .body [1, 2]⟩ : Frame)], f.Sendable 4096 := by
    rw [List.forall_mem_cons]
    exact ⟨⟨trivial, trivial, trivial, by decide, by decide⟩, by simp⟩
  exact (new_connection 4096 (fun _ _ => 7) ⟨1, .body [1, 2]⟩ []
    [[3, 0, 1, 0, 0], [0, 2, 1, 2, 206]] hsent rfl).2.1 1 [2] rfl

end Frames

end Amqp
