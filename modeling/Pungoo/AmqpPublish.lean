/-
# Publishing, `librabbitmq/amqp_api.c`

`amqp_basic_publish` sends a method, a content header and the body in frames that fill the
outbound buffer, whose size is `frame_max` (`amqp_tune_connection`).  It checks nothing in
advance: where the content header does not fit, the method has been sent.
-/
import Pungoo.AmqpDelivery
import Mathlib.Data.Fin.VecNotation

namespace Amqp

open Wire Codec Failing Chunks

/-! ## The code -/

/-- `default_properties` of `amqp_basic_publish`. -/
def defaultProperties : BasicProperties where
  classId := basicClass
  flags := 0
  values := ((), (), (), (), (), (), (), (), (), (), (), (), (), (), ())
  basic := rfl

/-- `amqp_basic_publish_t`. -/
structure Publish where
  ticket : UInt16
  exchange : Bytes
  routingKey : Bytes
  mandatory : Bool
  immediate : Bool

/-- The bits share a byte, `mandatory` the lowest. -/
def Publish.toMethod (m : Publish) : Method where
  number := .basicPublish
  fields := (m.ticket, m.exchange, m.routingKey, ![m.mandatory, m.immediate], ())

/-- `usable_body_payload_size`, a `size_t`. -/
def usableBodyPayloadSize (frameMax : ℕ) : ℕ :=
  (2 ^ 64 + frameMax - (headerSize + footerSize)) % 2 ^ 64

/-- The loop of `amqp_basic_publish` over the body. -/
def sendBody (channel : UInt16) (usable : ℕ) (body : Bytes) :
    ℕ → ℕ → Bytes → Trace Bytes Failure Bytes
  | 0, _, outboundBuffer => ([], .ok outboundBuffer)
  | passes + 1, bodyOffset, outboundBuffer =>
    if bodyOffset < body.length then
      let remaining := body.length - bodyOffset
      let len := if usable ≤ remaining then usable else remaining
      andThen (ofStep (sendFrame outboundBuffer
          { channel := channel, payload := .body (slice body bodyOffset len) }))
        fun outboundBuffer => sendBody channel usable body passes (bodyOffset + len) outboundBuffer
    else ([], .ok outboundBuffer)

/-- The method of `amqp_basic_publish`. -/
def publishMethod (channel : UInt16) (exchange routingKey : Bytes) (mandatory immediate : Bool) :
    Frame where
  channel := channel
  payload := .method (Publish.mk 0 exchange routingKey mandatory immediate).toMethod

/-- The content header of `amqp_basic_publish`. -/
def publishHeader (channel : UInt16) (properties : Option BasicProperties) (body : Bytes) :
    Frame where
  channel := channel
  payload := .header (UInt64.ofNat body.length) (properties.getD defaultProperties).toProperties

/-- `amqp_basic_publish(state, channel, exchange, routing_key, mandatory, immediate,
properties, body)`: what goes to the socket, and the outbound buffer afterwards. -/
def basicPublish (frameMax : ℕ) (channel : UInt16) (exchange routingKey : Bytes)
    (mandatory immediate : Bool) (properties : Option BasicProperties) (body : Bytes)
    (outboundBuffer : Bytes) : Trace Bytes Failure Bytes :=
  andThen (ofStep (sendFrame outboundBuffer
    (publishMethod channel exchange routingKey mandatory immediate))) fun outboundBuffer =>
  andThen (ofStep (sendFrame outboundBuffer
    (publishHeader channel properties body))) fun outboundBuffer =>
  sendBody channel (usableBodyPayloadSize frameMax) body body.length 0 outboundBuffer

/-! ## What is sent -/

/-- A frame that a buffer of `n` bytes can hold. -/
def Frame.FitsIn (n : ℕ) (frame : Frame) : Prop :=
  frame.payload.Encodable ∧ (frameBytes frame).length ≤ n

/-- A body frame. -/
def bodyFrame (channel : UInt16) (fragment : Bytes) : Frame :=
  { channel := channel, payload := .body fragment }

/-- A body in fragments: none is empty, and all but the last have the size `usable`. -/
structure Fragments (usable : ℕ) (body : Bytes) (fragments : List Bytes) : Prop where
  flatten : fragments.flatten = body
  nonempty : ∀ fragment ∈ fragments, fragment ≠ []
  most : ∀ fragment ∈ fragments, fragment.length ≤ usable
  full : ∀ fragment ∈ fragments.dropLast, fragment.length = usable

theorem Fragments.nil (usable : ℕ) : Fragments usable [] [] := ⟨rfl, by simp, by simp, by simp⟩

/-- A fragment in front of others is full, or there are no others. -/
theorem Fragments.cons {usable : ℕ} {fragment body : Bytes} {fragments : List Bytes}
    (h : Fragments usable body fragments) (hne : fragment ≠ []) (hmost : fragment.length ≤ usable)
    (hfull : fragment.length = usable ∨ body = []) :
    Fragments usable (fragment ++ body) (fragment :: fragments) := by
  refine ⟨by rw [List.flatten_cons, h.flatten], List.forall_mem_cons.mpr ⟨hne, h.nonempty⟩,
    List.forall_mem_cons.mpr ⟨hmost, h.most⟩, ?_⟩
  cases fragments with
  | nil => simp
  | cons next fragments =>
    have hbody : body ≠ [] := by
      rw [← h.flatten, List.flatten_cons]
      exact List.append_ne_nil_of_left_ne_nil (h.nonempty next (by simp)) _
    rw [List.dropLast_cons_cons, List.forall_mem_cons]
    exact ⟨hfull.resolve_right hbody, h.full⟩

section Publish

variable {channel : UInt16} {usable passes bodyOffset frameMax : ℕ} {body outboundBuffer : Bytes}
  {frames : List Frame}

theorem usableBodyPayloadSize_eq (hleast : 8 ≤ frameMax) (hmost : frameMax < 2 ^ 64) :
    usableBodyPayloadSize frameMax = frameMax - 8 := by
  simp only [usableBodyPayloadSize, headerSize, footerSize]
  omega

/-- The loop sends the rest of the body in fragments; a pass for each byte is enough. -/
theorem sendBody_sends (channel : UInt16) (usable bodyOffset passes : ℕ) (body : Bytes)
    (husable : 0 < usable) (hpasses : body.length - bodyOffset ≤ passes) :
    ∃ fragments, Fragments usable (body.drop bodyOffset) fragments ∧ ∀ outboundBuffer,
      sendBody channel usable body passes bodyOffset outboundBuffer =
        run sendFrame outboundBuffer (fragments.map (bodyFrame channel)) := by
  induction passes generalizing bodyOffset with
  | zero =>
    rw [List.drop_eq_nil_of_le (by omega)]
    exact ⟨[], .nil usable, fun _ => rfl⟩
  | succ passes ih =>
    rcases Nat.lt_or_ge bodyOffset body.length with hlt | hge
    · generalize hlen : (if usable ≤ body.length - bodyOffset then usable
        else body.length - bodyOffset) = len
      have hpos : 0 < len ∧ len ≤ usable ∧ bodyOffset + len ≤ body.length ∧
          (len = usable ∨ bodyOffset + len = body.length) := by
        split at hlen <;> omega
      obtain ⟨hpos, hmost, hend, hfull⟩ := hpos
      have hslice : (slice body bodyOffset len).length = len := length_slice hend
      have hsplit : body.drop bodyOffset =
          slice body bodyOffset len ++ body.drop (bodyOffset + len) := by
        rw [slice, ← List.drop_drop, List.take_append_drop]
      obtain ⟨fragments, hfragments, hrest⟩ := ih (bodyOffset + len) (by omega)
      refine ⟨slice body bodyOffset len :: fragments, ?_, fun outboundBuffer => ?_⟩
      · rw [hsplit]
        refine hfragments.cons (List.length_pos_iff.mp (by omega)) (by omega) ?_
        exact hfull.imp (fun h => by omega) fun h => List.drop_eq_nil_of_le (by omega)
      · rw [sendBody, if_pos hlt]
        simp only [hlen, hrest]
        exact andThen_ofStep outboundBuffer _ _
    · rw [List.drop_eq_nil_of_le hge]
      refine ⟨[], .nil usable, fun outboundBuffer => ?_⟩
      rw [sendBody, if_neg (by omega)]
      rfl

/-- Frames that fit are sent. -/
theorem run_sendFrame_fits (hfits : ∀ frame ∈ frames, frame.FitsIn outboundBuffer.length)
    (hnamed : ∀ frame ∈ frames, frame.payload.Named) :
    ∃ buffer, run sendFrame outboundBuffer frames = (frames.map frameBytes, .ok buffer) ∧
      buffer.length = outboundBuffer.length := by
  induction frames generalizing outboundBuffer with
  | nil => exact ⟨outboundBuffer, rfl, rfl⟩
  | cons frame frames ih =>
    rw [List.forall_mem_cons] at hfits hnamed
    obtain ⟨out, hsend, hlen⟩ := sendFrame_fits hfits.1.1 hnamed.1 hfits.1.2
    obtain ⟨buffer, hrun, hlen'⟩ := ih (by rw [hlen]; exact hfits.2) hnamed.2
    refine ⟨buffer, ?_, hlen'.trans hlen⟩
    rw [run_cons_ok hsend, hrun]
    rfl

/-- A frame that does not fit is not sent. -/
theorem sendFrame_error {frame : Frame} {outboundBuffer : Bytes} (hnamed : frame.payload.Named)
    (h : ¬ frame.FitsIn outboundBuffer.length) :
    ∃ e, sendFrame outboundBuffer frame = .error e := by
  cases hsend : sendFrame outboundBuffer frame with
  | error e => exact ⟨e, rfl⟩
  | ok x =>
    obtain ⟨hencodable, hle, -, -⟩ := sendFrame_eq_ok hnamed hsend
    exact absurd ⟨hencodable, hle⟩ h

/-- Frames are sent up to the first that does not fit. -/
theorem run_sendFrame_stops {frame : Frame} (frames rest : List Frame)
    (hfits : ∀ f ∈ frames, f.FitsIn outboundBuffer.length)
    (hnamed : ∀ f ∈ frames, f.payload.Named) (hframe : frame.payload.Named)
    (hlong : ¬ frame.FitsIn outboundBuffer.length) :
    ∃ e, run sendFrame outboundBuffer (frames ++ frame :: rest) =
      (frames.map frameBytes, .error e) := by
  obtain ⟨buffer, hrun, hlen⟩ := run_sendFrame_fits hfits hnamed
  obtain ⟨e, hsend⟩ := sendFrame_error hframe (by rw [hlen]; exact hlong)
  refine ⟨e, ?_⟩
  rw [run_append, hrun, andThen_ok, run_cons_error hsend]
  simp

/-- With room for more than an empty frame, a call is a run over the frames of the message. -/
theorem basicPublish_sends (hleast : 8 < frameMax) (hmost : frameMax < 2 ^ 64)
    (channel : UInt16) (body : Bytes) :
    ∃ fragments, Fragments (frameMax - 8) body fragments ∧
      ∀ exchange routingKey mandatory immediate properties outboundBuffer,
        basicPublish frameMax channel exchange routingKey mandatory immediate properties body
            outboundBuffer =
          run sendFrame outboundBuffer
            (publishMethod channel exchange routingKey mandatory immediate ::
              publishHeader channel properties body :: fragments.map (bodyFrame channel)) := by
  obtain ⟨fragments, hfragments, hbody⟩ :=
    sendBody_sends channel (frameMax - 8) 0 body.length body (by omega) (Nat.le_refl _)
  refine ⟨fragments, hfragments, ?_⟩
  intro exchange routingKey mandatory immediate properties outboundBuffer
  unfold basicPublish
  rw [usableBodyPayloadSize_eq (by omega) hmost]
  simp only [hbody, andThen_ofStep]

/-- A body frame has no flags. -/
theorem bodyFrame_named {fragments : List Bytes} :
    ∀ frame ∈ fragments.map (bodyFrame channel), frame.payload.Named := by
  intro frame hframe
  obtain ⟨fragment, -, rfl⟩ := List.mem_map.mp hframe
  trivial

/-- The body frames fit. -/
theorem bodyFrame_fits {fragments : List Bytes} (hleast : 8 ≤ frameMax)
    (h : Fragments (frameMax - 8) body fragments) :
    ∀ frame ∈ fragments.map (bodyFrame channel), frame.FitsIn frameMax := by
  intro frame hframe
  obtain ⟨fragment, hfragment, rfl⟩ := List.mem_map.mp hframe
  have hmost := h.most fragment hfragment
  refine ⟨trivial, ?_⟩
  rw [length_frameBytes]
  simp only [bodyFrame, Payload.bytes, headerSize, footerSize]
  omega

theorem default_stringsFit : defaultProperties.StringsFit :=
  ⟨trivial, trivial, trivial, trivial, trivial, trivial, trivial, trivial, trivial, trivial,
    trivial, trivial, trivial, trivial, trivial⟩

theorem default_tablesFit : defaultProperties.TablesFit :=
  ⟨trivial, trivial, trivial, trivial, trivial, trivial, trivial, trivial, trivial, trivial,
    trivial, trivial, trivial, trivial, trivial⟩

theorem default_named : NamedFlags defaultProperties.flags := ⟨by decide, by decide⟩

/-- A method that fits leaves room for more than an empty frame. -/
theorem method_room {exchange routingKey : Bytes} {mandatory immediate : Bool}
    (h : (publishMethod channel exchange routingKey mandatory immediate).FitsIn frameMax) :
    8 < frameMax := by
  have hle := h.2
  rw [length_frameBytes] at hle
  simp only [publishMethod, Payload.bytes, headerSize, footerSize, List.length_append,
    length_be] at hle
  omega

/-- The flags of a message are named. -/
theorem publish_named {exchange routingKey : Bytes} {mandatory immediate : Bool}
    {properties : Option BasicProperties} {fragments : List Bytes}
    (hnamed : NamedFlags (properties.getD defaultProperties).flags) :
    ∀ frame ∈ publishMethod channel exchange routingKey mandatory immediate ::
      publishHeader channel properties body :: fragments.map (bodyFrame channel),
      frame.payload.Named := by
  rw [List.forall_mem_cons, List.forall_mem_cons]
  exact ⟨trivial, hnamed, bodyFrame_named⟩

/-- What a call sends depends on whether the method and the content header fit in a frame: the
whole message, with the body in full frames but for the last; or only the method; or
nothing. -/
theorem publish_sends (frameMax : ℕ) (channel : UInt16) (exchange routingKey : Bytes)
    (mandatory immediate : Bool) (properties : Option BasicProperties)
    (body outboundBuffer : Bytes) (hbuffer : outboundBuffer.length = frameMax)
    (hmax : frameMax < 2 ^ 31) (hnamed : NamedFlags (properties.getD defaultProperties).flags) :
    ((publishMethod channel exchange routingKey mandatory immediate).FitsIn frameMax →
        (publishHeader channel properties body).FitsIn frameMax →
        ∃ fragments buffer, Fragments (frameMax - 8) body fragments ∧
          basicPublish frameMax channel exchange routingKey mandatory immediate properties body
              outboundBuffer =
            ((publishMethod channel exchange routingKey mandatory immediate ::
              publishHeader channel properties body ::
                fragments.map (bodyFrame channel)).map frameBytes, .ok buffer)) ∧
      ((publishMethod channel exchange routingKey mandatory immediate).FitsIn frameMax →
        ¬ (publishHeader channel properties body).FitsIn frameMax →
        ∃ e, basicPublish frameMax channel exchange routingKey mandatory immediate properties
            body outboundBuffer =
          ([frameBytes (publishMethod channel exchange routingKey mandatory immediate)],
            .error e)) ∧
      (¬ (publishMethod channel exchange routingKey mandatory immediate).FitsIn frameMax →
        ∃ e, basicPublish frameMax channel exchange routingKey mandatory immediate properties
            body outboundBuffer = ([], .error e)) := by
  refine ⟨fun hmethod hheader => ?_, fun hmethod hheader => ?_, fun hmethod => ?_⟩
  · have hleast : 8 < frameMax := method_room hmethod
    obtain ⟨fragments, hfragments, hrun⟩ := basicPublish_sends hleast (by omega) channel body
    have hfits : ∀ frame ∈ publishMethod channel exchange routingKey mandatory immediate ::
        publishHeader channel properties body :: fragments.map (bodyFrame channel),
        frame.FitsIn outboundBuffer.length := by
      rw [hbuffer, List.forall_mem_cons, List.forall_mem_cons]
      exact ⟨hmethod, hheader, bodyFrame_fits (by omega) hfragments⟩
    obtain ⟨buffer, hsent, -⟩ := run_sendFrame_fits hfits (publish_named hnamed)
    exact ⟨fragments, buffer, hfragments, by rw [hrun, hsent]⟩
  · have hleast : 8 < frameMax := method_room hmethod
    obtain ⟨fragments, -, hrun⟩ := basicPublish_sends hleast (by omega) channel body
    rw [hrun]
    exact run_sendFrame_stops [publishMethod channel exchange routingKey mandatory immediate] _
      (by simpa [hbuffer] using hmethod) (by simp [publishMethod, Payload.Named]) hnamed
      (by rw [hbuffer]; exact hheader)
  · rw [← hbuffer] at hmethod
    have hplain :
        (publishMethod channel exchange routingKey mandatory immediate).payload.Named := trivial
    obtain ⟨e, hsend⟩ := sendFrame_error hplain hmethod
    refine ⟨e, ?_⟩
    unfold basicPublish
    rw [hsend]
    rfl

example :
    ∃ fragments buffer, Fragments 16 (List.replicate 20 5) fragments ∧
      basicPublish 24 1 [] [113] true false none (List.replicate 20 5) (List.replicate 24 0) =
        ((publishMethod 1 [] [113] true false :: publishHeader 1 none (List.replicate 20 5) ::
          fragments.map (bodyFrame 1)).map frameBytes, .ok buffer) :=
  (publish_sends 24 1 [] [113] true false none (List.replicate 20 5) (List.replicate 24 0) rfl
    (by decide) default_named).1
    ⟨⟨trivial, show 0 < 2 ^ 8 by decide, show 1 < 2 ^ 8 by decide, trivial, trivial⟩,
      by decide⟩
    ⟨⟨by decide, default_stringsFit⟩, by decide⟩

theorem sendFrame_undefined_iff (frame : Frame) (outboundBuffer : Bytes) :
    sendFrame outboundBuffer frame = .error .undefined ↔
      outboundBuffer.length < frame.payload.room := by
  rw [← frameToBytes_undefined_iff, sendFrame, bind_eq_error_iff]
  simp [pure, Except.pure]

/-- A call writes behind the end of the outbound buffer only where `frame_max` is very small:
the method has no room, or it fits and the content header has none. -/
theorem publish_undefined_iff (frameMax : ℕ) (channel : UInt16) (exchange routingKey : Bytes)
    (mandatory immediate : Bool) (properties : Option BasicProperties)
    (body outboundBuffer : Bytes) (hbuffer : outboundBuffer.length = frameMax)
    (hmax : frameMax < 2 ^ 31) :
    (basicPublish frameMax channel exchange routingKey mandatory immediate properties body
        outboundBuffer).2 = .error .undefined ↔
      frameMax < 12 ∨
        (publishMethod channel exchange routingKey mandatory immediate).FitsIn frameMax ∧
          frameMax < 20 := by
  have hsends := fun hleast : 8 < frameMax =>
    basicPublish_sends hleast (by omega : frameMax < 2 ^ 64) channel body
  generalize hm : publishMethod channel exchange routingKey mandatory immediate = method
  generalize hh : publishHeader channel properties body = header
  have hmroom : method.payload.room = 12 := by rw [← hm]; rfl
  have hhroom : header.payload.room = 20 := by rw [← hh]; rfl
  have hplain : method.payload.Named := by rw [← hm]; trivial
  cases hmethod : sendFrame outboundBuffer method with
  | error e =>
    have hiff := sendFrame_undefined_iff method outboundBuffer
    have hnot : ¬ method.FitsIn frameMax := by
      intro hfits
      rw [← hbuffer] at hfits
      obtain ⟨buffer, hsend, -⟩ := sendFrame_fits hfits.1 hplain hfits.2
      rw [hmethod] at hsend
      exact absurd hsend (by simp)
    rw [hmethod, hmroom, hbuffer, Except.error.injEq] at hiff
    unfold basicPublish
    rw [hm, hmethod]
    simp [ofStep, hiff, hnot]
  | ok x =>
    obtain ⟨o, out⟩ := x
    obtain ⟨hencodable, hle, -, hlen⟩ := sendFrame_eq_ok hplain hmethod
    rw [hbuffer] at hle hlen
    have hfits : method.FitsIn frameMax := ⟨hencodable, hle⟩
    have hmiss := sendFrame_undefined_iff method outboundBuffer
    rw [hmethod, hmroom, hbuffer] at hmiss
    have hlarge : ¬ frameMax < 12 := by simpa using hmiss
    obtain ⟨fragments, hfragments, hrun⟩ := hsends (by omega)
    rw [hrun, hm, hh, run_cons_ok hmethod]
    cases hheader : sendFrame out header with
    | error e =>
      have hiff := sendFrame_undefined_iff header out
      rw [hheader, hhroom, hlen, Except.error.injEq] at hiff
      rw [run_cons_error hheader]
      simp [hiff, hfits, hlarge]
    | ok y =>
      -- the buffer keeps its length whatever the flags, and a body frame has none
      have hiff := sendFrame_undefined_iff header out
      rw [hheader, hhroom, hlen] at hiff
      have hroom : ¬ frameMax < 20 := by simpa using hiff
      obtain ⟨o', out'⟩ := y
      have hlen' : out'.length = frameMax := (sendFrame_length hheader).trans hlen
      have hbody : ∀ frame ∈ fragments.map (bodyFrame channel), frame.FitsIn frameMax :=
        bodyFrame_fits (by omega) hfragments
      rw [← hlen'] at hbody
      obtain ⟨buffer, hsent, -⟩ := run_sendFrame_fits hbody bodyFrame_named
      rw [run_cons_ok hheader, hsent]
      simp [hlarge, hroom]

theorem publish_undefined_iff_small :
    (basicPublish 18 1 [] [113] true false none [] (List.replicate 18 0)).2 = .error .undefined ↔
      18 < 12 ∨ (publishMethod 1 [] [113] true false).FitsIn 18 ∧ 18 < 20 :=
  publish_undefined_iff 18 1 [] [113] true false none [] (List.replicate 18 0) rfl (by decide)

end Publish

end Amqp
