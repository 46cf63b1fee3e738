/-
# Reading messages, `librabbitmq/amqp_consumer.c`

`amqp_read_message` puts a message together from a content header and body frames of a
channel, however the body was divided into frames and whatever comes on other channels in
between.  `amqp_consume_message` reads the delivery in front of it first.
-/
import Pungoo.AmqpClone
import Pungoo.AmqpPublish
import Pungoo.AmqpQueue

namespace Amqp

open Wire Codec Failing Chunks

/-! ## The code -/

/-- `amqp_rpc_reply_t`: its type and the member that it selects. -/
inductive Reply (α : Type)
  | normal (a : α)
  | serverException (reply : Method)
  | libraryException (libraryError : Status)

/-- A reply with the value that a caller makes of its own. -/
def Reply.map {α β : Type} (f : α → β) : Reply α → Reply β
  | .normal a => .normal (f a)
  | .serverException reply => .serverException reply
  | .libraryException libraryError => .libraryException libraryError

/-- `amqp_message_t`. -/
structure Message where
  properties : BasicProperties
  body : Bytes

/-- The method of a frame, if it closes the channel or the connection. -/
def Payload.close : Payload → Option Method
  | .method m =>
    if m.number = .channelClose ∨ m.number = .connectionClose then some m else none
  | .header _ _ | .body _ | .heartbeat | .protocolHeader _ _ _ _ => none

/-- The loop of `amqp_read_message`: `body` is what has been read of a body of `len` bytes.  A
copy behind the end of the body is undefined: the sum may wrap in the check before it. -/
def readBody (channel : UInt16) (len : ℕ) : ℕ → Bytes → Connection →
    Except Failure (Reply Bytes × Connection)
  | 0, _, _ => .error (.status .timeout)
  | fuel + 1, body, c =>
    if body.length < len then do
      let (frame, c) ← simpleWaitFrameOnChannel channel c
      match frame.payload with
      | .body fragment =>
        if len < (body.length + fragment.length) % 2 ^ 64 then
          pure (.libraryException .badAmqpData, c)
        else if len < body.length + fragment.length then .error .undefined
        else readBody channel len fuel (body ++ fragment) c
      | payload =>
        match payload.close with
        | some reply => pure (.serverException reply, c)
        | none => pure (.libraryException .badAmqpData, c)
    else pure (.normal body, c)

/-- `amqp_read_message(state, channel, &message, flags)`.  Where it fails because a wait does,
the connection is not modelled any more. -/
def readMessage (malloc : ℕ → Bool) (channel : UInt16) (c : Connection) :
    Except Failure (Reply Message × Connection) := do
  let (frame, c) ← simpleWaitFrameOnChannel channel c
  match frame.payload with
  | .header bodySize decoded =>
    match basicPropertiesClone decoded with
    | .error .undefined => .error .undefined
    | .error (.status res) => pure (.libraryException res, c)
    | .ok properties =>
      if bodySize ≠ 0 ∧ ¬ malloc bodySize.toNat then pure (.libraryException .noMemory, c)
      else do
        let (reply, c) ← readBody channel bodySize.toNat (c.left + 1) [] c
        pure (reply.map (Message.mk properties), c)
  | payload =>
    match payload.close with
    | some reply => pure (.serverException reply, c)
    | none => pure (.libraryException .unexpectedState, putBackFrame frame c)

/-- `amqp_basic_deliver_t`. -/
structure Deliver where
  consumerTag : Bytes
  deliveryTag : UInt64
  redelivered : Bool
  exchange : Bytes
  routingKey : Bytes

/-- The delivery as a method. -/
def Deliver.toMethod (d : Deliver) : Method where
  number := .basicDeliver
  fields := (d.consumerTag, d.deliveryTag, ![d.redelivered], d.exchange, d.routingKey, ())

/-- The delivery that a method is. -/
def Method.deliver : Method → Option Deliver
  | ⟨.basicDeliver, (consumerTag, deliveryTag, bits, exchange, routingKey, _)⟩ =>
    some ⟨consumerTag, deliveryTag, bits 0, exchange, routingKey⟩
  | _ => none

/-- The delivery in a frame. -/
def Payload.deliver : Payload → Option Deliver
  | .method m => m.deliver
  | .header _ _ | .body _ | .heartbeat | .protocolHeader _ _ _ _ => none

/-- `amqp_envelope_t`. -/
structure Envelope where
  channel : UInt16
  deliver : Deliver
  message : Message

/-- `amqp_bytes_malloc_dup_failed` of a copy. -/
def dupFailed (malloc : ℕ → Bool) (src : Bytes) : Bool := src.length ≠ 0 && !malloc src.length

/-- `amqp_consume_message(state, &envelope, timeout, flags)`. -/
def consumeMessage (malloc : ℕ → Bool) (c : Connection) :
    Except Failure (Reply Envelope × Connection) := do
  let (frame, c) ← simpleWaitFrame c
  match frame.payload.deliver with
  | none => pure (.libraryException .unexpectedState, putBackFrame frame c)
  | some deliver =>
    if dupFailed malloc deliver.consumerTag || dupFailed malloc deliver.exchange ||
        dupFailed malloc deliver.routingKey then pure (.libraryException .noMemory, c)
    else do
      let (reply, c) ← readMessage malloc frame.channel c
      pure (reply.map (Envelope.mk frame.channel deliver), c)

/-! ## Reading a message -/

/-- A body in parts of any sizes; the last is not empty. -/
def Parts (body : Bytes) (parts : List Bytes) : Prop :=
  parts.flatten = body ∧ parts.getLast? ≠ some []

/-- The fragments of a message are parts of its body. -/
theorem Fragments.parts {usable : ℕ} {body : Bytes} {fragments : List Bytes}
    (h : Fragments usable body fragments) : Parts body fragments :=
  ⟨h.flatten, fun hlast => h.nonempty [] (List.mem_of_getLast? hlast) rfl⟩

theorem Parts.nil : Parts [] [] := ⟨rfl, by simp⟩

/-- An empty body has no parts. -/
theorem Parts.eq_nil {parts : List Bytes} (h : Parts [] parts) : parts = [] := by
  by_contra hne
  have hlast : parts.getLast hne ∈ parts := List.getLast_mem hne
  have hempty := List.flatten_eq_nil_iff.mp h.1 _ hlast
  exact h.2 (by rw [List.getLast?_eq_some_getLast hne, hempty])

/-- What follows the first part are parts of the rest. -/
theorem Parts.tail {part body : Bytes} {parts : List Bytes} (h : Parts body (part :: parts)) :
    Parts parts.flatten parts ∧ body = part ++ parts.flatten := by
  refine ⟨⟨rfl, fun hlast => h.2 ?_⟩, by rw [← h.1, List.flatten_cons]⟩
  rw [List.getLast?_cons, hlast]
  rfl

/-- A part in front, of a body that is not empty. -/
theorem Parts.cons {part body : Bytes} {parts : List Bytes} (h : Parts body parts)
    (hne : part ++ body ≠ []) : Parts (part ++ body) (part :: parts) := by
  refine ⟨by rw [List.flatten_cons, h.1], fun hlast => ?_⟩
  rw [List.getLast?_cons] at hlast
  cases hrest : parts.getLast? with
  | some last =>
    rw [hrest] at hlast
    exact h.2 (by rw [hrest]; exact hlast)
  | none =>
    rw [hrest] at hlast
    obtain rfl : parts = [] := List.getLast?_eq_none_iff.mp hrest
    obtain rfl : part = [] := Option.some.inj hlast
    exact hne (by rw [← h.1]; rfl)

section Read

variable {frameMax : ℕ} {channel : UInt16} {c d : Connection} {pending rest : List Frame}
  {e : Option Failure} {len fuel : ℕ} {malloc : ℕ → Bool}

/-- Frames of the channel are on the channel. -/
theorem Upcoming.on_channel (h : Upcoming frameMax channel c pending e) :
    ∀ frame ∈ pending, frame.channel = channel := by
  obtain ⟨-, frames, -, rfl⟩ := h
  exact fun frame hframe => channel_of_counts (List.mem_filter.mp hframe).2

/-- A view of a connection as a list of frames: a wait on the channel takes the first one, if
it is on the channel. -/
def Serves (channel : UInt16) (view : Connection → List Frame → Prop) : Prop :=
  ∀ c frame rest, frame.channel = channel → view c (frame :: rest) →
    ∃ d, simpleWaitFrameOnChannel channel c = .ok (frame, d) ∧ view d rest ∧ d.left < c.left

/-- A wait on a channel gives its frames in their order. -/
theorem serves_upcoming (frameMax : ℕ) (channel : UInt16) (e : Option Failure) :
    Serves channel fun c pending => Upcoming frameMax channel c pending e :=
  fun _ _ _ _ h => waitOn_cons h

/-- The body frames make up the body. -/
theorem readBody_parts {view : Connection → List Frame → Prop} {body : Bytes}
    {parts : List Bytes} (hview : Serves channel view) (read : Bytes) (hfuel : c.left < fuel)
    (hparts : Parts body parts) (hlen : read.length + body.length = len) (hwidth : len < 2 ^ 64)
    (h : view c (parts.map (bodyFrame channel) ++ rest)) :
    ∃ d, readBody channel len fuel read c = .ok (.normal (read ++ body), d) ∧ view d rest := by
  induction parts generalizing c fuel read body with
  | nil =>
    obtain rfl : [] = body := hparts.1
    obtain ⟨fuel, rfl⟩ := Nat.exists_eq_add_one_of_ne_zero (by omega : fuel ≠ 0)
    refine ⟨c, ?_, h⟩
    rw [readBody, if_neg (by simp at hlen; omega), List.append_nil]
    rfl
  | cons part parts ih =>
    obtain ⟨fuel, rfl⟩ := Nat.exists_eq_add_one_of_ne_zero (by omega : fuel ≠ 0)
    have hpos : 0 < body.length := by
      rw [List.length_pos_iff]
      rintro rfl
      exact absurd hparts.eq_nil (by simp)
    obtain ⟨hrest, rfl⟩ := hparts.tail
    rw [List.length_append] at hlen hpos
    obtain ⟨c', hwait, hc', hless⟩ := hview c _ _ rfl h
    obtain ⟨d, hread, hd⟩ := ih (read ++ part) (show c'.left < fuel by omega) hrest
      (by rw [List.length_append]; omega) hc'
    refine ⟨d, ?_, hd⟩
    have hmod : (read.length + part.length) % 2 ^ 64 = read.length + part.length :=
      Nat.mod_eq_of_lt (by omega)
    rw [readBody, if_pos (by omega), hwait, ok_bind]
    simp only [bodyFrame, hmod]
    rw [if_neg (by omega), if_neg (by omega), hread, List.append_assoc]

/-- A body that is returned consists of the body frames that were read. -/
theorem readBody_normal {read body : Bytes} (hread : read.length ≤ len)
    (h : Upcoming frameMax channel c pending e)
    (hok : readBody channel len fuel read c = .ok (.normal body, d)) :
    ∃ parts rest, pending = parts.map (bodyFrame channel) ++ rest ∧ body.length = len ∧
      body = read ++ parts.flatten ∧ Parts parts.flatten parts ∧
      Upcoming frameMax channel d rest e := by
  induction fuel generalizing c read pending with
  | zero => exact absurd hok (by simp [readBody])
  | succ fuel ih =>
    rw [readBody] at hok
    split at hok
    next hlt =>
      obtain ⟨⟨frame, c'⟩, hwait, hok⟩ := bind_eq_ok_iff.mp hok
      obtain ⟨pending', rfl, hc', -⟩ := waitOn_ok h hwait
      have hchannel := h.on_channel frame (by simp)
      obtain ⟨channel', payload⟩ := frame
      obtain rfl : channel' = channel := hchannel
      simp only at hok
      split at hok
      next fragment =>
        split at hok
        next => exact absurd (Except.ok.inj hok) (by simp)
        next =>
          split at hok
          next => exact absurd hok (by simp)
          next hfits =>
            obtain ⟨parts, rest, rfl, hlen, rfl, hparts, hd⟩ :=
              ih (by rw [List.length_append]; omega) hc' hok
            refine ⟨fragment :: parts, rest, rfl, hlen, by simp, ?_, hd⟩
            rw [List.flatten_cons]
            refine hparts.cons fun hempty => ?_
            rw [List.append_assoc, hempty, List.append_nil] at hlen
            omega
      next =>
        split at hok <;> exact absurd (Except.ok.inj hok) (by simp)
    next hge =>
      obtain ⟨hbody, rfl⟩ := Prod.mk.inj (Except.ok.inj hok)
      obtain rfl := Reply.normal.inj hbody
      exact ⟨[], pending, rfl, by omega, by simp, .nil, h⟩

/-- A content header. -/
def headerFrame (channel : UInt16) (decoded : Properties) (bodySize : UInt64) : Frame where
  channel := channel
  payload := .header bodySize decoded

/-- The memory for a body can be had; none is asked for if it is empty. -/
def Allots (malloc : ℕ → Bool) (body : Bytes) : Prop := body = [] ∨ malloc body.length = true

/-- `malloc` is only asked for a body that is not empty. -/
theorem allots_iff {body : Bytes} (hwidth : body.length < 2 ^ 64) :
    (UInt64.ofNat body.length ≠ 0 ∧ ¬ malloc (UInt64.ofNat body.length).toNat) ↔
      ¬ Allots malloc body := by
  have hsize : (UInt64.ofNat body.length).toNat = body.length := UInt64.toNat_ofNat_of_lt' hwidth
  have hzero : UInt64.ofNat body.length = 0 ↔ body = [] := by
    rw [← UInt64.toNat_inj, hsize, ← List.length_eq_zero_iff]
    rfl
  simp [Allots, hsize, hzero]

/-- The content header and the body frames make up the message. -/
theorem readMessage_parts {view : Connection → List Frame → Prop} {body : Bytes}
    {parts : List Bytes} {decoded : Properties} {properties : BasicProperties}
    (hview : Serves channel view) (hclone : basicPropertiesClone decoded = .ok properties)
    (hparts : Parts body parts) (hwidth : body.length < 2 ^ 64) (hmalloc : Allots malloc body)
    (h : view c (headerFrame channel decoded (UInt64.ofNat body.length) ::
      (parts.map (bodyFrame channel) ++ rest))) :
    ∃ d, readMessage malloc channel c = .ok (.normal ⟨properties, body⟩, d) ∧ view d rest := by
  obtain ⟨c', hwait, hc', -⟩ := hview c _ _ rfl h
  have hsize : (UInt64.ofNat body.length).toNat = body.length := UInt64.toNat_ofNat_of_lt' hwidth
  obtain ⟨d, hread, hd⟩ := readBody_parts hview [] (Nat.lt_succ_self c'.left) hparts
    (by simp) hwidth hc'
  refine ⟨d, ?_, hd⟩
  unfold readMessage
  rw [hwait, ok_bind]
  simp only [headerFrame, hclone]
  rw [if_neg (by rw [allots_iff hwidth, not_not]; exact hmalloc), hsize, hread]
  rfl

/-- A message that is returned consists of a content header and body frames. -/
theorem readMessage_normal {message : Message} (h : Upcoming frameMax channel c pending e)
    (hok : readMessage malloc channel c = .ok (.normal message, d)) :
    ∃ decoded parts rest, pending =
        headerFrame channel decoded (UInt64.ofNat message.body.length) ::
          (parts.map (bodyFrame channel) ++ rest) ∧
      basicPropertiesClone decoded = .ok message.properties ∧ Parts message.body parts ∧
      message.body.length < 2 ^ 64 ∧ Allots malloc message.body ∧
      Upcoming frameMax channel d rest e := by
  obtain ⟨⟨frame, c'⟩, hwait, hok⟩ := bind_eq_ok_iff.mp hok
  obtain ⟨pending', rfl, hc', -⟩ := waitOn_ok h hwait
  have hchannel := h.on_channel frame (by simp)
  obtain ⟨channel', payload⟩ := frame
  obtain rfl : channel' = channel := hchannel
  simp only at hok
  split at hok
  next bodySize decoded =>
    split at hok
    next => exact absurd hok (by simp)
    next => exact absurd (Except.ok.inj hok) (by simp)
    next properties hclone =>
      split at hok
      next => exact absurd (Except.ok.inj hok) (by simp)
      next hmalloc =>
        obtain ⟨⟨reply, c''⟩, hread, hpure⟩ := bind_eq_ok_iff.mp hok
        obtain ⟨hreply, rfl⟩ := Prod.mk.inj (Except.ok.inj hpure)
        cases reply with
        | serverException => exact absurd hreply (by simp [Reply.map])
        | libraryException => exact absurd hreply (by simp [Reply.map])
        | normal body =>
          obtain rfl := Reply.normal.inj hreply
          obtain ⟨parts, rest, rfl, hlen, hbody, hparts, hd⟩ :=
            readBody_normal (Nat.zero_le _) hc' hread
          obtain rfl : body = parts.flatten := hbody
          have hsize : UInt64.ofNat parts.flatten.length = bodySize := by
            rw [hlen, UInt64.ofNat_toNat]
          have hwidth : parts.flatten.length < 2 ^ 64 := hlen ▸ bodySize.toNat_lt
          refine ⟨decoded, parts, rest, by rw [hsize]; rfl, hclone, hparts, hwidth, ?_, hd⟩
          rw [← hsize, allots_iff hwidth, not_not] at hmalloc
          exact hmalloc
  next =>
    split at hok <;> exact absurd (Except.ok.inj hok) (by simp)

/-- `amqp_read_message` returns a message if and only if the frames of the channel start with
its content header and its body in parts, the last not empty; these frames are taken, and no
more.  What comes on other channels does not matter. -/
theorem readMessage_reads (c : Connection) (channel : UInt16) (malloc : ℕ → Bool)
    (pending : List Frame) (e : Option Failure) (h : Upcoming frameMax channel c pending e) :
    (∀ decoded properties body parts rest, pending =
        headerFrame channel decoded (UInt64.ofNat body.length) ::
          (parts.map (bodyFrame channel) ++ rest) →
      basicPropertiesClone decoded = .ok properties → Parts body parts → body.length < 2 ^ 64 →
      Allots malloc body →
      ∃ d, readMessage malloc channel c = .ok (.normal ⟨properties, body⟩, d) ∧
        Upcoming frameMax channel d rest e) ∧
    ∀ message d, readMessage malloc channel c = .ok (.normal message, d) →
      ∃ decoded parts rest, pending =
          headerFrame channel decoded (UInt64.ofNat message.body.length) ::
            (parts.map (bodyFrame channel) ++ rest) ∧
        basicPropertiesClone decoded = .ok message.properties ∧ Parts message.body parts ∧
        message.body.length < 2 ^ 64 ∧ Allots malloc message.body ∧
        Upcoming frameMax channel d rest e := by
  refine ⟨fun decoded properties body parts rest hpending hclone hparts hwidth hmalloc => ?_,
    fun message d hok => readMessage_normal h hok⟩
  subst hpending
  exact readMessage_parts (serves_upcoming frameMax channel e) hclone hparts hwidth hmalloc h

theorem default_keyed : defaultProperties.Keyed :=
  ⟨trivial, trivial, trivial, trivial, trivial, trivial, trivial, trivial, trivial, trivial,
    trivial, trivial, trivial, trivial, trivial⟩

/-- Frames that are queued are upcoming. -/
theorem upcoming_receiving (frameMax : ℕ) (channel : UInt16) (queue : List Frame)
    (hplain : ∀ frame ∈ queue, frame.channel = channel → frame.isHeartbeat = false) :
    Upcoming frameMax channel (receiving frameMax [] queue)
      (queue.filter (Frame.counts channel)) none :=
  ⟨hplain, [], coming_receiving queue (by simp) rfl, by rw [List.append_nil]; rfl⟩

/-- A body in three parts, the first of them empty, with a frame of another channel in between. -/
theorem readMessage_reads_parts :
    ∃ d, readMessage (fun _ => true) 1 (receiving 64 []
        [headerFrame 1 defaultProperties.toProperties 3, bodyFrame 2 [9], bodyFrame 1 [],
          bodyFrame 1 [1, 2], bodyFrame 1 [3], bodyFrame 1 [4]]) =
        .ok (.normal ⟨defaultProperties, [1, 2, 3]⟩, d) ∧
      Upcoming 64 1 d [bodyFrame 1 [4]] none :=
  (readMessage_reads _ 1 _ _ _ (upcoming_receiving 64 1 _ (by decide))).1
    defaultProperties.toProperties defaultProperties [1, 2, 3] [[], [1, 2], [3]] [bodyFrame 1 [4]]
    rfl (propertiesClone_keyed default_keyed) ⟨rfl, by decide⟩ (by decide) (.inr rfl)

/-! ## Calls that return no message -/

/-- A frame that is put back comes first again. -/
theorem Upcoming.put_back {frame : Frame} (h : Upcoming frameMax channel c pending e)
    (hcounts : frame.counts channel = true) :
    Upcoming frameMax channel (putBackFrame frame c) (frame :: pending) e := by
  obtain ⟨hplain, frames, hcoming, rfl⟩ := h
  refine ⟨?_, frames, hcoming.queue _, ?_⟩
  · rw [putBackFrame, List.forall_mem_cons]
    exact ⟨fun _ => noHeartbeat_counts channel frame hcounts, hplain⟩
  · rw [putBackFrame, List.cons_append, List.filter_cons_of_pos hcounts]

/-- A frame that is put back does not disturb another channel. -/
theorem Upcoming.put_back_other {frame : Frame} (h : Upcoming frameMax channel c pending e)
    (hother : frame.channel ≠ channel) :
    Upcoming frameMax channel (putBackFrame frame c) pending e := by
  obtain ⟨hplain, frames, hcoming, rfl⟩ := h
  refine ⟨?_, frames, hcoming.queue _, ?_⟩
  · rw [putBackFrame, List.forall_mem_cons]
    exact ⟨fun hon => absurd hon hother, hplain⟩
  · rw [putBackFrame, List.cons_append,
      List.filter_cons_of_neg fun hcounts => hother (channel_of_counts hcounts)]

/-- A frame that starts no message, and closes nothing. -/
def Frame.Stray (frame : Frame) : Prop :=
  frame.payload.frameType ≠ 2 ∧ frame.payload.close = none

/-- A stray frame stays in front of the others. -/
theorem readMessage_stray (malloc : ℕ → Bool) {frame : Frame} (hstray : frame.Stray)
    (h : Upcoming frameMax channel c (frame :: rest) e) :
    ∃ d, readMessage malloc channel c = .ok (.libraryException .unexpectedState, d) ∧
      Upcoming frameMax channel d (frame :: rest) e := by
  obtain ⟨c', hwait, hc', -⟩ := waitOn_cons h
  have hcounts : frame.counts channel = true := by
    obtain ⟨-, frames, -, hpending⟩ := h
    have hmem : frame ∈ (c.queue ++ frames).filter (Frame.counts channel) := by simp [hpending]
    exact (List.mem_filter.mp hmem).2
  refine ⟨putBackFrame frame c', ?_, hc'.put_back hcounts⟩
  unfold readMessage
  rw [hwait, ok_bind]
  obtain ⟨hkind, hclose⟩ := hstray
  cases hpayload : frame.payload with
  | header => exact absurd (by rw [hpayload]; rfl) hkind
  | _ =>
    rw [hpayload] at hclose
    simp only [hpayload, hclose]
    rfl

/-- A content header with an empty key is taken, and its body is not. -/
theorem readMessage_refuses (malloc : ℕ → Bool) {properties : BasicProperties}
    {bodySize : UInt64} (hkey : ¬ properties.Keyed)
    (h : Upcoming frameMax channel c (headerFrame channel properties.toProperties bodySize :: rest)
      e) :
    ∃ d, readMessage malloc channel c = .ok (.libraryException .invalidParameter, d) ∧
      Upcoming frameMax channel d rest e := by
  obtain ⟨c', hwait, hc', -⟩ := waitOn_cons h
  refine ⟨c', ?_, hc'⟩
  unfold readMessage
  rw [hwait, ok_bind]
  simp only [headerFrame, propertiesClone_refuses hkey]
  rfl

/-- A call of `amqp_read_message`, and what it returns. -/
def readStep (malloc : ℕ → Bool) (channel : UInt16) (c : Connection) (_ : Unit) :
    Except Failure (Option (Reply Message) × Connection) := do
  let (reply, c) ← readMessage malloc channel c
  pure (some reply, c)

theorem readStep_ok {reply : Reply Message} (h : readMessage malloc channel c = .ok (reply, d)) :
    readStep malloc channel c () = .ok (some reply, d) := by
  rw [readStep, h]
  rfl

/-- With a stray frame in front, no call returns a message any more. -/
theorem run_stray (malloc : ℕ → Bool) {frame : Frame} (hstray : frame.Stray) (n : ℕ)
    (h : Upcoming frameMax channel c (frame :: rest) e) :
    ∃ d, run (readStep malloc channel) c (List.replicate n ()) =
        (List.replicate n (.libraryException .unexpectedState), .ok d) ∧
      Upcoming frameMax channel d (frame :: rest) e := by
  induction n generalizing c with
  | zero => exact ⟨c, rfl, h⟩
  | succ n ih =>
    obtain ⟨c', hread, hc'⟩ := readMessage_stray malloc hstray h
    obtain ⟨d, hrun, hd⟩ := ih hc'
    refine ⟨d, ?_, hd⟩
    rw [List.replicate_succ, run_cons_ok (readStep_ok hread), hrun]
    rfl

/-- A message whose headers have an empty key, and whose body is not empty, blocks its
channel: it is refused, and so is every later message, since its body frames are left in front
of them. -/
theorem readMessage_blocks (c : Connection) (channel : UInt16) (malloc : ℕ → Bool)
    (properties : BasicProperties) (bodySize : UInt64) (part : Bytes) (rest : List Frame)
    (e : Option Failure) (n : ℕ) (hkey : ¬ properties.Keyed)
    (h : Upcoming frameMax channel c (headerFrame channel properties.toProperties bodySize ::
      bodyFrame channel part :: rest) e) :
    ∃ d, run (readStep malloc channel) c (List.replicate (n + 1) ()) =
        (.libraryException .invalidParameter ::
          List.replicate n (.libraryException .unexpectedState), .ok d) ∧
      Upcoming frameMax channel d (bodyFrame channel part :: rest) e := by
  obtain ⟨c', hread, hc'⟩ := readMessage_refuses malloc hkey h
  have hstray : (bodyFrame channel part).Stray := ⟨by simp [bodyFrame, Payload.frameType], rfl⟩
  obtain ⟨d, hrun, hd⟩ := run_stray malloc hstray n hc'
  refine ⟨d, ?_, hd⟩
  rw [List.replicate_succ, run_cons_ok (readStep_ok hread), hrun]
  rfl

/-- Properties with a table as headers that has an empty key. -/
def emptyKey : BasicProperties where
  classId := basicClass
  flags := 0x2000
  values := ((), (), ([.mk [] .void] : Table), (), (), (), (), (), (), (), (), (), (), (), ())
  basic := rfl

/-- The refusal and two more calls. -/
theorem readMessage_blocks_three :
    ∃ d, run (readStep (fun _ => true) 1) (receiving 64 []
          [headerFrame 1 emptyKey.toProperties 1, bodyFrame 1 [7]]) (List.replicate 3 ()) =
        ([.libraryException .invalidParameter, .libraryException .unexpectedState,
          .libraryException .unexpectedState], .ok d) ∧
      Upcoming 64 1 d [bodyFrame 1 [7]] none :=
  readMessage_blocks _ 1 (fun _ => true) emptyKey 1 [7] [] none 2
    (fun h => absurd h.2.2.1 (show ¬ entriesKeyed [.mk [] .void] = true by decide))
    (upcoming_receiving 64 1 _ (by decide))

/-! ## Other channels -/

/-- Reading a body loses no frame of another channel. -/
theorem readBody_keeps {other : UInt16} {read : Bytes} {reply : Reply Bytes}
    (hnone : ∀ f ∈ c.queue, channel ≠ f.channel) (hother : other ≠ channel)
    (h : Upcoming frameMax other c pending e)
    (hok : readBody channel len fuel read c = .ok (reply, d)) :
    Upcoming frameMax other d pending e := by
  induction fuel generalizing c read with
  | zero => exact absurd hok (by simp [readBody])
  | succ fuel ih =>
    rw [readBody] at hok
    split at hok
    next =>
      obtain ⟨⟨frame, c'⟩, hwait, hok⟩ := bind_eq_ok_iff.mp hok
      obtain ⟨-, hc', hnone'⟩ := waitOn_keeps hnone hother h hwait
      simp only at hok
      split at hok
      next =>
        split at hok
        next => exact (Prod.mk.inj (Except.ok.inj hok)).2 ▸ hc'
        next =>
          split at hok
          next => exact absurd hok (by simp)
          next => exact ih hnone' hc' hok
      next => split at hok <;> exact (Prod.mk.inj (Except.ok.inj hok)).2 ▸ hc'
    next => exact (Prod.mk.inj (Except.ok.inj hok)).2 ▸ h

/-- Reading a message of a channel, while no frame of it is queued, loses no frame of another
channel, whether it returns the message or not. -/
theorem readMessage_keeps (c d : Connection) (channel other : UInt16) (malloc : ℕ → Bool)
    (reply : Reply Message) (pending : List Frame) (e : Option Failure)
    (hnone : ∀ f ∈ c.queue, channel ≠ f.channel) (hother : other ≠ channel)
    (h : Upcoming frameMax other c pending e)
    (hok : readMessage malloc channel c = .ok (reply, d)) :
    Upcoming frameMax other d pending e := by
  obtain ⟨⟨frame, c'⟩, hwait, hok⟩ := bind_eq_ok_iff.mp hok
  obtain ⟨hchannel, hc', hnone'⟩ := waitOn_keeps hnone hother h hwait
  simp only at hok
  split at hok
  next bodySize decoded =>
    split at hok
    next => exact absurd hok (by simp)
    next => exact (Prod.mk.inj (Except.ok.inj hok)).2 ▸ hc'
    next =>
      split at hok
      next => exact (Prod.mk.inj (Except.ok.inj hok)).2 ▸ hc'
      next =>
        obtain ⟨⟨reply', c''⟩, hread, hpure⟩ := bind_eq_ok_iff.mp hok
        obtain ⟨-, rfl⟩ := Prod.mk.inj (Except.ok.inj hpure)
        exact readBody_keeps hnone' hother hc' hread
  next =>
    split at hok
    next => exact (Prod.mk.inj (Except.ok.inj hok)).2 ▸ hc'
    next =>
      rw [← (Prod.mk.inj (Except.ok.inj hok)).2]
      exact hc'.put_back_other fun hon => hother (hon.symm.trans hchannel)

/-- A body frame without a header is put back, and the other channel keeps its frame. -/
theorem readMessage_keeps_body :
    ∃ reply d, readMessage (fun _ => true) 1 (receiving 64 [[3, 0, 1, 0, 0, 0, 1, 6, 206]]
        [bodyFrame 2 [5]]) = .ok (reply, d) ∧ Upcoming 64 2 d [bodyFrame 2 [5]] none := by
  have hsent : ∀ frame ∈ [bodyFrame 1 [6]], frame.Sendable 64 := by
    rw [List.forall_mem_singleton]
    exact ⟨trivial, trivial, trivial, by decide, by decide⟩
  have h : Upcoming 64 2 (receiving 64 [[3, 0, 1, 0, 0, 0, 1, 6, 206]] [bodyFrame 2 [5]])
      [bodyFrame 2 [5]] none :=
    ⟨by simp [receiving, bodyFrame, Frame.isHeartbeat], _, coming_receiving _ hsent rfl, rfl⟩
  exact ⟨_, _, rfl, readMessage_keeps _ _ 1 2 (fun _ => true) _ _ none
    (by simp [receiving, bodyFrame]) (by decide) h rfl⟩

/-! ## One message after another -/

/-- Nothing is queued, and `pending` comes. -/
def Ready (frameMax : ℕ) (c : Connection) (pending : List Frame) (e : Option Failure) : Prop :=
  c.queue = [] ∧ Comes frameMax c pending e

/-- A wait takes the first frame. -/
theorem Ready.wait {frame : Frame} (h : Ready frameMax c (frame :: rest) e) :
    ∃ d, waitFrameInner c = .ok (frame, d) ∧ Ready frameMax d rest e ∧ d.left < c.left := by
  obtain ⟨hqueue, hcomes⟩ := h
  obtain ⟨d, hwait, hq, hd, hlt⟩ := hcomes.wait
  refine ⟨d, hwait, ⟨hq.trans hqueue, hd⟩, ?_⟩
  simp only [Connection.left, hq]
  omega

/-- With nothing queued, a wait on the channel of the next frame gives it. -/
theorem serves_ready (frameMax : ℕ) (channel : UInt16) (e : Option Failure) :
    Serves channel fun c pending => Ready frameMax c pending e := by
  intro c frame rest hchannel h
  obtain ⟨d, hwait, hd, hless⟩ := h.wait
  refine ⟨d, ?_, hd, hless⟩
  unfold simpleWaitFrameOnChannel
  rw [h.1]
  simp only [findOnChannel, waitOnChannelLoop, hwait, ok_bind]
  rw [if_pos hchannel.symm]
  rfl

/-- A message on its way to a consumer: the delivery, and the body in the parts that the
server made of it. -/
structure Delivery where
  channel : UInt16
  deliver : Deliver
  properties : BasicProperties
  parts : List Bytes

/-- Its frames. -/
def Delivery.frames (m : Delivery) : List Frame :=
  { channel := m.channel, payload := .method m.deliver.toMethod } ::
    headerFrame m.channel m.properties.toProperties (UInt64.ofNat m.parts.flatten.length) ::
      m.parts.map (bodyFrame m.channel)

/-- What the consumer gets. -/
def Delivery.envelope (m : Delivery) : Envelope where
  channel := m.channel
  deliver := m.deliver
  message := { properties := m.properties, body := m.parts.flatten }

/-- A message that can be consumed: no empty key in its headers, no empty last part, a size
that is one, and memory for its body and its names. -/
structure Delivery.Sound (malloc : ℕ → Bool) (m : Delivery) : Prop where
  keyed : m.properties.Keyed
  parts : Parts m.parts.flatten m.parts
  width : m.parts.flatten.length < 2 ^ 64
  allots : Allots malloc m.parts.flatten
  names : Allots malloc m.deliver.consumerTag ∧ Allots malloc m.deliver.exchange ∧
    Allots malloc m.deliver.routingKey

/-- A delivery is read from its method. -/
theorem deliver_toMethod (d : Deliver) : d.toMethod.deliver = some d := rfl

/-- A copy succeeds where there is memory for it. -/
theorem dupFailed_of_allots {src : Bytes} (h : Allots malloc src) :
    dupFailed malloc src = false := by
  rcases h with rfl | h
  · rfl
  · simp [dupFailed, h]

/-- One call consumes one message. -/
theorem consumeMessage_ready {m : Delivery} (hm : m.Sound malloc)
    (h : Ready frameMax c (m.frames ++ rest) e) :
    ∃ d, consumeMessage malloc c = .ok (.normal m.envelope, d) ∧ Ready frameMax d rest e := by
  obtain ⟨c', hwait, hc', -⟩ := h.wait
  obtain ⟨d, hread, hd⟩ := readMessage_parts (serves_ready frameMax m.channel e)
    (propertiesClone_keyed hm.keyed) hm.parts hm.width hm.allots hc'
  refine ⟨d, ?_, hd⟩
  have hfirst : simpleWaitFrame c = waitFrameInner c := by
    unfold simpleWaitFrame
    rw [h.1]
  obtain ⟨htag, hexchange, hkey⟩ := hm.names
  unfold consumeMessage
  rw [hfirst, hwait, ok_bind]
  simp only [Payload.deliver, deliver_toMethod, dupFailed_of_allots htag,
    dupFailed_of_allots hexchange, dupFailed_of_allots hkey, hread, ok_bind]
  rfl

/-- A call of `amqp_consume_message`, and what it returns. -/
def consumeStep (malloc : ℕ → Bool) (c : Connection) (_ : Unit) :
    Except Failure (Option (Reply Envelope) × Connection) := do
  let (reply, c) ← consumeMessage malloc c
  pure (some reply, c)

/-- Messages that come one after another, on whatever channels and with heartbeats anywhere
between their frames, are consumed in their order, each as it was sent. -/
theorem consume_run (frameMax : ℕ) (malloc : ℕ → Bool) (messages : List Delivery)
    (c : Connection) (rest : List Frame) (e : Option Failure)
    (hsound : ∀ m ∈ messages, m.Sound malloc)
    (h : Ready frameMax c (messages.flatMap Delivery.frames ++ rest) e) :
    ∃ d, run (consumeStep malloc) c (List.replicate messages.length ()) =
        (messages.map fun m => .normal m.envelope, .ok d) ∧ Ready frameMax d rest e := by
  induction messages generalizing c with
  | nil => exact ⟨c, rfl, h⟩
  | cons m messages ih =>
    rw [List.forall_mem_cons] at hsound
    rw [List.flatMap_cons, List.append_assoc] at h
    obtain ⟨c', hconsume, hc'⟩ := consumeMessage_ready hsound.1 h
    obtain ⟨d, hrun, hd⟩ := ih c' hsound.2 hc'
    refine ⟨d, ?_, hd⟩
    have hstep : consumeStep malloc c () = .ok (some (.normal m.envelope), c') := by
      rw [consumeStep, hconsume]
      rfl
    rw [List.length_cons, List.replicate_succ, run_cons_ok hstep, hrun]
    rfl

/-- Two messages in six chunks: one of channel one with a heartbeat in between, and one of channel
two. -/
def messageChunks : List Bytes :=
  [[1, 0, 1, 0, 0, 0, 17, 0, 60, 0, 60, 0],
    [0, 0, 0, 0, 0, 0, 0, 9, 0, 0, 1, 113, 206, 8, 0, 0, 0, 0, 0, 0, 206, 2, 0, 1, 0, 0, 0],
    [14, 0, 60, 0, 0, 0, 0, 0, 0, 0, 0, 0, 2, 0, 0, 206, 3, 0, 1, 0, 0, 0, 2, 1, 2, 206],
    [1, 0, 2, 0, 0, 0, 17, 0, 60, 0, 60, 0, 0, 0, 0, 0, 0, 0, 0, 10, 0, 0, 1, 113, 206, 2],
    [0, 2, 0, 0, 0, 14, 0, 60, 0, 0, 0, 0, 0, 0, 0, 0, 0, 1, 0, 0, 206, 3, 0, 2, 0, 0, 0],
    [1, 3, 206]]

theorem consume_run_two :
    ∃ d, run (consumeStep fun _ => true) (receiving 64 messageChunks []) [(), ()] =
      ([.normal ⟨1, ⟨[], 9, false, [], [113]⟩, ⟨defaultProperties, [1, 2]⟩⟩,
        .normal ⟨2, ⟨[], 10, false, [], [113]⟩, ⟨defaultProperties, [3]⟩⟩], .ok d) := by
  have hdeliver (channel : UInt16) (tag : UInt64) :
      (⟨channel, .method (Deliver.mk [] tag false [] [113]).toMethod⟩ : Frame).Sendable 64 :=
    ⟨⟨show 0 < 2 ^ 8 by decide, trivial, trivial, show 0 < 2 ^ 8 by decide,
        show 1 < 2 ^ 8 by decide, trivial⟩, trivial,
      ⟨trivial, trivial, trivial, trivial, trivial, trivial⟩, show 25 ≤ 64 by decide,
      show 25 < 2 ^ 32 by decide⟩
  have hsent : ∀ frame ∈ [⟨1, .method (Deliver.mk [] 9 false [] [113]).toMethod⟩,
      ⟨0, .heartbeat⟩, headerFrame 1 defaultProperties.toProperties 2, bodyFrame 1 [1, 2],
      ⟨2, .method (Deliver.mk [] 10 false [] [113]).toMethod⟩,
      headerFrame 2 defaultProperties.toProperties 1, bodyFrame 2 [3]], frame.Sendable 64 := by
    rw [List.forall_mem_cons, List.forall_mem_cons, List.forall_mem_cons, List.forall_mem_cons,
      List.forall_mem_cons, List.forall_mem_cons, List.forall_mem_singleton]
    exact ⟨hdeliver 1 9, ⟨trivial, trivial, trivial, by decide, by decide⟩,
      ⟨⟨by decide, default_stringsFit⟩, default_named, default_tablesFit, by decide, by decide⟩,
      ⟨trivial, trivial, trivial, by decide, by decide⟩, hdeliver 2 10,
      ⟨⟨by decide, default_stringsFit⟩, default_named, default_tablesFit, by decide, by decide⟩,
      ⟨trivial, trivial, trivial, by decide, by decide⟩⟩
  have h : Ready 64 (receiving 64 messageChunks [])
      ([⟨1, ⟨[], 9, false, [], [113]⟩, defaultProperties, [[1, 2]]⟩,
        ⟨2, ⟨[], 10, false, [], [113]⟩, defaultProperties, [[3]]⟩].flatMap Delivery.frames ++ [])
      none := ⟨rfl, _, coming_receiving [] hsent (by decide), rfl⟩
  obtain ⟨d, hrun, -⟩ := consume_run 64 (fun _ => true) _ _ [] none (by
    rw [List.forall_mem_cons, List.forall_mem_singleton]
    exact ⟨⟨default_keyed, ⟨rfl, by decide⟩, by decide, .inr rfl, .inr rfl, .inr rfl, .inr rfl⟩,
      default_keyed, ⟨rfl, by decide⟩, by decide, .inr rfl, .inr rfl, .inr rfl, .inr rfl⟩) h
  exact ⟨d, hrun⟩

/-- Frames that were sent to a connection between two frames are ready. -/
theorem ready_of_sent {frames : List Frame} (hsent : ∀ frame ∈ frames, frame.Sendable frameMax)
    (hplain : ∀ frame ∈ frames, frame.isHeartbeat = false) (hidle : Idle c.inbound)
    (hmax : c.inbound.frameMax = frameMax) (hqueue : c.queue = [])
    (hstream : c.stream = frames.flatMap frameBytes) : Ready frameMax c frames none := by
  refine ⟨hqueue, frames, coming_of_sent hsent hidle hmax hstream, ?_⟩
  rw [List.filter_eq_self]
  exact fun frame hframe => by simp [hplain frame hframe]

/-- A published message is read from what was sent, however its bytes are divided: the method,
the properties and the body. -/
theorem publish_read (frameMax : ℕ) (channel : UInt16) (exchange routingKey : Bytes)
    (mandatory immediate : Bool) (properties : Option BasicProperties)
    (body outboundBuffer buffer : Bytes) (sent : List Bytes) (malloc : ℕ → Bool) (c : Connection)
    (hbuffer : outboundBuffer.length = frameMax) (hmax : frameMax < 2 ^ 31)
    (hnamed : NamedFlags (properties.getD defaultProperties).flags)
    (htables : (properties.getD defaultProperties).TablesFit)
    (hkeyed : (properties.getD defaultProperties).Keyed) (hwidth : body.length < 2 ^ 64)
    (hmalloc : Allots malloc body)
    (hsend : basicPublish frameMax channel exchange routingKey mandatory immediate properties body
      outboundBuffer = (sent, .ok buffer))
    (hidle : Idle c.inbound) (hroom : frameMax ≤ c.inbound.frameMax) (hqueue : c.queue = [])
    (hstream : c.stream = sent.flatten) :
    ∃ c' d, simpleWaitFrameOnChannel channel c =
        .ok (publishMethod channel exchange routingKey mandatory immediate, c') ∧
      readMessage malloc channel c' =
        .ok (.normal ⟨properties.getD defaultProperties, body⟩, d) ∧
      Ready c.inbound.frameMax d [] none := by
  obtain ⟨-, hheader, hmethod⟩ := publish_sends frameMax channel exchange routingKey mandatory
    immediate properties body outboundBuffer hbuffer hmax hnamed
  rw [hsend] at hheader hmethod
  have hfits : (publishMethod channel exchange routingKey mandatory immediate).FitsIn
      frameMax := by
    by_contra hnot
    obtain ⟨e, he⟩ := hmethod hnot
    exact absurd (Prod.mk.inj he).2 (by simp)
  obtain ⟨fragments, hfragments, hrun⟩ :=
    basicPublish_sends (method_room hfits) (by omega) channel body
  rw [hrun] at hsend
  obtain ⟨rfl, hsendable⟩ := run_sendFrame_eq_ok (by omega) (hbuffer ▸ hroom) (by
    rw [List.forall_mem_cons, List.forall_mem_cons]
    refine ⟨⟨trivial, trivial, trivial, trivial, trivial, trivial⟩, ⟨hnamed, htables⟩, ?_⟩
    intro frame hframe
    obtain ⟨fragment, -, rfl⟩ := List.mem_map.mp hframe
    exact ⟨trivial, trivial⟩) hsend
  have hready := ready_of_sent hsendable (by
    rw [List.forall_mem_cons, List.forall_mem_cons]
    refine ⟨rfl, rfl, fun frame hframe => ?_⟩
    obtain ⟨fragment, -, rfl⟩ := List.mem_map.mp hframe
    rfl) hidle rfl hqueue (hstream.trans List.flatMap_def.symm)
  obtain ⟨c', hwait, hc', -⟩ := serves_ready c.inbound.frameMax channel none _ _ _ rfl hready
  rw [← List.append_nil (fragments.map (bodyFrame channel))] at hc'
  obtain ⟨d, hread, hd⟩ := readMessage_parts (serves_ready c.inbound.frameMax channel none)
    (propertiesClone_keyed hkeyed) hfragments.parts hwidth hmalloc hc'
  exact ⟨c', d, hwait, hread, hd⟩

/-- A publish method, a content header and a body, as they were sent. -/
theorem publish_read_three :
    ∃ c' d, simpleWaitFrameOnChannel 1 (receiving 64 [[1, 0, 1, 0, 0, 0, 10, 0, 60, 0, 40, 0, 0],
        [0, 1, 113, 0, 206, 2, 0, 1, 0, 0, 0, 14, 0, 60, 0, 0, 0, 0, 0, 0, 0, 0, 0, 3, 0, 0],
        [206, 3, 0, 1, 0, 0, 0, 3, 1, 2, 3, 206]] []) =
        .ok (publishMethod 1 [] [113] false false, c') ∧
      readMessage (fun _ => true) 1 c' = .ok (.normal ⟨defaultProperties, [1, 2, 3]⟩, d) := by
  obtain ⟨c', d, hwait, hread, -⟩ := publish_read 64 1 [] [113] false false none [1, 2, 3]
    (List.replicate 64 0) _ _ (fun _ => true)
    (receiving 64 [[1, 0, 1, 0, 0, 0, 10, 0, 60, 0, 40, 0, 0],
      [0, 1, 113, 0, 206, 2, 0, 1, 0, 0, 0, 14, 0, 60, 0, 0, 0, 0, 0, 0, 0, 0, 0, 3, 0, 0],
      [206, 3, 0, 1, 0, 0, 0, 3, 1, 2, 3, 206]] []) rfl (by decide) default_named
    default_tablesFit default_keyed (by decide) (.inr rfl) rfl ⟨rfl, rfl, rfl, rfl⟩ (Nat.le_refl _)
    rfl rfl
  exact ⟨c', d, hwait, hread⟩

end Read

end Amqp
