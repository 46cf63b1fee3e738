/-
# Calls and replies, `librabbitmq/amqp_socket.c`

`amqp_simple_rpc` sends a method and waits for its reply.  What comes before the reply is
queued; what is queued already is not looked at.
-/
import Pungoo.AmqpMessage

namespace Amqp

open Wire Codec Failing Chunks

/-! ## The code -/

/-- `amqp_simple_wait_method_list(state, expected_channel, expected_methods, &output)`.  A frame
that is not expected is lost. -/
def simpleWaitMethodList (expectedChannel : UInt16) (expectedMethods : List MethodNumber)
    (c : Connection) : Except Failure (Method × Connection) := do
  let (frame, c) ← simpleWaitFrame c
  match frame.payload with
  | .method m =>
    if expectedChannel ≠ frame.channel ∨ m.number ∉ expectedMethods then
      .error (.status .wrongMethod)
    else pure (m, c)
  | .header _ _ | .body _ | .heartbeat | .protocolHeader _ _ _ _ => .error (.status .wrongMethod)

/-- The frame that `amqp_simple_rpc` does not queue: an expected reply or a `channel.close` on
its channel, or a `connection.close` on channel zero. -/
def Frame.reply (channel : UInt16) (expectedReplyIds : List MethodNumber) (frame : Frame) :
    Option Method :=
  match frame.payload with
  | .method m =>
    if frame.channel = channel ∧ (m.number ∈ expectedReplyIds ∨ m.number = .channelClose) ∨
        frame.channel = 0 ∧ m.number = .connectionClose then some m
    else none
  | .header _ _ | .body _ | .heartbeat | .protocolHeader _ _ _ _ => none

/-- The result of `amqp_simple_rpc` for a reply. -/
def replyOf (expectedReplyIds : List MethodNumber) (m : Method) : Reply Method :=
  if m.number ∈ expectedReplyIds then .normal m else .serverException m

/-- The loop of `amqp_simple_rpc`. -/
def waitReply (channel : UInt16) (expectedReplyIds : List MethodNumber) :
    ℕ → Connection → Except Failure (Reply Method × Connection)
  | 0, _ => .error (.status .timeout)
  | fuel + 1, c => do
    let (frame, c) ← waitFrameInner c
    match frame.reply channel expectedReplyIds with
    | some m => pure (replyOf expectedReplyIds m, c)
    | none => waitReply channel expectedReplyIds fuel (queueFrame frame c)

/-- A connection with the outbound buffer and what was agreed on with the server. -/
structure Client where
  outboundBuffer : Bytes
  connection : Connection
  channelMax : ℕ
  heartbeat : ℕ

/-- `amqp_send_method(state, channel, id, decoded)`. -/
def sendMethod (channel : UInt16) (m : Method) (s : Client) : Trace Bytes Failure Client :=
  andThen (ofStep (sendFrame s.outboundBuffer { channel := channel, payload := .method m }))
    fun outboundBuffer => ([], .ok { s with outboundBuffer := outboundBuffer })

/-- A part of a call that sends nothing. -/
def receive {α : Type} (x : Connection → Except Failure (α × Connection)) (s : Client) :
    Trace Bytes Failure (α × Client) :=
  ([], (x s.connection).map fun (a, c) => (a, { s with connection := c }))

/-- `amqp_simple_rpc(state, channel, request_id, expected_reply_ids, decoded_request_method)`. -/
def simpleRpc (channel : UInt16) (request : Method) (expectedReplyIds : List MethodNumber)
    (s : Client) : Trace Bytes Failure (Reply Method × Client) :=
  andThen (sendMethod channel request s) fun s =>
    receive (fun c => waitReply channel expectedReplyIds (c.stream.length + 1) c) s

/-! ## The reply -/

section Rpc

variable {frameMax : ℕ} {channel : UInt16} {expected : List MethodNumber} {c : Connection}
  {before after : List Frame} {reply : Frame} {m : Method} {e : Option Failure}

/-- The first reply is returned; what comes before it is queued, behind what is queued, and
what comes behind it still comes. -/
theorem waitReply_ok {fuel : ℕ} (hfuel : c.stream.length < fuel)
    (hbefore : ∀ frame ∈ before, frame.reply channel expected = none)
    (hreply : reply.reply channel expected = some m)
    (h : Comes frameMax c (before ++ reply :: after) e) :
    ∃ d, waitReply channel expected fuel c = .ok (replyOf expected m, d) ∧
      d.queue = c.queue ++ before ∧ Comes frameMax d after e := by
  induction before generalizing c fuel with
  | nil =>
    obtain ⟨fuel, rfl⟩ := Nat.exists_eq_add_one_of_ne_zero (by omega : fuel ≠ 0)
    obtain ⟨d, hwait, hqueue, hd, -⟩ := h.wait
    refine ⟨d, ?_, by rw [hqueue, List.append_nil], hd⟩
    simp only [waitReply, hwait, ok_bind, hreply]
    rfl
  | cons first before ih =>
    rw [List.forall_mem_cons] at hbefore
    obtain ⟨fuel, rfl⟩ := Nat.exists_eq_add_one_of_ne_zero (by omega : fuel ≠ 0)
    obtain ⟨c', hwait, hqueue, hc', hlt⟩ := h.wait
    have hshorter : (queueFrame first c').stream.length < fuel := by
      change c'.stream.length < fuel
      omega
    obtain ⟨d, hrest, hqueue', hd⟩ := ih hshorter hbefore.2 hc'
    refine ⟨d, ?_, ?_, hd⟩
    · simp only [waitReply, hwait, ok_bind, hbefore.1, hrest]
    · rw [hqueue', queueFrame, hqueue, List.append_assoc]
      rfl

/-- Where no reply comes it fails. -/
theorem waitReply_error {fuel : ℕ} (hfuel : c.stream.length < fuel)
    (hbefore : ∀ frame ∈ before, frame.reply channel expected = none)
    (h : Comes frameMax c before e) :
    waitReply channel expected fuel c = .error (e.getD (.status .timeout)) := by
  induction before generalizing c fuel with
  | nil =>
    obtain ⟨fuel, rfl⟩ := Nat.exists_eq_add_one_of_ne_zero (by omega : fuel ≠ 0)
    rw [waitReply, h.wait_nil]
    rfl
  | cons first before ih =>
    rw [List.forall_mem_cons] at hbefore
    obtain ⟨fuel, rfl⟩ := Nat.exists_eq_add_one_of_ne_zero (by omega : fuel ≠ 0)
    obtain ⟨c', hwait, hqueue, hc', hlt⟩ := h.wait
    have hshorter : (queueFrame first c').stream.length < fuel := by
      change c'.stream.length < fuel
      omega
    simp only [waitReply, hwait, ok_bind, hbefore.1]
    exact ih hshorter hbefore.2 hc'

/-- A method that fits is sent. -/
theorem sendMethod_fits {s : Client}
    (hfits : Frame.FitsIn s.outboundBuffer.length ⟨channel, .method m⟩) :
    ∃ buffer, sendMethod channel m s =
        ([frameBytes ⟨channel, .method m⟩], .ok { s with outboundBuffer := buffer }) ∧
      buffer.length = s.outboundBuffer.length := by
  have hnamed : (Payload.method m).Named := trivial
  obtain ⟨buffer, hsend, hlen⟩ := sendFrame_fits hfits.1 hnamed hfits.2
  exact ⟨buffer, by rw [sendMethod, hsend]; rfl, hlen⟩

/-- A call returns the first reply that comes; without one it fails, whatever is queued. -/
theorem simpleRpc_spec (s : Client) (channel : UInt16) (request : Method)
    (expected : List MethodNumber) (pending : List Frame) (e : Option Failure)
    (hfits : Frame.FitsIn s.outboundBuffer.length ⟨channel, .method request⟩)
    (h : Comes frameMax s.connection pending e) :
    (∀ before reply after m, pending = before ++ reply :: after →
      (∀ frame ∈ before, frame.reply channel expected = none) →
      reply.reply channel expected = some m →
      ∃ buffer d, simpleRpc channel request expected s =
          ([frameBytes ⟨channel, .method request⟩],
            .ok (replyOf expected m, { s with outboundBuffer := buffer, connection := d })) ∧
        buffer.length = s.outboundBuffer.length ∧
        d.queue = s.connection.queue ++ before ∧ Comes frameMax d after e) ∧
    ((∀ frame ∈ pending, frame.reply channel expected = none) →
      simpleRpc channel request expected s =
        ([frameBytes ⟨channel, .method request⟩], .error (e.getD (.status .timeout)))) := by
  obtain ⟨buffer, hsend, hlen⟩ := sendMethod_fits hfits
  refine ⟨fun before reply after m hpending hbefore hreply => ?_, fun hnone => ?_⟩
  · subst hpending
    obtain ⟨d, hwait, hqueue, hd⟩ := waitReply_ok (Nat.lt_succ_self _) hbefore hreply h
    refine ⟨buffer, d, ?_, hlen, hqueue, hd⟩
    rw [simpleRpc, hsend, andThen_ok, receive, hwait]
    rfl
  · rw [simpleRpc, hsend, andThen_ok, receive, waitReply_error (Nat.lt_succ_self _) hnone h]
    rfl

/-! ## Calls one after another -/

/-- A call, what comes before its reply, and the reply. -/
structure Exchange where
  channel : UInt16
  request : Method
  expected : List MethodNumber
  before : List Frame
  reply : Frame
  answer : Method

/-- The frames that come for a call. -/
def Exchange.frames (x : Exchange) : List Frame := x.before ++ [x.reply]

/-- The request fits in the outbound buffer, and the reply is the first that answers it. -/
structure Exchange.Sound (n : ℕ) (x : Exchange) : Prop where
  fits : Frame.FitsIn n ⟨x.channel, .method x.request⟩
  before : ∀ frame ∈ x.before, frame.reply x.channel x.expected = none
  reply : x.reply.reply x.channel x.expected = some x.answer

/-- A call as a step: what it sends and what it returns. -/
def rpcStep (s : Client) (x : Exchange) :
    Except Failure (Option (List Bytes × Reply Method) × Client) :=
  match simpleRpc x.channel x.request x.expected s with
  | (_, .error e) => .error e
  | (sent, .ok (reply, s)) => .ok (some (sent, reply), s)

/-- Calls one after another get their replies, each its own.  Everything else that comes is
queued, in its order, whatever the channel. -/
theorem rpc_run (calls : List Exchange) (s : Client) (after : List Frame) (e : Option Failure)
    (hsound : ∀ x ∈ calls, x.Sound s.outboundBuffer.length)
    (h : Comes frameMax s.connection (calls.flatMap Exchange.frames ++ after) e) :
    ∃ t, run rpcStep s calls =
        (calls.map fun x => ([frameBytes ⟨x.channel, .method x.request⟩],
          replyOf x.expected x.answer), .ok t) ∧
      t.connection.queue = s.connection.queue ++ calls.flatMap Exchange.before ∧
      Comes frameMax t.connection after e := by
  induction calls generalizing s with
  | nil => exact ⟨s, rfl, by simp, h⟩
  | cons x calls ih =>
    rw [List.forall_mem_cons] at hsound
    have hpending : (x :: calls).flatMap Exchange.frames ++ after =
        x.before ++ x.reply :: (calls.flatMap Exchange.frames ++ after) := by
      simp [Exchange.frames]
    obtain ⟨buffer, d, hrpc, hlen, hqueue, hd⟩ := (simpleRpc_spec s x.channel x.request
      x.expected _ e hsound.1.fits h).1 _ _ _ _ hpending hsound.1.before hsound.1.reply
    obtain ⟨t, hrun, hqueue', ht⟩ := ih { s with outboundBuffer := buffer, connection := d }
      (by simpa [hlen] using hsound.2) hd
    refine ⟨t, ?_, ?_, ht⟩
    · have hstep : rpcStep s x = .ok (some ([frameBytes ⟨x.channel, .method x.request⟩],
          replyOf x.expected x.answer), { s with outboundBuffer := buffer, connection := d }) := by
        rw [rpcStep, hrpc]
      rw [run_cons_ok hstep, hrun]
      rfl
    · rw [hqueue', hqueue, List.flatMap_cons, List.append_assoc]

/-- `channel.open` on a channel, with the frames that come before the reply. -/
def openChannel (channel : UInt16) (before : List Frame) : Exchange where
  channel := channel
  request := ⟨.channelOpen, ([], ())⟩
  expected := [.channelOpenOk]
  before := before
  reply := ⟨channel, .method ⟨.channelOpenOk, ([], ())⟩⟩
  answer := ⟨.channelOpenOk, ([], ())⟩

/-- Two replies in four chunks, with a frame of channel two before the first. -/
def openChunks : List Bytes :=
  [[3, 0, 2, 0, 0, 0, 1, 5], [206, 1, 0, 1, 0, 0, 0, 8, 0, 20, 0, 11, 0, 0, 0, 0, 206],
    [1, 0, 2, 0, 0, 0, 8, 0, 20, 0, 11, 0], [0, 0, 0, 206]]

/-- A client that gets the chunks. -/
def Client.receiving (frameMax : ℕ) (arriving : List Bytes) : Client where
  outboundBuffer := List.replicate frameMax 0
  connection := Amqp.receiving frameMax arriving []
  channelMax := 0
  heartbeat := 0

theorem rpc_run_open :
    ∃ t, run rpcStep (Client.receiving 64 openChunks)
        [openChannel 1 [⟨2, .body [5]⟩], openChannel 2 []] =
        ([([frameBytes ⟨1, .method ⟨.channelOpen, ([], ())⟩⟩],
            .normal ⟨.channelOpenOk, ([], ())⟩),
          ([frameBytes ⟨2, .method ⟨.channelOpen, ([], ())⟩⟩],
            .normal ⟨.channelOpenOk, ([], ())⟩)], .ok t) ∧
      t.connection.queue = [⟨2, .body [5]⟩] := by
  have hreply (channel : UInt16) :
      (⟨channel, .method ⟨.channelOpenOk, ([], ())⟩⟩ : Frame).Sendable 64 :=
    ⟨⟨show 0 < 2 ^ 32 by decide, trivial⟩, trivial, ⟨trivial, trivial⟩,
      show 16 ≤ 64 by decide, show 16 < 2 ^ 32 by decide⟩
  have hsent : ∀ frame ∈ [openChannel 1 [⟨2, .body [5]⟩], openChannel 2 []].flatMap
      Exchange.frames ++ [], frame.Sendable 64 := by
    simp only [Exchange.frames, openChannel, List.flatMap_cons, List.flatMap_nil,
      List.cons_append, List.nil_append, List.append_nil]
    rw [List.forall_mem_cons, List.forall_mem_cons, List.forall_mem_singleton]
    exact ⟨⟨trivial, trivial, trivial, by decide, by decide⟩, hreply 1, hreply 2⟩
  have hcomes : Comes 64 (Client.receiving 64 openChunks).connection
      ([openChannel 1 [⟨2, .body [5]⟩], openChannel 2 []].flatMap Exchange.frames ++ []) none :=
    ⟨_, coming_receiving [] hsent (by decide), rfl⟩
  have hsound (channel : UInt16) (before : List Frame)
      (hbefore : ∀ frame ∈ before, frame.reply channel [.channelOpenOk] = none) :
      (openChannel channel before).Sound 64 :=
    ⟨⟨⟨show 0 < 2 ^ 8 by decide, trivial⟩, show 13 ≤ 64 by decide⟩, hbefore, by
      simp [openChannel, Frame.reply]⟩
  obtain ⟨t, hrun, hqueue, -⟩ := rpc_run [openChannel 1 [⟨2, .body [5]⟩], openChannel 2 []]
    (Client.receiving 64 openChunks) [] none (by
      rw [List.forall_mem_cons, List.forall_mem_singleton]
      exact ⟨hsound 1 _ (by simp [Frame.reply]), hsound 2 [] (by simp)⟩) hcomes
  exact ⟨t, hrun, hqueue⟩

end Rpc

end Amqp
