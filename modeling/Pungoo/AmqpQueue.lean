/-
# Waiting for frames, `librabbitmq/amqp_socket.c`

A connection reads frames from its socket, and keeps a queue of frames it has read before
anyone waited for them.  `amqp_simple_wait_frame` takes the next frame, and
`amqp_simple_wait_frame_on_channel` the next frame of a channel.  The latter cuts the queue
behind the frame it finds, so the frames in front of that are lost.

A socket is the list of chunks that `recv` will return; behind them it times out.  Heartbeats
that are due to be sent, and deadlines, are left out.
-/
import Pungoo.AmqpDelivery

namespace Amqp

open Wire Codec Failing Chunks

/-- The members of `struct amqp_connection_state_t_` that deliver frames: `unread` is
`sock_inbound_buffer` from `sock_inbound_offset` to `sock_inbound_limit`, and `queue` the list
from `first_queued_frame` on. -/
structure Connection where
  inbound : Inbound
  unread : Bytes
  arriving : List Bytes
  queue : List Frame

/-- The frame is a heartbeat. -/
def Frame.isHeartbeat (frame : Frame) : Bool :=
  match frame.payload with
  | .heartbeat => true
  | .method _ | .header _ _ | .body _ | .protocolHeader _ _ _ _ => false

/-! ## Reading frames -/

/-- `consume_one_frame(state, &decoded_frame)`. -/
def consumeOneFrame (c : Connection) : Except Failure (Option Frame × Connection) := do
  let (res, frame, inbound) ← handleInput c.inbound c.unread
  pure (frame, { c with inbound := inbound, unread := c.unread.drop res })

/-- `recv_with_timeout(state, timeout)`. -/
def recvWithTimeout (c : Connection) : Except Failure Connection :=
  match c.arriving with
  | [] => .error (.status .timeout)
  | data :: arriving => .ok { c with unread := data, arriving := arriving }

/-- The loop of `wait_frame_inner` over the data in the buffer. -/
def waitInBuffer : ℕ → Connection → Except Failure (Option Frame × Connection)
  | 0, c => .ok (none, c)
  | fuel + 1, c =>
    if c.unread.isEmpty then .ok (none, c)
    else do
      let (frame, c) ← consumeOneFrame c
      match frame with
      | none => waitInBuffer fuel c
      | some frame => if frame.isHeartbeat then waitInBuffer fuel c else pure (some frame, c)

/-- The outer loop of `wait_frame_inner`. -/
def waitLoop : ℕ → Connection → Except Failure (Frame × Connection)
  | 0, _ => .error (.status .timeout)
  | fuel + 1, c => do
    let (frame, c) ← waitInBuffer c.unread.length c
    match frame with
    | some frame => pure (frame, c)
    | none => do
      let c ← recvWithTimeout c
      waitLoop fuel c

/-- `wait_frame_inner(state, &decoded_frame, timeout)`. -/
def waitFrameInner (c : Connection) : Except Failure (Frame × Connection) :=
  waitLoop (c.arriving.length + 1) c

/-! ## The queue -/

/-- `amqp_queue_frame(state, frame)`. -/
def queueFrame (frame : Frame) (c : Connection) : Connection :=
  { c with queue := c.queue ++ [frame] }

/-- `amqp_put_back_frame(state, frame)`. -/
def putBackFrame (frame : Frame) (c : Connection) : Connection :=
  { c with queue := frame :: c.queue }

/-- `amqp_simple_wait_frame(state, &decoded_frame)`. -/
def simpleWaitFrame (c : Connection) : Except Failure (Frame × Connection) :=
  match c.queue with
  | frame :: queue => .ok (frame, { c with queue := queue })
  | [] => waitFrameInner c

/-- The loop of `amqp_simple_wait_frame_on_channel` over the queue: the frame, and what
`first_queued_frame` is afterwards. -/
def findOnChannel (channel : UInt16) : List Frame → Option (Frame × List Frame)
  | [] => none
  | frame :: queue =>
    if channel = frame.channel then some (frame, queue) else findOnChannel channel queue

/-- Its loop over the frames that are read. -/
def waitOnChannelLoop (channel : UInt16) : ℕ → Connection → Except Failure (Frame × Connection)
  | 0, _ => .error (.status .timeout)
  | fuel + 1, c => do
    let (frame, c) ← waitFrameInner c
    if channel = frame.channel then pure (frame, c)
    else waitOnChannelLoop channel fuel (queueFrame frame c)

/-- The bytes that have not been handled. -/
def Connection.stream (c : Connection) : Bytes := c.unread ++ c.arriving.flatten

/-- `amqp_simple_wait_frame_on_channel(state, channel, &decoded_frame)`. -/
def simpleWaitFrameOnChannel (channel : UInt16) (c : Connection) :
    Except Failure (Frame × Connection) :=
  match findOnChannel channel c.queue with
  | some (frame, queue) => .ok (frame, { c with queue := queue })
  | none => waitOnChannelLoop channel (c.stream.length + 1) c

/-- The loop of `amqp_try_recv` over the data in the buffer. -/
def queueInBuffer : ℕ → Connection → Except Failure Connection
  | 0, c => .ok c
  | fuel + 1, c =>
    if c.unread.isEmpty then .ok c
    else do
      let (frame, c) ← consumeOneFrame c
      match frame with
      | none => queueInBuffer fuel c
      | some frame => queueInBuffer fuel (queueFrame frame c)

/-- `amqp_try_recv(state)`: whether it answers with a timeout, and the connection, on which the
frames are queued also then. -/
def tryRecv (c : Connection) : Except Failure (Bool × Connection) := do
  let c ← queueInBuffer c.unread.length c
  match recvWithTimeout c with
  | .ok c => pure (false, c)
  | .error (.status .timeout) => pure (true, c)
  | .error x => .error x

/-! ## What is to come -/

/-- How a run ends. -/
def ending {σ : Type} (r : Except Failure σ) : Option Failure :=
  match r with
  | .ok _ => none
  | .error e => some e

/-- The frames in the bytes that have not been handled, heartbeats included, and the failure
behind them. -/
def Coming (frameMax : ℕ) (c : Connection) (frames : List Frame) (e : Option Failure) : Prop :=
  ∃ p, Represents frameMax c.inbound p ∧ (run (absorb frameMax) p c.stream).1 = frames ∧
    ending (run (absorb frameMax) p c.stream).2 = e ∧ e ≠ some .undefined

section Coming

variable {frameMax : ℕ} {c d : Connection} {frames : List Frame} {e : Option Failure}

/-- What `amqp_handle_input` returns for the unread data agrees with the machine. -/
theorem agrees_of_coming {p : Pending} (hrep : Represents frameMax c.inbound p)
    (hsafe : ending (run (absorb frameMax) p c.stream).2 ≠ some .undefined)
    (hne : c.unread ≠ []) :
    Agrees (absorb frameMax) (Represents frameMax) p c.unread (handleInput c.inbound c.unread) := by
  refine handleInput_follows frameMax c.inbound p c.unread hrep hne fun hbad => hsafe ?_
  unfold Connection.stream
  rw [run_append]
  rcases hrun : run (absorb frameMax) p c.unread with ⟨out, e | q⟩ <;> rw [hrun] at hbad
  · obtain rfl := Except.error.inj hbad
    rfl
  · exact absurd hbad (by simp)

/-- Data that are handled are the next frame, or a part of it. -/
theorem consumeOneFrame_ok (h : Coming frameMax c frames e) (hne : c.unread ≠ [])
    {o : Option Frame} (hok : consumeOneFrame c = .ok (o, d)) :
    d.queue = c.queue ∧ d.arriving = c.arriving ∧ d.unread.length < c.unread.length ∧
      ∃ frames', frames = o.toList ++ frames' ∧ Coming frameMax d frames' e := by
  obtain ⟨p, hrep, rfl, rfl, hsafe⟩ := h
  have hagrees := agrees_of_coming hrep hsafe hne
  obtain ⟨⟨n, o', t⟩, hhandle, hpure⟩ := bind_eq_ok_iff.mp hok
  obtain ⟨rfl, rfl⟩ := Prod.mk.inj (Except.ok.inj hpure)
  rw [hhandle] at hagrees
  obtain ⟨hn, q, hrun, hq⟩ := hagrees
  have hstream : c.stream = c.unread.take n ++ (c.unread.drop n ++ c.arriving.flatten) := by
    rw [← List.append_assoc, List.take_append_drop]
    rfl
  have hlen := List.length_pos_iff.mpr hne
  rw [hstream, run_append, hrun, andThen_ok] at hsafe ⊢
  exact ⟨rfl, rfl, by rw [List.length_drop]; omega, _, rfl, q, hq, rfl, rfl, hsafe⟩

/-- Data that are refused are the next failure. -/
theorem consumeOneFrame_error (h : Coming frameMax c frames e) (hne : c.unread ≠ [])
    {x : Failure} (herr : consumeOneFrame c = .error x) : frames = [] ∧ e = some x := by
  obtain ⟨p, hrep, rfl, rfl, hsafe⟩ := h
  have hagrees := agrees_of_coming hrep hsafe hne
  rcases bind_eq_error_iff.mp herr with hhandle | ⟨y, -, hpure⟩
  · rw [hhandle] at hagrees
    obtain ⟨n, hrun⟩ := hagrees
    have hunread := run_of_take hrun
    unfold Connection.stream
    rw [run_append, hunread, andThen_error]
    exact ⟨rfl, rfl⟩
  · exact absurd hpure (by simp [pure, Except.pure])

/-- With nothing unread, what comes is in the next chunk. -/
theorem recvWithTimeout_ok (h : Coming frameMax c frames e) (hnil : c.unread = [])
    (hok : recvWithTimeout c = .ok d) :
    d.queue = c.queue ∧ d.arriving.length < c.arriving.length ∧ d.stream = c.stream ∧
      Coming frameMax d frames e := by
  unfold recvWithTimeout at hok
  split at hok
  next => exact absurd hok (by simp)
  next data arriving harriving =>
    obtain rfl := Except.ok.inj hok
    have hstream : data ++ arriving.flatten = c.stream := by
      rw [Connection.stream, hnil, harriving, List.flatten_cons, List.nil_append]
    refine ⟨rfl, by simp [harriving], hstream, ?_⟩
    obtain ⟨p, hrep, hframes, he, hsafe⟩ := h
    rw [← hstream] at hframes he
    exact ⟨p, hrep, hframes, he, hsafe⟩

/-- With nothing unread and no chunk, nothing comes. -/
theorem recvWithTimeout_error (h : Coming frameMax c frames e) (hnil : c.unread = [])
    {x : Failure} (herr : recvWithTimeout c = .error x) :
    frames = [] ∧ e = none ∧ x = .status .timeout := by
  unfold recvWithTimeout at herr
  split at herr
  next harriving =>
    obtain ⟨p, -, rfl, rfl, -⟩ := h
    have hstream : c.stream = [] := by rw [Connection.stream, hnil, harriving]; rfl
    rw [hstream]
    exact ⟨rfl, rfl, (Except.error.inj herr).symm⟩
  next => exact absurd herr (by simp)

/-- The frames that were sent to a connection come to it. -/
theorem coming_of_sent (hsent : ∀ frame ∈ frames, frame.Sendable frameMax)
    (hidle : Idle c.inbound) (hmax : c.inbound.frameMax = frameMax)
    (hstream : c.stream = frames.flatMap frameBytes) : Coming frameMax c frames none := by
  refine ⟨Pending.idle, represents_idle hmax hidle, ?_, ?_, by simp⟩ <;>
    rw [hstream, run_frames hsent]
  rfl

/-- A connection between two frames that gets the chunks. -/
def receiving (frameMax : ℕ) (arriving : List Bytes) (queue : List Frame) : Connection where
  inbound := (newInbound frameMax fun _ _ => 0).returnToIdle
  unread := []
  arriving := arriving
  queue := queue

theorem coming_receiving {arriving : List Bytes} (queue : List Frame)
    (hsent : ∀ frame ∈ frames, frame.Sendable frameMax)
    (harriving : arriving.flatten = frames.flatMap frameBytes) :
    Coming frameMax (receiving frameMax arriving queue) frames none :=
  coming_of_sent hsent ⟨rfl, rfl, rfl, rfl⟩ rfl harriving

/-- A heartbeat, and a frame on each of two channels. -/
theorem coming_three (queue : List Frame) :
    Coming 64 (receiving 64 [[8, 0, 0, 0, 0], [0, 0, 206, 3, 0, 2, 0, 0, 0, 1, 5, 206],
      [3, 0, 1, 0, 0, 0, 1, 6, 206]] queue)
      [⟨0, .heartbeat⟩, ⟨2, .body [5]⟩, ⟨1, .body [6]⟩] none := by
  refine coming_receiving queue ?_ rfl
  rw [List.forall_mem_cons, List.forall_mem_cons, List.forall_mem_singleton]
  exact ⟨⟨trivial, trivial, trivial, by decide, by decide⟩,
    ⟨trivial, trivial, trivial, by decide, by decide⟩,
    ⟨trivial, trivial, trivial, by decide, by decide⟩⟩

/-! ## Reading the next frame -/

/-- All of the frames are heartbeats. -/
def Heartbeats (frames : List Frame) : Prop := ∀ frame ∈ frames, frame.isHeartbeat = true

/-- Heartbeats are skipped, then comes `o` if it is a frame, and `d` is left. -/
def Delivers (frameMax : ℕ) (c : Connection) (frames : List Frame) (e : Option Failure)
    (o : Option Frame) (d : Connection) : Prop :=
  d.queue = c.queue ∧ ∃ beats frames', frames = beats ++ (o.toList ++ frames') ∧
    Heartbeats beats ∧ (∀ frame ∈ o, frame.isHeartbeat = false) ∧ Coming frameMax d frames' e

theorem Heartbeats.append {beats beats' : List Frame} (h : Heartbeats beats)
    (h' : Heartbeats beats') : Heartbeats (beats ++ beats') := by
  intro frame hframe
  rcases List.mem_append.mp hframe with hframe | hframe
  · exact h frame hframe
  · exact h' frame hframe

theorem Delivers.none_self (h : Coming frameMax c frames e) :
    Delivers frameMax c frames e none c :=
  ⟨rfl, [], frames, rfl, by simp [Heartbeats], by simp, h⟩

/-- Frames that were skipped before are skipped. -/
theorem Delivers.after {o : Option Frame} {beats frames' : List Frame} {c' : Connection}
    (hqueue : c'.queue = c.queue) (hframes : frames = beats ++ frames') (hbeats : Heartbeats beats)
    (h : Delivers frameMax c' frames' e o d) : Delivers frameMax c frames e o d := by
  obtain ⟨hq, beats', frames'', rfl, hbeats', ho, hcoming⟩ := h
  exact ⟨hq.trans hqueue, beats ++ beats', frames'', by rw [hframes, List.append_assoc],
    hbeats.append hbeats', ho, hcoming⟩

/-- The data in the buffer: a frame that is no heartbeat, or nothing is left of them. -/
theorem waitInBuffer_ok {fuel : ℕ} (hfuel : c.unread.length ≤ fuel)
    (h : Coming frameMax c frames e) {o : Option Frame}
    (hok : waitInBuffer fuel c = .ok (o, d)) :
    Delivers frameMax c frames e o d ∧ d.arriving = c.arriving ∧ (o = none → d.unread = []) ∧
      d.unread.length ≤ c.unread.length ∧ (o ≠ none → d.unread.length < c.unread.length) := by
  induction fuel generalizing c frames with
  | zero =>
    have hnil : c.unread = [] := List.length_eq_zero_iff.mp (by omega)
    obtain ⟨rfl, rfl⟩ := Prod.mk.inj (Except.ok.inj hok)
    exact ⟨.none_self h, rfl, fun _ => hnil, Nat.le_refl _, fun hne => absurd rfl hne⟩
  | succ fuel ih =>
    unfold waitInBuffer at hok
    split at hok
    next hnil =>
      obtain ⟨rfl, rfl⟩ := Prod.mk.inj (Except.ok.inj hok)
      exact ⟨.none_self h, rfl, fun _ => by simpa using hnil, Nat.le_refl _,
        fun hne => absurd rfl hne⟩
    next hne =>
      obtain ⟨⟨frame, c'⟩, hconsume, hok⟩ := bind_eq_ok_iff.mp hok
      obtain ⟨hqueue, harriving, hlen, frames', rfl, hcoming⟩ :=
        consumeOneFrame_ok h (by simpa using hne) hconsume
      have hmore : ∀ beats, Heartbeats beats → waitInBuffer fuel c' = .ok (o, d) →
          Delivers frameMax c (beats ++ frames') e o d ∧ d.arriving = c.arriving ∧
            (o = none → d.unread = []) ∧ d.unread.length ≤ c.unread.length ∧
            (o ≠ none → d.unread.length < c.unread.length) := by
        intro beats hbeats hok
        obtain ⟨hdelivers, harriving', hnil, hle, hlt⟩ := ih (by omega) hcoming hok
        exact ⟨.after hqueue rfl hbeats hdelivers, harriving'.trans harriving, hnil, by omega,
          fun _ => by omega⟩
      cases frame with
      | none => exact hmore [] (by simp [Heartbeats]) hok
      | some frame =>
        simp only at hok
        split at hok
        next hbeat => exact hmore [frame] (by simpa [Heartbeats] using hbeat) hok
        next hbeat =>
          obtain ⟨rfl, rfl⟩ := Prod.mk.inj (Except.ok.inj hok)
          exact ⟨⟨hqueue, [], frames', rfl, by simp [Heartbeats], by simpa using hbeat, hcoming⟩,
            harriving, fun hnone => absurd hnone (by simp), by omega, fun _ => hlen⟩

/-- A failure in the buffer has heartbeats before it only. -/
theorem waitInBuffer_error {fuel : ℕ} (h : Coming frameMax c frames e) {x : Failure}
    (herr : waitInBuffer fuel c = .error x) : Heartbeats frames ∧ e = some x := by
  induction fuel generalizing c frames with
  | zero => exact absurd herr (by simp [waitInBuffer])
  | succ fuel ih =>
    unfold waitInBuffer at herr
    split at herr
    next => exact absurd herr (by simp)
    next hne =>
      rcases bind_eq_error_iff.mp herr with hconsume | ⟨⟨frame, c'⟩, hconsume, herr⟩
      · obtain ⟨rfl, he⟩ := consumeOneFrame_error h (by simpa using hne) hconsume
        exact ⟨by simp [Heartbeats], he⟩
      · obtain ⟨-, -, -, frames', rfl, hcoming⟩ :=
          consumeOneFrame_ok h (by simpa using hne) hconsume
        cases frame with
        | none => exact ih hcoming herr
        | some frame =>
          simp only at herr
          split at herr
          next hbeat =>
            obtain ⟨hbeats, he⟩ := ih hcoming herr
            exact ⟨.append (by simpa [Heartbeats] using hbeat) hbeats, he⟩
          next => exact absurd herr (by simp [pure, Except.pure])

theorem length_stream (c : Connection) :
    c.stream.length = c.unread.length + c.arriving.flatten.length := List.length_append

theorem waitLoop_ok {fuel : ℕ} (h : Coming frameMax c frames e) {frame : Frame}
    (hok : waitLoop fuel c = .ok (frame, d)) :
    Delivers frameMax c frames e (some frame) d ∧ d.stream.length < c.stream.length := by
  induction fuel generalizing c frames with
  | zero => exact absurd hok (by simp [waitLoop])
  | succ fuel ih =>
    obtain ⟨⟨o, c'⟩, hbuffer, hok⟩ := bind_eq_ok_iff.mp hok
    obtain ⟨hdelivers, harriving, hnil, hle, hlt⟩ := waitInBuffer_ok (Nat.le_refl _) h hbuffer
    have hlen : c'.stream.length + c.unread.length = c.stream.length + c'.unread.length := by
      rw [length_stream, length_stream, harriving]
      omega
    cases o with
    | some frame' =>
      obtain ⟨rfl, rfl⟩ := Prod.mk.inj (Except.ok.inj hok)
      have := hlt (by simp)
      exact ⟨hdelivers, by omega⟩
    | none =>
      obtain ⟨c'', hrecv, hok⟩ := bind_eq_ok_iff.mp hok
      obtain ⟨hqueue, beats, frames', rfl, hbeats, -, hcoming⟩ := hdelivers
      obtain ⟨hqueue', -, hstream, hcoming'⟩ := recvWithTimeout_ok hcoming (hnil rfl) hrecv
      obtain ⟨hdelivers', hlt'⟩ := ih hcoming' hok
      rw [hstream] at hlt'
      exact ⟨.after (hqueue'.trans hqueue) rfl hbeats hdelivers', by omega⟩

theorem waitLoop_error {fuel : ℕ} (hfuel : c.arriving.length < fuel)
    (h : Coming frameMax c frames e) {x : Failure} (herr : waitLoop fuel c = .error x) :
    Heartbeats frames ∧ x = e.getD (.status .timeout) := by
  induction fuel generalizing c frames with
  | zero => omega
  | succ fuel ih =>
    rcases bind_eq_error_iff.mp herr with hbuffer | ⟨⟨o, c'⟩, hbuffer, herr⟩
    · obtain ⟨hbeats, rfl⟩ := waitInBuffer_error h hbuffer
      exact ⟨hbeats, rfl⟩
    · obtain ⟨hdelivers, harriving, hnil, -, -⟩ := waitInBuffer_ok (Nat.le_refl _) h hbuffer
      cases o with
      | some frame => exact absurd herr (by simp [pure, Except.pure])
      | none =>
        obtain ⟨-, beats, frames', rfl, hbeats, -, hcoming⟩ := hdelivers
        rcases bind_eq_error_iff.mp herr with hrecv | ⟨c'', hrecv, herr⟩
        · obtain ⟨rfl, rfl, rfl⟩ := recvWithTimeout_error hcoming (hnil rfl) hrecv
          exact ⟨by simpa using hbeats, rfl⟩
        · obtain ⟨-, hlt, -, hcoming'⟩ := recvWithTimeout_ok hcoming (hnil rfl) hrecv
          rw [harriving] at hlt
          obtain ⟨hbeats', hx⟩ := ih (by omega) hcoming' herr
          exact ⟨hbeats.append hbeats', hx⟩

/-- `wait_frame_inner` delivers the next frame that is no heartbeat.  Where nothing but
heartbeats comes, it fails as the data behind them do, or with a timeout. -/
theorem waitFrameInner_spec (h : Coming frameMax c frames e) :
    (∃ frame d, waitFrameInner c = .ok (frame, d) ∧ Delivers frameMax c frames e (some frame) d ∧
        d.stream.length < c.stream.length) ∨
      waitFrameInner c = .error (e.getD (.status .timeout)) ∧ Heartbeats frames := by
  cases hwait : waitFrameInner c with
  | ok x =>
    obtain ⟨hdelivers, hlt⟩ := waitLoop_ok h hwait
    exact .inl ⟨x.1, x.2, rfl, hdelivers, hlt⟩
  | error x =>
    obtain ⟨hbeats, rfl⟩ := waitLoop_error (Nat.lt_succ_self _) h hwait
    exact .inr ⟨rfl, hbeats⟩

example :
    ∃ frame d, waitFrameInner (receiving 64 [[8, 0, 0, 0, 0],
        [0, 0, 206, 3, 0, 2, 0, 0, 0, 1, 5, 206], [3, 0, 1, 0, 0, 0, 1, 6, 206]] []) =
      .ok (frame, d) ∧ frame.isHeartbeat = false := by
  rcases waitFrameInner_spec (coming_three []) with
    ⟨frame, d, hwait, ⟨-, -, -, -, -, hplain, -⟩, -⟩ | ⟨-, hbeats⟩
  · exact ⟨frame, d, hwait, hplain frame rfl⟩
  · exact absurd (hbeats ⟨2, .body [5]⟩ (by simp)) (by simp [Frame.isHeartbeat])

/-! ## The operations -/

/-- A call of a program that receives. -/
inductive Op
  | wait | waitOn (channel : UInt16) | tryRecv
  deriving DecidableEq, Repr

/-- What a call delivers, and the connection afterwards.  An `amqp_try_recv` that times out leaves
a connection to go on with; any other call that fails ends the run. -/
def perform (c : Connection) : Op → Except Failure (Option Frame × Connection)
  | .wait => do
    let (frame, c) ← simpleWaitFrame c
    pure (some frame, c)
  | .waitOn channel => do
    let (frame, c) ← simpleWaitFrameOnChannel channel c
    pure (some frame, c)
  | .tryRecv => do
    let (_, c) ← tryRecv c
    pure (none, c)

/-- Frames that count are no heartbeats. -/
def NoHeartbeat (P : Frame → Bool) : Prop := ∀ frame, P frame = true → frame.isHeartbeat = false

variable {P : Frame → Bool} {channel : UInt16}

theorem filter_heartbeats {beats : List Frame} (hP : NoHeartbeat P) (h : Heartbeats beats) :
    beats.filter P = [] := by
  rw [List.filter_eq_nil_iff]
  intro frame hframe hp
  have := h frame hframe
  rw [hP frame hp] at this
  exact absurd this (by simp)

/-- No frame of a channel counts. -/
theorem filter_other {others : List Frame} (hP : ∀ frame, P frame = true → frame.channel = channel)
    (h : ∀ frame ∈ others, channel ≠ frame.channel) : others.filter P = [] := by
  rw [List.filter_eq_nil_iff]
  exact fun frame hframe hp => h frame hframe (hP frame hp).symm

theorem Coming.queue (h : Coming frameMax c frames e) (queue : List Frame) :
    Coming frameMax { c with queue := queue } frames e := h

/-- The next frame is the first of those in the queue and those to come. -/
theorem simpleWaitFrame_ok (h : Coming frameMax c frames e) {frame : Frame}
    (hok : simpleWaitFrame c = .ok (frame, d)) :
    ∃ frames', Coming frameMax d frames' e ∧ ∀ P, NoHeartbeat P →
      (frame :: (d.queue ++ frames')).filter P = (c.queue ++ frames).filter P := by
  unfold simpleWaitFrame at hok
  split at hok
  next first queue hqueue =>
    obtain ⟨rfl, rfl⟩ := Prod.mk.inj (Except.ok.inj hok)
    exact ⟨frames, h.queue queue, fun P _ => by rw [hqueue]; rfl⟩
  next hqueue =>
    obtain ⟨⟨hq, beats, frames', rfl, hbeats, -, hcoming⟩, -⟩ := waitLoop_ok h hok
    refine ⟨frames', hcoming, fun P hP => ?_⟩
    rw [hq, hqueue, List.nil_append, List.nil_append, List.filter_append,
      filter_heartbeats hP hbeats]
    rfl

/-- The first frame of a channel in the queue, with what is before and behind it. -/
theorem findOnChannel_some {queue rest : List Frame} {frame : Frame}
    (h : findOnChannel channel queue = some (frame, rest)) :
    frame.channel = channel ∧ ∃ others, queue = others ++ frame :: rest ∧
      ∀ other ∈ others, channel ≠ other.channel := by
  induction queue with
  | nil => exact absurd h (by simp [findOnChannel])
  | cons first queue ih =>
    unfold findOnChannel at h
    split at h
    next hchannel =>
      obtain ⟨rfl, rfl⟩ := Prod.mk.inj (Option.some.inj h)
      exact ⟨hchannel.symm, [], rfl, by simp⟩
    next hchannel =>
      obtain ⟨hframe, others, rfl, hothers⟩ := ih h
      refine ⟨hframe, first :: others, rfl, ?_⟩
      rw [List.forall_mem_cons]
      exact ⟨hchannel, hothers⟩

theorem findOnChannel_append {others : List Frame} {frame : Frame} (rest : List Frame)
    (hothers : ∀ other ∈ others, channel ≠ other.channel) (hframe : frame.channel = channel) :
    findOnChannel channel (others ++ frame :: rest) = some (frame, rest) := by
  induction others with
  | nil => exact if_pos hframe.symm
  | cons first others ih =>
    rw [List.forall_mem_cons] at hothers
    exact (if_neg hothers.1).trans (ih hothers.2)

theorem findOnChannel_none {queue : List Frame} (h : findOnChannel channel queue = none) :
    ∀ frame ∈ queue, channel ≠ frame.channel := by
  induction queue with
  | nil => simp
  | cons first queue ih =>
    unfold findOnChannel at h
    split at h
    next => exact absurd h (by simp)
    next hchannel =>
      rw [List.forall_mem_cons]
      exact ⟨hchannel, ih h⟩

/-- The frame of the channel that comes first; the frames that come before it are queued. -/
theorem waitOnChannelLoop_ok {fuel : ℕ} (h : Coming frameMax c frames e) {frame : Frame}
    (hok : waitOnChannelLoop channel fuel c = .ok (frame, d)) :
    frame.channel = channel ∧ ∃ others frames', d.queue = c.queue ++ others ∧
      (∀ other ∈ others, channel ≠ other.channel) ∧ Coming frameMax d frames' e ∧
      ∀ P, NoHeartbeat P → (others ++ frame :: frames').filter P = frames.filter P := by
  induction fuel generalizing c frames with
  | zero => exact absurd hok (by simp [waitOnChannelLoop])
  | succ fuel ih =>
    obtain ⟨⟨first, c'⟩, hwait, hok⟩ := bind_eq_ok_iff.mp hok
    obtain ⟨⟨hqueue, beats, frames', rfl, hbeats, -, hcoming⟩, -⟩ := waitLoop_ok h hwait
    have hskip : ∀ P, NoHeartbeat P →
        (beats ++ ((some first).toList ++ frames')).filter P = (first :: frames').filter P := by
      intro P hP
      rw [List.filter_append, filter_heartbeats hP hbeats]
      rfl
    simp only at hok
    split at hok
    next hchannel =>
      obtain ⟨rfl, rfl⟩ := Prod.mk.inj (Except.ok.inj hok)
      exact ⟨hchannel.symm, [], frames', by rw [hqueue, List.append_nil], by simp, hcoming,
        fun P hP => (hskip P hP).symm⟩
    next hchannel =>
      obtain ⟨hframe, others, frames'', hqueue', hothers, hcoming', hfilter⟩ :=
        ih (hcoming.queue _) hok
      refine ⟨hframe, first :: others, frames'', ?_, ?_, hcoming', fun P hP => ?_⟩
      · rw [hqueue', hqueue, List.append_assoc]
        rfl
      · rw [List.forall_mem_cons]
        exact ⟨hchannel, hothers⟩
      · rw [hskip P hP, List.cons_append, List.filter_cons, hfilter P hP, ← List.filter_cons]

/-- The frames a connection holds or may still read: each has a byte at least. -/
def Connection.left (c : Connection) : ℕ := c.queue.length + c.stream.length

/-- Neither the frame nor those that are queued meanwhile are heartbeats. -/
theorem waitOnChannelLoop_plain {fuel : ℕ} (h : Coming frameMax c frames e) {frame : Frame}
    (hok : waitOnChannelLoop channel fuel c = .ok (frame, d)) :
    frame.isHeartbeat = false ∧ d.left < c.left ∧
      ∀ f ∈ d.queue, f ∈ c.queue ∨ channel ≠ f.channel ∧ f.isHeartbeat = false := by
  induction fuel generalizing c frames with
  | zero => exact absurd hok (by simp [waitOnChannelLoop])
  | succ fuel ih =>
    obtain ⟨⟨first, c'⟩, hwait, hok⟩ := bind_eq_ok_iff.mp hok
    obtain ⟨⟨hqueue, beats, frames', rfl, -, hplain, hcoming⟩, hlt⟩ := waitLoop_ok h hwait
    simp only at hok
    split at hok
    next =>
      obtain ⟨rfl, rfl⟩ := Prod.mk.inj (Except.ok.inj hok)
      refine ⟨hplain first rfl, ?_, fun f hf => .inl (hqueue ▸ hf)⟩
      rw [Connection.left, Connection.left, hqueue]
      omega
    next hchannel =>
      obtain ⟨hframe, hless, hnew⟩ := ih (hcoming.queue _) hok
      refine ⟨hframe, ?_, fun f hf => ?_⟩
      · have hleft : (queueFrame first c').left = c'.queue.length + 1 + c'.stream.length := by
          simp [Connection.left, queueFrame, Connection.stream]
        have hlater : d.left < c'.queue.length + 1 + c'.stream.length := hleft ▸ hless
        rw [hqueue] at hlater
        unfold Connection.left at hlater ⊢
        omega
      · rcases hnew f hf with hold | hother
        · rcases List.mem_append.mp hold with hold | hfirst
          · exact .inl (hqueue ▸ hold)
          · obtain rfl := List.mem_singleton.mp hfirst
            exact .inr ⟨hchannel, hplain f rfl⟩
        · exact .inr hother

/-- Where it fails, no frame of the channel comes. -/
theorem waitOnChannelLoop_error {fuel : ℕ} (hfuel : c.stream.length < fuel)
    (h : Coming frameMax c frames e) {x : Failure}
    (herr : waitOnChannelLoop channel fuel c = .error x) :
    x = e.getD (.status .timeout) ∧
      ∀ frame ∈ frames, frame.channel = channel → frame.isHeartbeat = true := by
  induction fuel generalizing c frames with
  | zero => omega
  | succ fuel ih =>
    rcases bind_eq_error_iff.mp herr with hwait | ⟨⟨first, c'⟩, hwait, herr⟩
    · obtain ⟨hbeats, rfl⟩ := waitLoop_error (Nat.lt_succ_self _) h hwait
      exact ⟨rfl, fun frame hframe _ => hbeats frame hframe⟩
    · obtain ⟨⟨-, beats, frames', rfl, hbeats, -, hcoming⟩, hlt⟩ := waitLoop_ok h hwait
      simp only at herr
      split at herr
      next => exact absurd herr (by simp [pure, Except.pure])
      next hchannel =>
        have hshorter : (queueFrame first c').stream.length < fuel := by
          change c'.stream.length < fuel
          omega
        obtain ⟨hx, hnone⟩ := ih hshorter (hcoming.queue _) herr
        refine ⟨hx, fun frame hframe hon => ?_⟩
        simp only [Option.toList_some, List.singleton_append, List.mem_append,
          List.mem_cons] at hframe
        rcases hframe with hframe | rfl | hframe
        · exact hbeats frame hframe
        · exact absurd hon.symm hchannel
        · exact hnone frame hframe hon

/-- `amqp_try_recv` moves frames that are complete to the queue. -/
theorem queueInBuffer_ok {fuel : ℕ} (hfuel : c.unread.length ≤ fuel)
    (h : Coming frameMax c frames e) (hok : queueInBuffer fuel c = .ok d) :
    ∃ moved frames', frames = moved ++ frames' ∧ d.queue = c.queue ++ moved ∧
      d.unread = [] ∧ Coming frameMax d frames' e := by
  induction fuel generalizing c frames with
  | zero =>
    have hnil : c.unread = [] := List.length_eq_zero_iff.mp (by omega)
    obtain rfl := Except.ok.inj hok
    exact ⟨[], frames, rfl, by rw [List.append_nil], hnil, h⟩
  | succ fuel ih =>
    unfold queueInBuffer at hok
    split at hok
    next hnil =>
      obtain rfl := Except.ok.inj hok
      exact ⟨[], frames, rfl, by rw [List.append_nil], by simpa using hnil, h⟩
    next hne =>
      obtain ⟨⟨frame, c'⟩, hconsume, hok⟩ := bind_eq_ok_iff.mp hok
      obtain ⟨hqueue, -, hlen, frames', rfl, hcoming⟩ :=
        consumeOneFrame_ok h (by simpa using hne) hconsume
      cases frame with
      | none =>
        obtain ⟨moved, frames'', rfl, hqueue', hnil, hcoming'⟩ := ih (by omega) hcoming hok
        exact ⟨moved, frames'', rfl, by rw [hqueue', hqueue], hnil, hcoming'⟩
      | some frame =>
        have hshorter : (queueFrame frame c').unread.length ≤ fuel := by
          change c'.unread.length ≤ fuel
          omega
        obtain ⟨moved, frames'', rfl, hqueue', hnil, hcoming'⟩ :=
          ih hshorter (hcoming.queue (c'.queue ++ [frame])) hok
        have hqueue'' : d.queue = (c'.queue ++ [frame]) ++ moved := hqueue'
        refine ⟨frame :: moved, frames'', rfl, ?_, hnil, hcoming'⟩
        rw [hqueue'', hqueue, List.append_assoc]
        rfl

/-- Nothing is lost in `amqp_try_recv`, also where it times out. -/
theorem tryRecv_ok {timedOut : Bool} (h : Coming frameMax c frames e)
    (hok : tryRecv c = .ok (timedOut, d)) :
    ∃ frames', Coming frameMax d frames' e ∧ d.queue ++ frames' = c.queue ++ frames := by
  obtain ⟨c', hqueue, hrecv⟩ := bind_eq_ok_iff.mp hok
  obtain ⟨moved, frames', rfl, hq, hnil, hcoming⟩ := queueInBuffer_ok (Nat.le_refl _) h hqueue
  split at hrecv
  next c'' hread =>
    obtain ⟨-, rfl⟩ := Prod.mk.inj (Except.ok.inj hrecv)
    obtain ⟨hq', -, -, hcoming'⟩ := recvWithTimeout_ok hcoming hnil hread
    exact ⟨frames', hcoming', by rw [hq', hq, List.append_assoc]⟩
  next =>
    obtain ⟨-, rfl⟩ := Prod.mk.inj (Except.ok.inj hrecv)
    exact ⟨frames', hcoming, by rw [hq, List.append_assoc]⟩
  next => exact absurd hrecv (by simp)

/-! ## Runs of calls -/

theorem sublist_of_eq {as bs : List Frame} (h : as = bs) : as.Sublist bs :=
  h ▸ List.Sublist.refl as

/-- A call keeps the frames that count, and their order, if it does not wait on a channel
that one of them is not on. -/
theorem perform_keeps (h : Coming frameMax c frames e) {op : Op} {o : Option Frame}
    (hok : perform c op = .ok (o, d)) :
    ∃ frames', Coming frameMax d frames' e ∧ ∀ P, NoHeartbeat P →
      ((∀ channel, op = .waitOn channel → ∀ frame, P frame = true → frame.channel = channel) →
        (o.toList ++ (d.queue ++ frames')).filter P = (c.queue ++ frames).filter P) ∧
      ((∃ channel, ∀ frame, P frame = true → frame.channel = channel) →
        ((o.toList ++ (d.queue ++ frames')).filter P).Sublist ((c.queue ++ frames).filter P)) := by
  cases op with
  | wait =>
    obtain ⟨⟨frame, c'⟩, hwait, hpure⟩ := bind_eq_ok_iff.mp hok
    obtain ⟨rfl, rfl⟩ := Prod.mk.inj (Except.ok.inj hpure)
    obtain ⟨frames', hcoming, hfilter⟩ := simpleWaitFrame_ok h hwait
    exact ⟨frames', hcoming, fun P hP => ⟨fun _ => hfilter P hP,
      fun _ => sublist_of_eq (hfilter P hP)⟩⟩
  | tryRecv =>
    obtain ⟨⟨timedOut, c'⟩, hrecv, hpure⟩ := bind_eq_ok_iff.mp hok
    obtain ⟨rfl, rfl⟩ := Prod.mk.inj (Except.ok.inj hpure)
    obtain ⟨frames', hcoming, hsame⟩ := tryRecv_ok h hrecv
    exact ⟨frames', hcoming, fun P _ => ⟨fun _ => congrArg (List.filter P) hsame,
      fun _ => sublist_of_eq (congrArg (List.filter P) hsame)⟩⟩
  | waitOn channel =>
    obtain ⟨⟨frame, c'⟩, hwait, hpure⟩ := bind_eq_ok_iff.mp hok
    obtain ⟨rfl, rfl⟩ := Prod.mk.inj (Except.ok.inj hpure)
    unfold simpleWaitFrameOnChannel at hwait
    split at hwait
    next first queue hfind =>
      obtain ⟨rfl, rfl⟩ := Prod.mk.inj (Except.ok.inj hwait)
      obtain ⟨hchannel, others, hqueue, hothers⟩ := findOnChannel_some hfind
      refine ⟨frames, h.queue queue, fun P hP => ⟨fun hon => ?_, fun _ => ?_⟩⟩
      · rw [hqueue, List.append_assoc, List.filter_append others,
          filter_other (hon channel rfl) hothers]
        rfl
      · rw [hqueue, List.append_assoc]
        exact (List.sublist_append_right others _).filter P
    next hfind =>
      obtain ⟨hchannel, others, frames', hqueue, hothers, hcoming, hfilter⟩ :=
        waitOnChannelLoop_ok h hwait
      have hnone := findOnChannel_none hfind
      have hsame : ∀ P, NoHeartbeat P →
          (∀ frame, P frame = true → frame.channel = channel) →
          (frame :: (c'.queue ++ frames')).filter P = (c.queue ++ frames).filter P := by
        intro P hP hon
        have hleft : (frame :: (c'.queue ++ frames')).filter P = (frame :: frames').filter P := by
          rw [hqueue, List.filter_cons, List.filter_append, List.filter_append,
            filter_other hon hnone, filter_other hon hothers, List.filter_cons]
          rfl
        rw [hleft, List.filter_append, filter_other hon hnone, ← hfilter P hP,
          List.filter_append, filter_other hon hothers]
        rfl
      refine ⟨frames', hcoming, fun P hP => ⟨fun hon => hsame P hP (hon channel rfl), ?_⟩⟩
      rintro ⟨other, hon⟩
      by_cases hother : other = channel
      · subst hother
        exact sublist_of_eq (hsame P hP hon)
      · -- the frames that count were read behind the queue, and are queued behind it
        have hframe : P frame = false := by
          by_contra hp
          rw [Bool.not_eq_false] at hp
          exact hother ((hon frame hp).symm.trans hchannel)
        have hleft : (frame :: (c'.queue ++ frames')).filter P =
            (c.queue ++ frames).filter P := by
          rw [hqueue, List.filter_cons, hframe, List.append_assoc, List.filter_append,
            List.filter_append c.queue frames, ← hfilter P hP, List.filter_append others,
            List.filter_append others, List.filter_cons, hframe]
          rfl
        exact sublist_of_eq hleft

/-- So does a run of calls. -/
theorem run_keeps {ops : List Op} {delivered : List Frame} (h : Coming frameMax c frames e)
    (hrun : run perform c ops = (delivered, .ok d)) :
    ∃ frames', Coming frameMax d frames' e ∧ ∀ P, NoHeartbeat P →
      ((∀ channel, .waitOn channel ∈ ops → ∀ frame, P frame = true → frame.channel = channel) →
        (delivered ++ (d.queue ++ frames')).filter P = (c.queue ++ frames).filter P) ∧
      ((∃ channel, ∀ frame, P frame = true → frame.channel = channel) →
        ((delivered ++ (d.queue ++ frames')).filter P).Sublist ((c.queue ++ frames).filter P)) := by
  induction ops generalizing c frames delivered with
  | nil =>
    obtain ⟨rfl, hd⟩ := Prod.mk.inj hrun
    obtain rfl := Except.ok.inj hd
    exact ⟨frames, h, fun P _ => ⟨fun _ => rfl, fun _ => List.Sublist.refl _⟩⟩
  | cons op ops ih =>
    cases hop : perform c op with
    | error x =>
      rw [run_cons_error hop] at hrun
      exact absurd (Prod.mk.inj hrun).2 (by simp)
    | ok y =>
      obtain ⟨o, c'⟩ := y
      rw [run_cons_ok hop] at hrun
      obtain ⟨rfl, hd⟩ := Prod.mk.inj hrun
      obtain ⟨frames', hcoming, hstep⟩ := perform_keeps h hop
      obtain ⟨frames'', hcoming', hlater⟩ := ih hcoming (Prod.ext rfl hd)
      refine ⟨frames'', hcoming', fun P hP => ⟨fun hon => ?_, fun hon => ?_⟩⟩
      · have hfirst := (hstep P hP).1 fun channel hwait => hon channel (by simp [hwait])
        have hrest := (hlater P hP).1 fun channel hwait => hon channel (by simp [hwait])
        rw [List.append_assoc, List.filter_append, hrest, ← List.filter_append, hfirst]
      · have hfirst := (hstep P hP).2 hon
        have hrest := (hlater P hP).2 hon
        rw [List.append_assoc, List.filter_append]
        rw [List.filter_append] at hfirst
        exact (hrest.append_left _).trans hfirst

/-- A frame of a channel that is no heartbeat. -/
def Frame.counts (channel : UInt16) (frame : Frame) : Bool :=
  frame.channel = channel && !frame.isHeartbeat

theorem noHeartbeat_counts (channel : UInt16) : NoHeartbeat (Frame.counts channel) := by
  intro frame h
  simpa using (Bool.and_eq_true_iff.mp h).2

theorem channel_of_counts {frame : Frame} (h : frame.counts channel = true) :
    frame.channel = channel := by
  simpa using (Bool.and_eq_true_iff.mp h).1

/-- In every run of calls, what is delivered, what is queued and what comes are in the order in
which they came: on each channel, with nothing twice; with nothing lost on a channel if no
call waits on another channel; and over all channels if no call waits on a channel. -/
theorem run_in_order (c d : Connection) (frames delivered : List Frame) (e : Option Failure)
    (ops : List Op) (h : Coming frameMax c frames e)
    (hrun : run perform c ops = (delivered, .ok d)) :
    ∃ frames', Coming frameMax d frames' e ∧
      (∀ channel, ((delivered ++ (d.queue ++ frames')).filter (Frame.counts channel)).Sublist
        ((c.queue ++ frames).filter (Frame.counts channel))) ∧
      (∀ channel, (∀ other, .waitOn other ∈ ops → other = channel) →
        (delivered ++ (d.queue ++ frames')).filter (Frame.counts channel) =
          (c.queue ++ frames).filter (Frame.counts channel)) ∧
      ((∀ other, .waitOn other ∉ ops) →
        (delivered ++ (d.queue ++ frames')).filter (fun frame => !frame.isHeartbeat) =
          (c.queue ++ frames).filter fun frame => !frame.isHeartbeat) := by
  obtain ⟨frames', hcoming, hkeeps⟩ := run_keeps h hrun
  refine ⟨frames', hcoming, fun channel => ?_, fun channel hon => ?_, fun hnone => ?_⟩
  · exact (hkeeps _ (noHeartbeat_counts channel)).2 ⟨channel, fun frame => channel_of_counts⟩
  · refine (hkeeps _ (noHeartbeat_counts channel)).1 fun other hwait frame hcounts => ?_
    rw [hon other hwait]
    exact channel_of_counts hcounts
  · refine (hkeeps _ fun frame hcounts => by simpa using hcounts).1 fun other hwait => ?_
    exact absurd hwait (hnone other)

theorem run_in_order_two :
    ∃ d frames', run perform (receiving 64 [[8, 0, 0, 0, 0],
        [0, 0, 206, 3, 0, 2, 0, 0, 0, 1, 5, 206], [3, 0, 1, 0, 0, 0, 1, 6, 206]] [])
        [.waitOn 1, .wait] = ([⟨1, .body [6]⟩, ⟨2, .body [5]⟩], .ok d) ∧
      Coming 64 d frames' none := by
  obtain ⟨frames', hcoming, -⟩ := run_in_order _ _ _ [⟨1, .body [6]⟩, ⟨2, .body [5]⟩] none
    [.waitOn 1, .wait] (coming_three []) rfl
  exact ⟨_, frames', rfl, hcoming⟩

/-- A wait on a channel finds a frame that is in the queue or comes.  It fails only where there
is none, with the failure of the data or a timeout. -/
theorem waitOnChannel_finds (c : Connection) (channel : UInt16)
    (h : Coming frameMax c frames e) :
    (∃ frame d, simpleWaitFrameOnChannel channel c = .ok (frame, d) ∧
        frame.channel = channel) ∨
      simpleWaitFrameOnChannel channel c = .error (e.getD (.status .timeout)) ∧
        ∀ frame ∈ c.queue ++ frames, frame.channel = channel → frame.isHeartbeat = true := by
  unfold simpleWaitFrameOnChannel
  cases hfind : findOnChannel channel c.queue with
  | some x => exact .inl ⟨x.1, _, rfl, (findOnChannel_some hfind).1⟩
  | none =>
    cases hloop : waitOnChannelLoop channel (c.stream.length + 1) c with
    | ok x => exact .inl ⟨x.1, x.2, rfl, (waitOnChannelLoop_ok h hloop).1⟩
    | error x =>
      obtain ⟨rfl, hnone⟩ := waitOnChannelLoop_error (Nat.lt_succ_self _) h hloop
      refine .inr ⟨rfl, fun frame hframe hon => ?_⟩
      rcases List.mem_append.mp hframe with hqueue | hcoming
      · exact absurd hon.symm (findOnChannel_none hfind frame hqueue)
      · exact hnone frame hcoming hon

example :
    ∃ frame d, simpleWaitFrameOnChannel 1 (receiving 64 [[8, 0, 0, 0, 0],
        [0, 0, 206, 3, 0, 2, 0, 0, 0, 1, 5, 206], [3, 0, 1, 0, 0, 0, 1, 6, 206]] []) =
      .ok (frame, d) ∧ frame.channel = 1 := by
  refine (waitOnChannel_finds _ 1 (coming_three [])).resolve_right ?_
  rintro ⟨-, hnone⟩
  exact absurd (hnone ⟨1, .body [6]⟩ (by simp) rfl) (by simp [Frame.isHeartbeat])

/-- A wait on a channel that finds its frame in the queue loses the frames in front of it: no
later call delivers one of them, unless an equal frame is behind it or comes. -/
theorem waitOn_loses (c d : Connection) (channel : UInt16) (frame : Frame)
    (lost rest delivered : List Frame) (ops : List Op) (h : Coming frameMax c frames e)
    (hqueue : c.queue = lost ++ frame :: rest) (hframe : frame.channel = channel)
    (hlost : ∀ other ∈ lost, channel ≠ other.channel)
    (hrun : run perform c (.waitOn channel :: ops) = (delivered, .ok d)) :
    ∃ later, delivered = frame :: later ∧
      ∀ other ∈ lost, other.isHeartbeat = false → other ∉ rest ++ frames → other ∉ later := by
  have hwait : perform c (.waitOn channel) = .ok (some frame, { c with queue := rest }) := by
    simp only [perform, simpleWaitFrameOnChannel]
    rw [hqueue, findOnChannel_append rest hlost hframe]
    rfl
  rw [run_cons_ok hwait] at hrun
  obtain ⟨rfl, hd⟩ := Prod.mk.inj hrun
  refine ⟨_, rfl, fun other _ hbeat hnew hlater => hnew ?_⟩
  obtain ⟨frames', -, hkeeps⟩ := run_keeps (h.queue rest) (Prod.ext rfl hd)
  have hsub := (hkeeps _ (noHeartbeat_counts other.channel)).2
    ⟨other.channel, fun frame => channel_of_counts⟩
  have hcounts : other.counts other.channel = true := by simp [Frame.counts, hbeat]
  have hmem := hsub.subset (List.mem_filter.mpr ⟨List.mem_append_left _ hlater, hcounts⟩)
  exact (List.mem_filter.mp hmem).1

/-- A later `amqp_try_recv`, which times out, and a later wait on the channel of the lost frame,
which delivers the next one of it. -/
theorem waitOn_loses_one :
    ∃ later, [(⟨1, .body [6]⟩ : Frame), ⟨2, .body [7]⟩] = ⟨1, .body [6]⟩ :: later ∧
      ∀ other ∈ [(⟨2, .body [5]⟩ : Frame)], other.isHeartbeat = false →
        other ∉ [(⟨2, .body [7]⟩ : Frame)] ++ [] → other ∉ later :=
  waitOn_loses (receiving 64 [] [⟨2, .body [5]⟩, ⟨1, .body [6]⟩, ⟨2, .body [7]⟩]) _ 1
    ⟨1, .body [6]⟩ [⟨2, .body [5]⟩] [⟨2, .body [7]⟩] _ [.tryRecv, .waitOn 2]
    (coming_receiving _ (by simp) rfl) rfl rfl (by decide) rfl

/-! ## The frames without the heartbeats -/

/-- The frames that come, without the heartbeats between them. -/
def Comes (frameMax : ℕ) (c : Connection) (pending : List Frame) (e : Option Failure) : Prop :=
  ∃ frames, Coming frameMax c frames e ∧
    frames.filter (fun frame => !frame.isHeartbeat) = pending

theorem noHeartbeat_not : NoHeartbeat fun frame => !frame.isHeartbeat := by
  intro frame h
  simpa using h

/-- A wait takes the first frame. -/
theorem Comes.wait {frame : Frame} {rest : List Frame} (h : Comes frameMax c (frame :: rest) e) :
    ∃ d, waitFrameInner c = .ok (frame, d) ∧ d.queue = c.queue ∧ Comes frameMax d rest e ∧
      d.stream.length < c.stream.length := by
  obtain ⟨frames, hcoming, hpending⟩ := h
  rcases waitFrameInner_spec hcoming with
    ⟨first, d, hwait, ⟨hq, beats, frames', rfl, hbeats, hplain, hd⟩, hlt⟩ | ⟨-, hbeats⟩
  · rw [List.filter_append, filter_heartbeats noHeartbeat_not hbeats, Option.toList_some,
      List.nil_append, List.singleton_append,
      List.filter_cons_of_pos (by simp [hplain first rfl])] at hpending
    obtain ⟨rfl, rfl⟩ := List.cons.inj hpending
    exact ⟨d, hwait, hq, ⟨frames', hd, rfl⟩, hlt⟩
  · rw [filter_heartbeats noHeartbeat_not hbeats] at hpending
    exact absurd hpending (by simp)

/-- Where none comes it fails. -/
theorem Comes.wait_nil (h : Comes frameMax c [] e) :
    waitFrameInner c = .error (e.getD (.status .timeout)) := by
  obtain ⟨frames, hcoming, hpending⟩ := h
  rcases waitFrameInner_spec hcoming with
    ⟨first, d, -, ⟨-, beats, frames', rfl, -, hplain, -⟩, -⟩ | ⟨herr, -⟩
  · rw [List.filter_append, Option.toList_some, List.singleton_append,
      List.filter_cons_of_pos (by simp [hplain first rfl])] at hpending
    exact absurd hpending (by simp)
  · exact herr

/-! ## One channel -/

/-- The frames of a channel that are queued or come, in their order: `pending`.  No heartbeat
of the channel is queued. -/
def Upcoming (frameMax : ℕ) (channel : UInt16) (c : Connection) (pending : List Frame)
    (e : Option Failure) : Prop :=
  (∀ frame ∈ c.queue, frame.channel = channel → frame.isHeartbeat = false) ∧
    ∃ frames, Coming frameMax c frames e ∧
      (c.queue ++ frames).filter (Frame.counts channel) = pending

theorem counts_of {frame : Frame} (hchannel : frame.channel = channel)
    (hplain : frame.isHeartbeat = false) : frame.counts channel = true := by
  simp [Frame.counts, hchannel, hplain]

/-- What a wait on a channel leaves for another channel, and for its own. -/
theorem waitOn_ok {pending : List Frame} {frame : Frame} (h : Upcoming frameMax channel c pending e)
    (hok : simpleWaitFrameOnChannel channel c = .ok (frame, d)) :
    ∃ rest, pending = frame :: rest ∧ Upcoming frameMax channel d rest e ∧ d.left < c.left := by
  obtain ⟨hplain, frames, hcoming, rfl⟩ := h
  unfold simpleWaitFrameOnChannel at hok
  split at hok
  next first queue hfind =>
    obtain ⟨rfl, rfl⟩ := Prod.mk.inj (Except.ok.inj hok)
    obtain ⟨hchannel, others, hqueue, hothers⟩ := findOnChannel_some hfind
    have hfirst : first.counts channel = true :=
      counts_of hchannel (hplain first (by simp [hqueue]) hchannel)
    have hpending : (c.queue ++ frames).filter (Frame.counts channel) =
        first :: (queue ++ frames).filter (Frame.counts channel) := by
      rw [hqueue, List.append_assoc, List.filter_append others,
        filter_other (fun frame => channel_of_counts) hothers, List.nil_append, List.cons_append,
        List.filter_cons_of_pos hfirst]
    refine ⟨_, hpending, ⟨fun frame hframe => hplain frame (by simp [hqueue, hframe]), frames,
      hcoming.queue queue, rfl⟩, ?_⟩
    simp only [Connection.left, hqueue, List.length_append, List.length_cons, Connection.stream]
    omega
  next hfind =>
    have hnone := findOnChannel_none hfind
    obtain ⟨hchannel, others, frames', hqueue, hothers, hcoming', hfilter⟩ :=
      waitOnChannelLoop_ok hcoming hok
    obtain ⟨hframe, hleft, hnew⟩ := waitOnChannelLoop_plain hcoming hok
    have hpending : (c.queue ++ frames).filter (Frame.counts channel) =
        frame :: (d.queue ++ frames').filter (Frame.counts channel) := by
      rw [List.filter_append, filter_other (fun frame => channel_of_counts) hnone,
        ← hfilter _ (noHeartbeat_counts channel), hqueue, List.filter_append others,
        List.filter_append (c.queue ++ others), List.filter_append c.queue,
        filter_other (fun frame => channel_of_counts) hothers,
        filter_other (fun frame => channel_of_counts) hnone,
        List.filter_cons_of_pos (counts_of hchannel hframe)]
      rfl
    refine ⟨_, hpending, ⟨fun f hf hon => ?_, frames', hcoming', rfl⟩, hleft⟩
    rcases hnew f hf with hold | ⟨hother, -⟩
    · exact hplain f hold hon
    · exact absurd hon.symm hother

/-- A wait on a channel takes the first of its frames. -/
theorem waitOn_cons {frame : Frame} {rest : List Frame}
    (h : Upcoming frameMax channel c (frame :: rest) e) :
    ∃ d, simpleWaitFrameOnChannel channel c = .ok (frame, d) ∧
      Upcoming frameMax channel d rest e ∧ d.left < c.left := by
  obtain ⟨hplain, frames, hcoming, hpending⟩ := id h
  rcases waitOnChannel_finds c channel hcoming with ⟨first, d, hok, -⟩ | ⟨-, hnone⟩
  · obtain ⟨rest', hrest, hd, hlt⟩ := waitOn_ok h hok
    obtain ⟨rfl, rfl⟩ := List.cons.inj hrest
    exact ⟨d, hok, hd, hlt⟩
  · have hmem : frame ∈ (c.queue ++ frames).filter (Frame.counts channel) := by
      simp [hpending]
    obtain ⟨hin, hcounts⟩ := List.mem_filter.mp hmem
    have hbeat := hnone frame hin (channel_of_counts hcounts)
    rw [noHeartbeat_counts channel frame hcounts] at hbeat
    exact absurd hbeat (by simp)

/-- Where none comes it fails. -/
theorem waitOn_nil (h : Upcoming frameMax channel c [] e) :
    simpleWaitFrameOnChannel channel c = .error (e.getD (.status .timeout)) := by
  obtain ⟨-, frames, hcoming, -⟩ := id h
  rcases waitOnChannel_finds c channel hcoming with ⟨first, d, hok, -⟩ | ⟨herr, -⟩
  · obtain ⟨rest, hrest, -⟩ := waitOn_ok h hok
    exact absurd hrest (by simp)
  · exact herr

/-- Where no frame of the channel is queued, the frames of the other channels stay. -/
theorem waitOn_keeps {other : UInt16} {pending : List Frame} {frame : Frame}
    (hnone : ∀ f ∈ c.queue, channel ≠ f.channel) (hother : other ≠ channel)
    (h : Upcoming frameMax other c pending e)
    (hok : simpleWaitFrameOnChannel channel c = .ok (frame, d)) :
    frame.channel = channel ∧ Upcoming frameMax other d pending e ∧
      ∀ f ∈ d.queue, channel ≠ f.channel := by
  obtain ⟨hplain, frames, hcoming, rfl⟩ := h
  unfold simpleWaitFrameOnChannel at hok
  split at hok
  next first queue hfind =>
    obtain ⟨hchannel, others, hqueue, -⟩ := findOnChannel_some hfind
    exact absurd hchannel.symm (hnone first (by simp [hqueue]))
  next =>
    obtain ⟨hchannel, others, frames', hqueue, hothers, hcoming', hfilter⟩ :=
      waitOnChannelLoop_ok hcoming hok
    obtain ⟨-, -, hnew⟩ := waitOnChannelLoop_plain hcoming hok
    refine ⟨hchannel, ⟨fun f hf hon => ?_, frames', hcoming', ?_⟩, fun f hf => ?_⟩
    · rcases hnew f hf with hold | ⟨-, hbeat⟩
      · exact hplain f hold hon
      · exact hbeat
    · have hframe : ¬ frame.counts other = true := by
        intro hcounts
        exact hother ((channel_of_counts hcounts).symm.trans hchannel)
      rw [hqueue, List.append_assoc, List.filter_append, List.filter_append c.queue frames,
        ← hfilter _ (noHeartbeat_counts other), List.filter_append others,
        List.filter_append others, List.filter_cons_of_neg hframe]
    · rcases hnew f hf with hold | ⟨hoff, -⟩
      · exact hnone f hold
      · exact hoff

end Coming

end Amqp
