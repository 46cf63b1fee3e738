/-
# Logging in, `amqp_login` of `librabbitmq/amqp_socket.c`

The client sends the protocol header, answers `connection.start` with `connection.start-ok` and
`connection.tune` with `connection.tune-ok`, and opens the virtual host.  The limits it agrees
to are the server's where these are lower.  The outbound buffer gets the size of a frame, so
the server decides how large it is.
-/
import Mathlib.Data.List.TakeWhile
import Pungoo.AmqpMerge
import Pungoo.AmqpRpc
import Pungoo.AmqpTune

namespace Amqp

open Wire Codec Failing Chunks

/-! ## Mechanisms -/

/-- The bytes of a string of the source. -/
def ascii (s : String) : Bytes := s.toList.map fun c => UInt8.ofNat c.toNat

/-- `amqp_sasl_method_enum`, with the arguments of the method. -/
inductive SaslMethod
  | plain (username password : Bytes)
  | external (identity : Bytes)

/-- `sasl_method_name(method)`. -/
def SaslMethod.name : SaslMethod → Bytes
  | .plain _ _ => ascii "PLAIN"
  | .external _ => ascii "EXTERNAL"

/-- `sasl_response(pool, method, args)`.  No memory is asked for where there are no bytes, and
that counts as a failure. -/
def SaslMethod.response : SaslMethod → Except Failure Bytes
  | .plain username password => .ok (0 :: username ++ 0 :: password)
  | .external identity =>
    if identity.length = 0 then .error (.status .noMemory) else .ok identity

/-- The loop of `sasl_mechanism_in_list`, from `start` to the end of the list. -/
def mechanismInList (mechanism : Bytes) : ℕ → Bytes → Bool
  | 0, _ => false
  | fuel + 1, start =>
    if mechanism = start.takeWhile (· ≠ 32) then true
    else
      match start.dropWhile (· ≠ 32) with
      | [] => false
      | _ :: next => mechanismInList mechanism fuel next

/-- `sasl_mechanism_in_list(mechanisms, method)`. -/
def saslMechanismInList (mechanisms : Bytes) (method : SaslMethod) : Bool :=
  match mechanisms with
  | [] => false
  | _ :: _ => mechanismInList method.name (mechanisms.length + 1) mechanisms

/-- The loop finds the words between spaces. -/
theorem mechanismInList_iff {mechanism start : Bytes} {fuel : ℕ} (hfuel : start.length < fuel) :
    mechanismInList mechanism fuel start = true ↔ mechanism ∈ start.splitOn 32 := by
  induction fuel generalizing start with
  | zero => omega
  | succ fuel ih =>
    have hword : (32 : UInt8) ∉ start.takeWhile (· ≠ 32) := by
      intro hspace
      simpa using List.mem_takeWhile_imp hspace
    have hstart := List.takeWhile_append_dropWhile (p := (· ≠ 32)) (l := start)
    unfold mechanismInList
    cases hrest : start.dropWhile (· ≠ 32) with
    | nil =>
      rw [hrest, List.append_nil] at hstart
      rw [hstart] at hword ⊢
      rw [List.splitOn_eq_singleton hword]
      simp
    | cons space next =>
      obtain rfl : space = 32 := by
        have hhead := List.head?_dropWhile_not (· ≠ 32) start
        rw [hrest] at hhead
        simpa using hhead
      rw [hrest] at hstart
      have hshorter : next.length < fuel := by
        have hlen := congrArg List.length hstart
        rw [List.length_append, List.length_cons] at hlen
        omega
      have hsplit : start.splitOn 32 = start.takeWhile (· ≠ 32) :: next.splitOn 32 := by
        conv_lhs => rw [← hstart]
        exact List.splitOn_append_cons_self_of_not_mem hword next
      rw [hsplit, List.mem_cons]
      split
      next hfound => exact iff_of_true rfl (.inl hfound)
      next hother => exact (ih hshorter).trans ⟨.inr, fun h => h.resolve_left hother⟩

/-- A method is accepted if its name is one of the words of the server's list. -/
theorem saslMechanismInList_iff (mechanisms : Bytes) (method : SaslMethod) :
    saslMechanismInList mechanisms method = true ↔ method.name ∈ mechanisms.splitOn 32 := by
  cases mechanisms with
  | nil =>
    rw [List.splitOn_nil, List.mem_singleton]
    refine iff_of_false (by simp [saslMechanismInList]) ?_
    cases method with
    | plain username password => exact (by decide : ascii "PLAIN" ≠ [])
    | external identity => exact (by decide : ascii "EXTERNAL" ≠ [])
  | cons first rest => exact mechanismInList_iff (Nat.lt_succ_self _)

/-! ## The methods of the handshake -/

/-- `amqp_connection_start_t`. -/
structure Start where
  versionMajor : UInt8
  versionMinor : UInt8
  serverProperties : Table
  mechanisms : Bytes
  locales : Bytes

/-- The `struct` as a method. -/
def Start.toMethod (s : Start) : Method where
  number := .connectionStart
  fields := (s.versionMajor, s.versionMinor, s.serverProperties, s.mechanisms, s.locales, ())

/-- The `struct` of a method. -/
def Method.start : Method → Option Start
  | ⟨.connectionStart, (versionMajor, versionMinor, serverProperties, mechanisms, locales, _)⟩ =>
    some ⟨versionMajor, versionMinor, serverProperties, mechanisms, locales⟩
  | _ => none

/-- `amqp_connection_start_ok_t`. -/
structure StartOk where
  clientProperties : Table
  mechanism : Bytes
  response : Bytes
  locale : Bytes

/-- The `struct` as a method. -/
def StartOk.toMethod (s : StartOk) : Method where
  number := .connectionStartOk
  fields := (s.clientProperties, s.mechanism, s.response, s.locale, ())

/-- `amqp_connection_tune_t`, and `amqp_connection_tune_ok_t`. -/
structure Tune where
  channelMax : UInt16
  frameMax : UInt32
  heartbeat : UInt16

/-- The `struct` as a method of the server. -/
def Tune.toMethod (s : Tune) : Method where
  number := .connectionTune
  fields := (s.channelMax, s.frameMax, s.heartbeat, ())

/-- The `struct` as the answer. -/
def Tune.toOk (s : Tune) : Method where
  number := .connectionTuneOk
  fields := (s.channelMax, s.frameMax, s.heartbeat, ())

/-- The `struct` of a method. -/
def Method.tune : Method → Option Tune
  | ⟨.connectionTune, (channelMax, frameMax, heartbeat, _)⟩ =>
    some ⟨channelMax, frameMax, heartbeat⟩
  | _ => none

/-- `amqp_connection_open_t`, as `amqp_login_inner` fills it in. -/
def openMethod (vhost : Bytes) : Method where
  number := .connectionOpen
  fields := (vhost, [], ![true], ())

/-! ## Client properties -/

/-- The strings of `amqp_login_inner` about the library. -/
structure Library where
  product : Bytes
  version : Bytes
  platform : Bytes
  copyright : Bytes
  information : Bytes

/-- `default_properties`. -/
def Library.defaultTable (library : Library) : Table :=
  [.mk (ascii "product") (.utf8 library.product),
    .mk (ascii "version") (.utf8 library.version),
    .mk (ascii "platform") (.utf8 library.platform),
    .mk (ascii "copyright") (.utf8 library.copyright),
    .mk (ascii "information") (.utf8 library.information),
    .mk (ascii "capabilities")
      (.table [.mk (ascii "authentication_failure_close") (.boolean true)])]

/-! ## The handshake -/

/-- `AMQP_PROTOCOL_VERSION_MAJOR`. -/
def protocolVersionMajor : UInt8 := 0

/-- `AMQP_PROTOCOL_VERSION_MINOR`. -/
def protocolVersionMinor : UInt8 := 9

/-- `AMQP_PROTOCOL_VERSION_REVISION`. -/
def protocolVersionRevision : UInt8 := 1

/-- What `amqp_send_header` sends. -/
def protocolHeader : Bytes :=
  ascii "AMQP" ++ [0, protocolVersionMajor, protocolVersionMinor, protocolVersionRevision]

/-- A step that sends and receives nothing. -/
def check {α : Type} (x : Except Failure α) : Trace Bytes Failure α := ([], x)

/-- What `amqp_login_inner` sends for `connection.start`. -/
def answerStart (library : Library) (clientProperties : Table) (method : SaslMethod) (s : Start) :
    Except Failure Method := do
  if s.versionMajor ≠ protocolVersionMajor ∨ s.versionMinor ≠ protocolVersionMinor then
    .error (.status .incompatibleAmqpVersion)
  else do
    -- `server_properties`
    let _ ← orFail (tableClone s.serverProperties)
    if !saslMechanismInList s.mechanisms method then
      .error (.status .brokerUnsupportedSaslMethod)
    else do
      let response ← method.response
      let clientProperties ← mergeCapabilities library.defaultTable clientProperties
      pure (StartOk.mk clientProperties method.name response (ascii "en_US")).toMethod

/-- The limits that `amqp_login_inner` agrees to. -/
def negotiate (client server : Tune) : Tune where
  channelMax :=
    if server.channelMax ≠ 0 ∧ (server.channelMax < client.channelMax ∨ client.channelMax = 0) then
      server.channelMax
    else if server.channelMax = 0 ∧ client.channelMax = 0 then 65535
    else client.channelMax
  frameMax :=
    if server.frameMax ≠ 0 ∧ server.frameMax < client.frameMax then server.frameMax
    else client.frameMax
  heartbeat :=
    if server.heartbeat ≠ 0 ∧ server.heartbeat < client.heartbeat then server.heartbeat
    else client.heartbeat

/-- `amqp_release_buffers(state)`; memory that is given back to a pool is not modelled. -/
def releaseBuffers (s : Client) : Except Failure Client :=
  -- `amqp_abort`
  if s.connection.inbound.state ≠ .idle then .error .undefined else .ok s

/-- `amqp_tune_connection(state, channel_max, frame_max, heartbeat)`.  `realloc` to no bytes
returns no memory; what it adds to the buffer is not used before it is written. -/
def tuneConnection (t : Tune) (s : Client) : Except Failure Client :=
  -- `amqp_abort`
  if s.connection.inbound.state ≠ .idle then .error .undefined
  else if t.frameMax = 0 then .error (.status .noMemory)
  else .ok { s with
    outboundBuffer :=
      (s.outboundBuffer ++ List.replicate t.frameMax.toNat 0).take t.frameMax.toNat
    connection := { s.connection with
      inbound := { s.connection.inbound with frameMax := t.frameMax.toNat } }
    channelMax := t.channelMax.toNat
    heartbeat := t.heartbeat.toNat }

/-- `amqp_login_inner` from `connection.tune` on. -/
def afterTune (vhost : Bytes) (client : Tune) (method : Method) (s : Client) :
    Trace Bytes Failure (Reply Unit × Client) :=
  match method.tune with
  -- `connection.close`
  | none => ([], .ok (.serverException method, s))
  | some server =>
    let agreed := negotiate client server
    andThen (check (tuneConnection agreed s)) fun s =>
    andThen (sendMethod 0 agreed.toOk s) fun s =>
    andThen (check (releaseBuffers s)) fun s =>
    andThen (simpleRpc 0 (openMethod vhost) [.connectionOpenOk] s) fun (reply, s) =>
    ([], .ok (reply.map fun _ => (), s))

/-- The limits of a client that can be asked for. -/
def clientLimits (channelMax frameMax heartbeat : ℤ) : Except Failure Tune :=
  if channelMax < 0 ∨ 65535 < channelMax then .error (.status .invalidParameter)
  else if frameMax < 0 then .error (.status .invalidParameter)
  else if heartbeat < 0 ∨ 65535 < heartbeat then .error (.status .invalidParameter)
  else .ok ⟨UInt16.ofNat channelMax.toNat, UInt32.ofNat frameMax.toNat,
    UInt16.ofNat heartbeat.toNat⟩

/-- `amqp_login_inner(state, vhost, channel_max, frame_max, heartbeat, client_properties,
sasl_method, vl)`. -/
def loginInner (library : Library) (vhost : Bytes) (channelMax frameMax heartbeat : ℤ)
    (clientProperties : Table) (method : SaslMethod) (s : Client) :
    Trace Bytes Failure (Reply Unit × Client) :=
  andThen (check (clientLimits channelMax frameMax heartbeat)) fun client =>
  andThen ([protocolHeader], .ok ()) fun () =>
  andThen (receive (simpleWaitMethodList 0 [.connectionStart]) s) fun (start, s) =>
  -- the method is `connection.start`
  andThen (check ((start.start.elim (.error .undefined) .ok) >>=
    answerStart library clientProperties method)) fun startOk =>
  andThen (sendMethod 0 startOk s) fun s =>
  andThen (check (releaseBuffers s)) fun s =>
  andThen (receive (simpleWaitMethodList 0 [.connectionTune, .connectionClose]) s)
    fun (tune, s) => afterTune vhost client tune s

/-! ## The server's part -/

section Handshake

variable {frameMax agreed : ℕ} {c d : Connection} {start : Start} {server : Tune}
  {frames before after rest : List Frame} {e : Option Failure}

/-- A frame of channel zero with a method. -/
def onZero (m : Method) : Frame := { channel := 0, payload := .method m }

/-- What the server sends on a new connection: `connection.start` and more frames. -/
structure Greeted (c : Connection) (start : Start) (frames : List Frame) : Prop where
  new : ∃ pool, c.inbound = newInbound c.inbound.frameMax pool ∧ pool 0 7 = 0
  queue : c.queue = []
  stream : c.stream = (onZero start.toMethod :: frames).flatMap frameBytes
  sent : ∀ frame ∈ onZero start.toMethod :: frames, frame.Sendable c.inbound.frameMax

/-- The first frame of a new connection comes as it was sent if it is a method. -/
theorem coming_new {pool : ℕ → ℕ → UInt8} {m : Method}
    (hnew : c.inbound = newInbound frameMax pool) (hclear : pool 0 7 = 0)
    (hsent : ∀ frame ∈ onZero m :: frames, frame.Sendable frameMax)
    (hstream : c.stream = (onZero m :: frames).flatMap frameBytes) :
    Coming frameMax c (onZero m :: frames) none := by
  have hfirst := (List.forall_mem_cons.mp hsent).1
  obtain ⟨content, hcontent⟩ := payload_head hfirst.encodable (.inl rfl)
  have hsame : (frameBytes (onZero m)).set 7 (pool 0 7) = frameBytes (onZero m) := by
    rw [set_frameBytes, hcontent, hclear]
    simp [frameBytes, hcontent]
  have hrun := run_first (b := pool 0 7) hsent
  rw [hsame, parseFrame_frameBytes hfirst.encodable hfirst.named hfirst.tables, ← hstream] at hrun
  refine ⟨Pending.new (pool 0 7), hnew ▸ represents_new frameMax pool, ?_, ?_, by simp⟩ <;>
    rw [hrun]
  · rfl
  · rfl

/-- Without its heartbeats. -/
def plain (frames : List Frame) : List Frame := frames.filter fun frame => !frame.isHeartbeat

/-- What the server sends comes, without its heartbeats. -/
theorem Greeted.comes (h : Greeted c start frames) :
    Comes c.inbound.frameMax c (onZero start.toMethod :: plain frames) none := by
  obtain ⟨pool, hnew, hclear⟩ := h.new
  exact ⟨_, coming_new hnew hclear h.sent h.stream, rfl⟩

/-- Under another limit, if all frames are within it. -/
theorem Greeted.comes_within (h : Greeted c start frames)
    (hmost : ∀ frame ∈ onZero start.toMethod :: frames, (frameBytes frame).length ≤ frameMax) :
    Comes frameMax (c.within frameMax) (onZero start.toMethod :: plain frames) none := by
  obtain ⟨pool, hnew, hclear⟩ := h.new
  have hsent : ∀ frame ∈ onZero start.toMethod :: frames, frame.Sendable frameMax :=
    fun frame hframe => { h.sent frame hframe with most := hmost frame hframe }
  have hwithin : (c.within frameMax).inbound = newInbound frameMax pool := by
    change c.inbound.within frameMax = _
    rw [hnew]
    rfl
  exact ⟨_, coming_new hwithin hclear hsent h.stream, rfl⟩

/-- The wait for a method, where it comes first. -/
theorem simpleWaitMethodList_ok {m : Method} (expected : List MethodNumber)
    (hqueue : c.queue = []) (hexpected : m.number ∈ expected)
    (h : Comes frameMax c (onZero m :: rest) e) :
    ∃ d, simpleWaitMethodList 0 expected c = .ok (m, d) ∧ waitFrameInner c = .ok (onZero m, d) ∧
      d.queue = [] ∧ d.inbound.state = .idle ∧ Comes frameMax d rest e := by
  obtain ⟨d, hwait, hd, hcomes, -⟩ := h.wait
  have hsimple : simpleWaitFrame c = .ok (onZero m, d) := by rw [simpleWaitFrame, hqueue, hwait]
  refine ⟨d, ?_, hwait, hd.trans hqueue, waitFrameInner_idle hwait, hcomes⟩
  rw [simpleWaitMethodList, hsimple, ok_bind]
  simp [onZero, hexpected]
  rfl

end Handshake

/-! ## Login -/

section Login

variable {library : Library} {vhost : Bytes} {channelMax frameMax heartbeat : ℤ}
  {clientProperties : Table} {method : SaslMethod} {s : Client} {client server agreed : Tune}
  {start : Start} {startOk : Method} {frames pending : List Frame} {e : Option Failure}

/-- The length of tune-ok. -/
theorem length_toOk (t : Tune) : (frameBytes (onZero t.toOk)).length = 20 := by
  simp [length_frameBytes, onZero, Tune.toOk, Payload.bytes, Method.bytes, fieldsBytes,
    MethodNumber.layout, fieldBytes, headerSize, footerSize]

/-- The length of tune. -/
theorem length_tune (t : Tune) : (frameBytes (onZero t.toMethod)).length = 20 := by
  simp [length_frameBytes, onZero, Tune.toMethod, Payload.bytes, Method.bytes, fieldsBytes,
    MethodNumber.layout, fieldBytes, headerSize, footerSize]

/-- Up to `connection.tune`: what comes behind it still comes, under other limits too. -/
theorem loginInner_start (vhost : Bytes)
    (hlimits : clientLimits channelMax frameMax heartbeat = .ok client)
    (hanswer : answerStart library clientProperties method start = .ok startOk)
    (hgreeted : Greeted s.connection start frames)
    (hpending : plain frames = onZero server.toMethod :: pending)
    (hfits : (onZero startOk).FitsIn s.outboundBuffer.length) :
    ∃ t, loginInner library vhost channelMax frameMax heartbeat clientProperties method s =
        andThen ([protocolHeader, frameBytes (onZero startOk)], .ok t)
          (afterTune vhost client server.toMethod) ∧
      t.connection.queue = [] ∧ t.connection.inbound.state = .idle ∧
      t.outboundBuffer.length = s.outboundBuffer.length ∧
      ∀ limit, (∀ frame ∈ onZero start.toMethod :: frames, (frameBytes frame).length ≤ limit) →
        Comes limit (t.connection.within limit) pending none := by
  have hcomes := hgreeted.comes
  rw [hpending] at hcomes
  obtain ⟨d, hstart, hwait, hqueue, hidle, hcomes⟩ :=
    simpleWaitMethodList_ok [.connectionStart] hgreeted.queue
      (by simp [Start.toMethod]) hcomes
  obtain ⟨buffer, hsend, hlen⟩ := sendMethod_fits (s := { s with connection := d }) hfits
  obtain ⟨d', htune, hwait', hqueue', hidle', -⟩ :=
    simpleWaitMethodList_ok [.connectionTune, .connectionClose] hqueue
      (by simp [Tune.toMethod]) hcomes
  refine ⟨{ s with outboundBuffer := buffer, connection := d' }, ?_, hqueue', hidle', hlen, ?_⟩
  · have hstruct : start.toMethod.start = some start := rfl
    have hrelease : releaseBuffers { s with outboundBuffer := buffer, connection := d } =
        .ok { s with outboundBuffer := buffer, connection := d } := by
      simp [releaseBuffers, hidle]
    simp only [loginInner, check, receive, hlimits, hstart, andThen_ok, Except.map, hstruct,
      Option.elim, ok_bind, hanswer, hsend, hrelease, htune]
    rfl
  · intro limit hmost
    have hwithin := hgreeted.comes_within hmost
    rw [hpending] at hwithin
    exact (hwithin.within hwait).within hwait'

/-- From `connection.tune` on, where the limit leaves room for the frames. -/
theorem afterTune_ok {before after : List Frame} {reply : Frame} {m : Method}
    (hagreed : negotiate client server = agreed) (hqueue : s.connection.queue = [])
    (hidle : s.connection.inbound.state = .idle)
    (hcomes : Comes agreed.frameMax.toNat (s.connection.within agreed.frameMax.toNat)
      (before ++ reply :: after) e)
    (hroom : 20 ≤ agreed.frameMax.toNat)
    (hopen : (onZero (openMethod vhost)).FitsIn agreed.frameMax.toNat)
    (hbefore : ∀ frame ∈ before, frame.reply 0 [.connectionOpenOk] = none)
    (hreply : reply.reply 0 [.connectionOpenOk] = some m) :
    ∃ t, afterTune vhost client server.toMethod s =
        ([frameBytes (onZero agreed.toOk), frameBytes (onZero (openMethod vhost))],
          .ok ((replyOf [.connectionOpenOk] m).map fun _ => (), t)) ∧
      t.channelMax = agreed.channelMax.toNat ∧ t.heartbeat = agreed.heartbeat.toNat ∧
      t.outboundBuffer.length = agreed.frameMax.toNat ∧ t.connection.queue = before ∧
      Comes agreed.frameMax.toNat t.connection after e := by
  obtain ⟨c, hc⟩ : ∃ c, s.connection.within agreed.frameMax.toNat = c := ⟨_, rfl⟩
  obtain ⟨buffer, hbuffer⟩ : ∃ buffer, (s.outboundBuffer ++
      List.replicate agreed.frameMax.toNat 0).take agreed.frameMax.toNat = buffer := ⟨_, rfl⟩
  have hlen : buffer.length = agreed.frameMax.toNat := by
    rw [← hbuffer, List.length_take, List.length_append, List.length_replicate]
    omega
  have htune : tuneConnection agreed s =
      .ok ⟨buffer, c, agreed.channelMax.toNat, agreed.heartbeat.toNat⟩ := by
    have hne : agreed.frameMax ≠ 0 := by
      rintro hzero
      rw [hzero] at hroom
      exact absurd hroom (by decide)
    rw [tuneConnection, if_neg (by simp [hidle]), if_neg hne, hbuffer, ← hc]
    rfl
  have hok : (onZero agreed.toOk).FitsIn buffer.length :=
    ⟨⟨trivial, trivial, trivial, trivial⟩, (length_toOk agreed).trans_le (hlen ▸ hroom)⟩
  obtain ⟨buffer', hsend, hlen'⟩ := sendMethod_fits
    (s := ⟨buffer, c, agreed.channelMax.toNat, agreed.heartbeat.toNat⟩) hok
  have hrelease : releaseBuffers ⟨buffer', c, agreed.channelMax.toNat, agreed.heartbeat.toNat⟩ =
      .ok ⟨buffer', c, agreed.channelMax.toNat, agreed.heartbeat.toNat⟩ := by
    have hstate : c.inbound.state = .idle := hc ▸ hidle
    simp [releaseBuffers, hstate]
  rw [hc] at hcomes
  have hfits : (onZero (openMethod vhost)).FitsIn buffer'.length := by
    rw [hlen', hlen]
    exact hopen
  obtain ⟨out, d, hrpc, hlen'', hqueue', hd⟩ := (simpleRpc_spec
    ⟨buffer', c, agreed.channelMax.toNat, agreed.heartbeat.toNat⟩ 0 (openMethod vhost)
    [.connectionOpenOk] _ e hfits hcomes).1 before reply after m rfl hbefore hreply
  have hstruct : server.toMethod.tune = some server := rfl
  refine ⟨⟨out, d, agreed.channelMax.toNat, agreed.heartbeat.toNat⟩, ?_, rfl, rfl, ?_, ?_, hd⟩
  · simp only [afterTune, hstruct, hagreed, check, htune, andThen_ok, hsend, hrelease, hrpc]
    rfl
  · exact hlen''.trans (hlen'.trans hlen)
  · have hempty : c.queue = [] := hc ▸ hqueue
    rw [hqueue', hempty]
    rfl

/-- A limit that the answer to `connection.tune` does not fit in. -/
theorem afterTune_small (vhost : Bytes) (hagreed : negotiate client server = agreed)
    (hidle : s.connection.inbound.state = .idle) (hsmall : agreed.frameMax.toNat < 20) :
    ∃ x, afterTune vhost client server.toMethod s = ([], .error x) ∧
      (x = .undefined ↔ 0 < agreed.frameMax.toNat ∧ agreed.frameMax.toNat < 12) := by
  have hstruct : server.toMethod.tune = some server := rfl
  have hstate : ¬ s.connection.inbound.state ≠ .idle := by simp [hidle]
  by_cases hzero : agreed.frameMax = 0
  · refine ⟨.status .noMemory, ?_, iff_of_false (by simp) (by simp [hzero])⟩
    simp only [afterTune, hstruct, hagreed, check, tuneConnection, if_neg hstate, if_pos hzero,
      andThen_error]
  · obtain ⟨buffer, hbuffer⟩ : ∃ buffer, (s.outboundBuffer ++
        List.replicate agreed.frameMax.toNat 0).take agreed.frameMax.toNat = buffer := ⟨_, rfl⟩
    have hlen : buffer.length = agreed.frameMax.toNat := by
      rw [← hbuffer, List.length_take, List.length_append, List.length_replicate]
      omega
    have hlong : ¬ (onZero agreed.toOk).FitsIn buffer.length := by
      rintro ⟨-, hfits⟩
      rw [length_toOk] at hfits
      omega
    have hnamed : (onZero agreed.toOk).payload.Named := trivial
    obtain ⟨x, hsend⟩ := sendFrame_error hnamed hlong
    refine ⟨x, ?_, ?_⟩
    · simp only [afterTune, hstruct, hagreed, check, tuneConnection, if_neg hstate, if_neg hzero,
        hbuffer, andThen_ok, sendMethod]
      rw [onZero] at hsend
      rw [hsend]
      rfl
    · have hroom := sendFrame_undefined_iff (onZero agreed.toOk) buffer
      have htwelve : (onZero agreed.toOk).payload.room = 12 := rfl
      rw [hsend, Except.error.injEq, hlen, htwelve] at hroom
      have hpos : agreed.frameMax.toNat ≠ 0 := by
        intro hnat
        exact hzero (UInt32.toNat_inj.mp (by simpa using hnat))
      rw [hroom]
      omega

/-- What a client asks for: no limit of channels, frames of 4096 bytes, and no heartbeats. -/
def askedLimits : Tune := ⟨0, 4096, 0⟩

/-- A library without texts. -/
def plainLibrary : Library := ⟨ascii "rabbitmq-c", [], [], [], []⟩

/-- What a server starts with. -/
def offeredStart : Start := ⟨0, 9, [], ascii "AMQPLAIN PLAIN", ascii "en_US"⟩

/-- The answer of a client with a name and a password of one byte. -/
def plainStartOk : Method :=
  (StartOk.mk plainLibrary.defaultTable (ascii "PLAIN") [0, 97, 0, 98] (ascii "en_US")).toMethod

/-- The frames behind `connection.start`. -/
def offeredFrames (server : Tune) : List Frame :=
  [⟨0, .heartbeat⟩, onZero server.toMethod, onZero ⟨.connectionOpenOk, ([], ())⟩]

/-- A new client that gets the frames. -/
def newClient (server : Tune) : Client where
  outboundBuffer := List.replicate 512 0
  connection :=
    { inbound := newInbound 65536 fun _ _ => 0
      unread := []
      arriving := (onZero offeredStart.toMethod :: offeredFrames server).map frameBytes
      queue := [] }
  channelMax := 0
  heartbeat := 0

theorem offered_sendable {server : Tune} {limit : ℕ} (hlimit : 64 ≤ limit) :
    ∀ frame ∈ onZero offeredStart.toMethod :: offeredFrames server, frame.Sendable limit := by
  have hstart : (frameBytes (onZero offeredStart.toMethod)).length = 45 := by decide
  have hbeat : (frameBytes ⟨0, .heartbeat⟩).length = 8 := by decide
  have hopen : (frameBytes (onZero ⟨.connectionOpenOk, ([], ())⟩)).length = 13 := by decide
  have htune := length_tune server
  unfold offeredFrames
  rw [List.forall_mem_cons, List.forall_mem_cons, List.forall_mem_cons, List.forall_mem_singleton]
  exact ⟨⟨⟨trivial, trivial, trivial, show 14 < 2 ^ 32 by decide, show 5 < 2 ^ 32 by decide,
      trivial⟩, trivial, ⟨trivial, trivial, ⟨show 0 < 2 ^ 32 by decide, trivial⟩, trivial, trivial,
        trivial⟩, by omega, by omega⟩,
    ⟨trivial, trivial, trivial, by omega, by omega⟩,
    ⟨⟨trivial, trivial, trivial, trivial⟩, trivial, ⟨trivial, trivial, trivial, trivial⟩,
      by omega, by omega⟩,
    ⟨⟨show 0 < 2 ^ 8 by decide, trivial⟩, trivial, ⟨trivial, trivial⟩, by omega, by omega⟩⟩

theorem greeted_newClient (server : Tune) :
    Greeted (newClient server).connection offeredStart (offeredFrames server) where
  new := ⟨fun _ _ => 0, rfl, rfl⟩
  queue := rfl
  stream := by
    rw [List.flatMap_def]
    exact List.nil_append _
  sent := by
    have hmax : (newClient server).connection.inbound.frameMax = 65536 := rfl
    rw [hmax]
    exact offered_sendable (by decide)

theorem answerStart_plain :
    answerStart plainLibrary [] (.plain [97] [98]) offeredStart = .ok plainStartOk := rfl

theorem plainStartOk_fits (server : Tune) :
    (onZero plainStartOk).FitsIn (newClient server).outboundBuffer.length := by
  have hbuffer : (newClient server).outboundBuffer.length = 512 := by
    change (List.replicate 512 (0 : UInt8)).length = 512
    rw [List.length_replicate]
  have hlen : (frameBytes (onZero plainStartOk)).length ≤ 512 := by decide +kernel
  exact ⟨⟨trivial, show 5 < 2 ^ 8 by decide, show 4 < 2 ^ 32 by decide,
    show 5 < 2 ^ 8 by decide, trivial⟩, hlen.trans_eq hbuffer.symm⟩

theorem askedLimits_ok : clientLimits 0 4096 0 = .ok askedLimits := rfl

theorem plain_offeredFrames (server : Tune) : plain (offeredFrames server) =
    [onZero server.toMethod, onZero ⟨.connectionOpenOk, ([], ())⟩] := rfl

/-- A client logs in where the server offers its mechanism and all frames are within the limits
that are agreed to.  It sends the four messages of the handshake; the limits are set; what comes
before the reply is queued, and what comes behind it still comes, under the new limit. -/
theorem login_completes (library : Library) (vhost : Bytes) (channelMax frameMax heartbeat : ℤ)
    (clientProperties : Table) (method : SaslMethod) (s : Client) (client server agreed : Tune)
    (start : Start) (startOk m : Method) (frames before after : List Frame) (reply : Frame)
    (hlimits : clientLimits channelMax frameMax heartbeat = .ok client)
    (hanswer : answerStart library clientProperties method start = .ok startOk)
    (hagreed : negotiate client server = agreed)
    (hgreeted : Greeted s.connection start frames)
    (hpending : plain frames = onZero server.toMethod :: (before ++ reply :: after))
    (hmost : ∀ frame ∈ onZero start.toMethod :: frames,
      (frameBytes frame).length ≤ agreed.frameMax.toNat)
    (hstartOk : (onZero startOk).FitsIn s.outboundBuffer.length)
    (hopen : (onZero (openMethod vhost)).FitsIn agreed.frameMax.toNat)
    (hbefore : ∀ frame ∈ before, frame.reply 0 [.connectionOpenOk] = none)
    (hreply : reply.reply 0 [.connectionOpenOk] = some m) :
    ∃ t, loginInner library vhost channelMax frameMax heartbeat clientProperties method s =
        ([protocolHeader, frameBytes (onZero startOk), frameBytes (onZero agreed.toOk),
            frameBytes (onZero (openMethod vhost))],
          .ok ((replyOf [.connectionOpenOk] m).map fun _ => (), t)) ∧
      t.channelMax = agreed.channelMax.toNat ∧ t.heartbeat = agreed.heartbeat.toNat ∧
      t.outboundBuffer.length = agreed.frameMax.toNat ∧ t.connection.queue = before ∧
      Comes agreed.frameMax.toNat t.connection after none := by
  obtain ⟨t, hlogin, hqueue, hidle, -, hcomes⟩ :=
    loginInner_start vhost hlimits hanswer hgreeted hpending hstartOk
  have htune : onZero server.toMethod ∈ frames := by
    have hmem : onZero server.toMethod ∈ plain frames := by simp [hpending]
    exact (List.mem_filter.mp hmem).1
  have hroom : 20 ≤ agreed.frameMax.toNat :=
    length_tune server ▸ hmost _ (List.mem_cons_of_mem _ htune)
  obtain ⟨t', hafter, hlater⟩ :=
    afterTune_ok hagreed hqueue hidle (hcomes _ hmost) hroom hopen hbefore hreply
  exact ⟨t', by rw [hlogin, andThen_ok, hafter]; rfl, hlater⟩

/-- A login with `PLAIN`, where each side limits something. -/
theorem login_completes_plain :
    ∃ t, loginInner plainLibrary [47] 0 4096 0 [] (.plain [97] [98])
          (newClient ⟨2047, 131072, 60⟩) =
        ([protocolHeader, frameBytes (onZero plainStartOk),
            frameBytes (onZero (Tune.mk 2047 4096 0).toOk),
            frameBytes (onZero (openMethod [47]))], .ok (.normal (), t)) ∧
      t.channelMax = 2047 := by
  have hagreed : negotiate askedLimits ⟨2047, 131072, 60⟩ = ⟨2047, 4096, 0⟩ := rfl
  have hopen : (onZero (openMethod [47])).FitsIn (Tune.mk 2047 4096 0).frameMax.toNat :=
    ⟨⟨show 1 < 2 ^ 8 by decide, show 0 < 2 ^ 8 by decide, trivial, trivial⟩, by decide⟩
  have hmost : ∀ frame ∈ onZero offeredStart.toMethod :: offeredFrames ⟨2047, 131072, 60⟩,
      (frameBytes frame).length ≤ (Tune.mk 2047 4096 0).frameMax.toNat :=
    fun frame hframe => (offered_sendable (show 64 ≤ 4096 by decide) frame hframe).most
  obtain ⟨t, hlogin, hmax, -⟩ := login_completes plainLibrary [47] 0 4096 0 [] (.plain [97] [98])
    (newClient ⟨2047, 131072, 60⟩) askedLimits ⟨2047, 131072, 60⟩ _ offeredStart plainStartOk
    ⟨.connectionOpenOk, ([], ())⟩ (offeredFrames ⟨2047, 131072, 60⟩) [] []
    (onZero ⟨.connectionOpenOk, ([], ())⟩) askedLimits_ok answerStart_plain hagreed
    (greeted_newClient _) (plain_offeredFrames _) hmost
    (plainStartOk_fits _) hopen (by simp) rfl
  exact ⟨t, hlogin, hmax⟩

/-- A server that makes the limit less than 20 ends the login with a failure, and one that makes
it less than 12, but not zero, has the client write behind the end of its outbound buffer. -/
theorem login_small (library : Library) (vhost : Bytes) (channelMax frameMax heartbeat : ℤ)
    (clientProperties : Table) (method : SaslMethod) (s : Client) (client server agreed : Tune)
    (start : Start) (startOk : Method) (frames pending : List Frame)
    (hlimits : clientLimits channelMax frameMax heartbeat = .ok client)
    (hanswer : answerStart library clientProperties method start = .ok startOk)
    (hagreed : negotiate client server = agreed)
    (hgreeted : Greeted s.connection start frames)
    (hpending : plain frames = onZero server.toMethod :: pending)
    (hstartOk : (onZero startOk).FitsIn s.outboundBuffer.length)
    (hsmall : agreed.frameMax.toNat < 20) :
    ∃ x, loginInner library vhost channelMax frameMax heartbeat clientProperties method s =
        ([protocolHeader, frameBytes (onZero startOk)], .error x) ∧
      (x = .undefined ↔ 0 < agreed.frameMax.toNat ∧ agreed.frameMax.toNat < 12) := by
  obtain ⟨t, hlogin, -, hidle, -⟩ :=
    loginInner_start vhost hlimits hanswer hgreeted hpending hstartOk
  obtain ⟨x, hafter, hx⟩ := afterTune_small vhost hagreed hidle hsmall
  exact ⟨x, by rw [hlogin, andThen_ok, hafter]; rfl, hx⟩

/-- A server that asks for frames of 11 bytes. -/
theorem login_small_eleven :
    loginInner plainLibrary [47] 0 4096 0 [] (.plain [97] [98]) (newClient ⟨0, 11, 0⟩) =
      ([protocolHeader, frameBytes (onZero plainStartOk)], .error .undefined) := by
  have hagreed : negotiate askedLimits ⟨0, 11, 0⟩ = ⟨65535, 11, 0⟩ := rfl
  obtain ⟨x, hlogin, hx⟩ := login_small plainLibrary [47] 0 4096 0 [] (.plain [97] [98])
    (newClient ⟨0, 11, 0⟩) askedLimits ⟨0, 11, 0⟩ _ offeredStart plainStartOk
    (offeredFrames ⟨0, 11, 0⟩) _ askedLimits_ok answerStart_plain hagreed (greeted_newClient _)
    (plain_offeredFrames _) (plainStartOk_fits _) (by decide)
  rw [hlogin, hx.mpr (by decide)]

end Login

end Amqp
