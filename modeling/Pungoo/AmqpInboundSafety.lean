/-
# When `amqp_handle_input` leaves its buffers

The decoder trusts some of what a peer sends.  A frame is `Unsafe` if its size wraps around, a
method frame has no payload, a content header is shorter than its fixed part, or the flags of
a content header have a third word.  Only such a frame takes a connection to undefined
behaviour, whatever comes before it and however the bytes are divided.
-/
import Pungoo.AmqpDelivery
import Mathlib.Tactic.IntervalCases

namespace Amqp

open Wire Codec Failing Chunks

/-! ## Properties with too many flags -/

/-- The flags go on behind the second word. -/
def ThreeWords (encoded : Bytes) : Prop :=
  6 ≤ encoded.length ∧ ofBe (slice encoded 0 2) % 2 = 1 ∧ ofBe (slice encoded 2 2) % 2 = 1

/-- A word of flags. -/
theorem readWord (s : Buffer) :
    orFail (asStatus (decode16 s)) = if s.offset + 2 ≤ s.encoded.length then
      .ok (UInt16.ofNat (ofBe (slice s.encoded s.offset 2)), s.skip 2)
    else .error (.status .badAmqpData) := by
  unfold decode16 decodeBytes
  split <;> rfl

/-- A word with its lowest bit set says that another follows. -/
theorem and_one_ne_zero_iff (n : ℕ) : UInt16.ofNat n &&& 1 ≠ 0 ↔ n % 2 = 1 := by
  rw [ne_eq, ← UInt16.toNat_inj, UInt16.toNat_and, UInt16.toNat_ofNat']
  simp only [UInt16.reduceToNat, Nat.and_one_is_mod]
  omega

/-- Each of the next words is there and says that another follows, and that one is there. -/
def WordsBeyond : ℕ → Buffer → Prop
  | 0, s => s.offset + 2 ≤ s.encoded.length
  | words + 1, s => s.offset + 2 ≤ s.encoded.length ∧
      ofBe (slice s.encoded s.offset 2) % 2 = 1 ∧ WordsBeyond words (s.skip 2)

/-- The loop over the flag words leaves the buffer exactly where they do not end. -/
theorem decodeFlags_undefined_iff {words i : ℕ} {flags : UInt32} {s : Buffer} :
    decodeFlags words i flags s = .error .undefined ↔ WordsBeyond words s := by
  induction words generalizing i flags s with
  | zero =>
    rw [decodeFlags, readWord, WordsBeyond]
    split
    next hfits => exact ⟨fun _ => hfits, fun _ => rfl⟩
    next hfits => simp [hfits]
  | succ words ih =>
    rw [decodeFlags, readWord, WordsBeyond]
    split
    next hfits =>
      simp only [ok_bind, and_one_ne_zero_iff]
      split
      next hodd => simp [ih, hfits, hodd]
      next hodd => simp [hodd, pure, Except.pure]
    next hfits => simp [hfits]

theorem wordsBeyond_iff (encoded : Bytes) :
    WordsBeyond 2 { encoded := encoded, offset := 0 } ↔ ThreeWords encoded := by
  simp only [WordsBeyond, ThreeWords, Buffer.skip, Nat.zero_add]
  constructor
  · rintro ⟨-, hfirst, -, hsecond, hthird⟩
    exact ⟨hthird, hfirst, hsecond⟩
  · rintro ⟨hthird, hfirst, hsecond⟩
    exact ⟨by omega, hfirst, by omega, hsecond, hthird⟩

/-- `amqp_decode_properties` leaves the buffer exactly where three words go on. -/
theorem decodeProperties_undefined_iff (classId : UInt16) (encoded : Bytes) :
    decodeProperties classId encoded = .error .undefined ↔ ThreeWords encoded := by
  rw [← wordsBeyond_iff, ← @decodeFlags_undefined_iff 2 0 0]
  unfold decodeProperties
  rw [bind_eq_error_iff]
  constructor
  · rintro (h | ⟨⟨flags, s⟩, -, h⟩)
    · exact h
    · simp only at h
      split at h
      next =>
        rcases bind_eq_error_iff.mp h with h | ⟨x, -, h⟩
        · exact absurd h orFail_ne_undefined
        · exact absurd h (by simp [pure, Except.pure])
      next => exact absurd h (by simp)
  · exact .inl

/-! ## Unsafe frames -/

/-- A complete frame that the decoder reads beyond. -/
inductive Unsafe (bytes : Bytes) : Prop
  | emptyMethod (kind : ofBe (slice bytes 0 1) = 1) (empty : (content bytes).length = 0)
  | shortHeader (kind : ofBe (slice bytes 0 1) = 2) (short : (content bytes).length < 12)
  | manyFlags (kind : ofBe (slice bytes 0 1) = 2)
      (flags : ThreeWords ((content bytes).drop 12))

/-- A method is read outside of its frame exactly if the frame has no bytes. -/
theorem parseMethod_undefined_iff (bytes : Bytes) :
    parseMethod bytes = .error .undefined ↔ bytes.length = 0 := by
  unfold parseMethod
  split
  next hempty => exact ⟨fun _ => hempty, fun _ => rfl⟩
  next hempty =>
    simp only [hempty, iff_false]
    split
    next => simp
    next =>
      intro h
      rcases bind_eq_error_iff.mp h with h | ⟨m, -, h⟩
      · exact orFail_ne_undefined h
      · exact absurd h (by simp [pure, Except.pure])

/-- A content header is read outside of its frame if it is shorter than its fixed part, or its flag
words do not end. -/
theorem parseHeader_undefined_iff (bytes : Bytes) :
    parseHeader bytes = .error .undefined ↔ bytes.length < 12 ∨ ThreeWords (bytes.drop 12) := by
  unfold parseHeader
  split
  next hshort => exact ⟨fun _ => .inl hshort, fun _ => rfl⟩
  next hshort =>
    rw [bind_eq_error_iff, decodeProperties_undefined_iff]
    simp [hshort, pure, Except.pure]

/-- The frames that are read outside of their bytes. -/
theorem parsePayload_undefined_iff (frameType : ℕ) (bytes : Bytes) :
    parsePayload frameType bytes = .error .undefined ↔
      frameType = 1 ∧ bytes.length = 0 ∨
        frameType = 2 ∧ (bytes.length < 12 ∨ ThreeWords (bytes.drop 12)) := by
  match frameType with
  | 1 => simpa [parsePayload] using parseMethod_undefined_iff bytes
  | 2 => simpa [parsePayload] using parseHeader_undefined_iff bytes
  | 0 | 3 | 4 | 5 | 6 | 7 | 8 | _ + 9 => simp [parsePayload]

/-- Decoding a frame goes wrong exactly for an unsafe frame. -/
theorem parseFrame_undefined_iff (bytes : Bytes) :
    parseFrame bytes = .error .undefined ↔
      slice bytes (bytes.length - 1) 1 = [frameEnd] ∧ Unsafe bytes := by
  unfold parseFrame
  split
  next hend => simp [hend]
  next hend =>
    rw [not_not] at hend
    rw [bind_eq_error_iff, parsePayload_undefined_iff]
    simp only [hend, true_and, pure, Except.pure, reduceCtorEq, and_false, exists_false, or_false]
    constructor
    · rintro (⟨hkind, hempty⟩ | ⟨hkind, hshort | hflags⟩)
      · exact .emptyMethod hkind hempty
      · exact .shortHeader hkind hshort
      · exact .manyFlags hkind hflags
    · rintro (⟨hkind, hempty⟩ | ⟨hkind, hshort⟩ | ⟨hkind, hflags⟩)
      · exact .inl ⟨hkind, hempty⟩
      · exact .inr ⟨hkind, .inl hshort⟩
      · exact .inr ⟨hkind, .inr hflags⟩

/-- The size of a frame wraps around, and is not zero. -/
def Wraps (bytes : Bytes) : Prop :=
  7 ≤ bytes.length ∧ 0 < announced bytes ∧ announced bytes < headerSize + footerSize

/-! ## Runs -/

section Runs

variable {frameMax : ℕ} {p q : Pending} {b : UInt8}

/-- The bytes of the next frame are fewer than are waited for. -/
def Pending.Waiting (frameMax : ℕ) (p : Pending) : Prop :=
  p.bytes.length < p.headLength ∨
    p.Admitted frameMax ∧ p.bytes.length < announced p.bytes

/-- What a step does: it waits for more, it takes a protocol header, it refuses a size, the
size wraps around, or the frame is complete. -/
theorem absorb_cases (hp : p.Waiting frameMax) (b : UInt8) :
    absorb frameMax p b = .ok (none, p.append [b]) ∧ (p.append [b]).Waiting frameMax ∨
      absorb frameMax p b =
        .ok (some (protocolHeaderFrame (p.append [b]).bytes), Pending.idle) ∨
      (∃ e, absorb frameMax p b = .error (.status e)) ∨
      absorb frameMax p b = .error .undefined ∧ Wraps (p.append [b]).bytes ∨
      absorb frameMax p b = (p.append [b]).complete ∧
        (p.append [b]).bytes.length = announced (p.append [b]).bytes := by
  rcases hp with hhead | ⟨hadmitted, hlen⟩
  · have hnext : (p.append [b]).bytes.length = p.bytes.length + 1 := by simp
    have hseven := headLength_le (p := p)
    unfold absorb Pending.accept
    simp only
    split_ifs with hshort hprotocol hbig hzero hleast hmore
    · exact .inl ⟨rfl, .inl hshort⟩
    · exact .inr (.inl rfl)
    · exact .inr (.inr (.inl ⟨_, rfl⟩))
    · exact .inr (.inr (.inl ⟨_, rfl⟩))
    · rw [headLength_append] at hshort
      exact .inr (.inr (.inr (.inl ⟨rfl, by omega, by omega, hleast⟩)))
    · exact .inl ⟨rfl, .inr ⟨⟨by omega, hprotocol, by omega, by omega⟩, hmore⟩⟩
    · rw [headLength_append] at hshort
      simp only [headerSize, footerSize] at hleast
      exact .inr (.inr (.inr (.inr ⟨rfl, by omega⟩)))
  · have hsame : announced (p.append [b]).bytes = announced p.bytes :=
      announced_append (Nat.le_trans headLength_le.1 hadmitted.header) [b]
    rw [absorb_admitted hadmitted, hsame]
    split_ifs with hmore
    · exact .inl ⟨rfl, .inr ⟨hadmitted.append [b], by rw [hsame]; simpa using hmore⟩⟩
    · refine .inr (.inr (.inr (.inr ⟨rfl, ?_⟩)))
      simp only [bytes_append, List.length_append, List.length_singleton]
      omega

/-- Behind a complete frame nothing is pending. -/
theorem complete_eq_ok {o : Option Frame} (h : p.complete = .ok (o, q)) : q = Pending.idle := by
  obtain ⟨frame, -, hpure⟩ := bind_eq_ok_iff.mp h
  exact (Prod.mk.inj (Except.ok.inj hpure)).2.symm

/-- A complete frame is unsafe exactly if its payload is. -/
theorem complete_undefined_iff :
    p.complete = .error .undefined ↔ parseFrame p.received = .error .undefined := by
  unfold Pending.complete
  rw [bind_eq_error_iff]
  simp [pure, Except.pure]

/-- A state in a run: the machine waits for bytes of a frame, which started where an earlier
part of the run ended. -/
structure Within (frameMax : ℕ) (p₀ : Pending) (bs : Bytes) (p : Pending) : Prop where
  waiting : p.Waiting frameMax
  start : ∃ pre q, bs = pre ++ p.bytes ∧ q.bytes = [] ∧ p = q.append p.bytes ∧
    (run (absorb frameMax) p₀ pre).2 = .ok q

/-- The bytes that are pending are the last ones of the stream. -/
theorem within_of_run {p₀ : Pending} (hp₀ : p₀.bytes = []) {bs : Bytes}
    (h : (run (absorb frameMax) p₀ bs).2 = .ok p) : Within frameMax p₀ bs p := by
  have hstart : Within frameMax p₀ [] p₀ := by
    refine ⟨.inl ?_, [], p₀, by rw [hp₀]; rfl, hp₀, by rw [hp₀, append_nil], rfl⟩
    rw [hp₀]
    exact Nat.lt_of_lt_of_le (by decide) headLength_le.1
  refine run_invariant hstart ?_ h
  rintro js t b o u hrun ⟨hwaiting, pre, q, rfl, hq, ht, hpre⟩ hstep
  have hidle : u = Pending.idle → Within frameMax p₀ (pre ++ t.bytes ++ [b]) u := by
    rintro rfl
    exact ⟨.inl (by decide), pre ++ t.bytes ++ [b], Pending.idle, by simp [Pending.idle], rfl, rfl,
      run_concat_ok hrun hstep⟩
  rcases absorb_cases hwaiting b with ⟨h, hnext⟩ | h | ⟨e, h⟩ | ⟨h, -⟩ | ⟨h, -⟩ <;>
    rw [hstep] at h
  · obtain ⟨-, rfl⟩ := Prod.mk.inj (Except.ok.inj h)
    refine ⟨hnext, pre, q, by rw [bytes_append, List.append_assoc], hq, ?_, hpre⟩
    rw [bytes_append, ← append_append, ← ht]
  · obtain ⟨-, rfl⟩ := Prod.mk.inj (Except.ok.inj h)
    exact hidle rfl
  · exact absurd h (by simp)
  · exact absurd h (by simp)
  · exact hidle (complete_eq_ok h.symm)

/-- A run goes wrong only where a frame starts whose size wraps around, or that is unsafe. -/
theorem run_undefined {p₀ : Pending} (hp₀ : p₀.bytes = []) {bs : Bytes}
    (h : (run (absorb frameMax) p₀ bs).2 = .error .undefined) :
    ∃ pre bad rest q, bs = pre ++ bad ++ rest ∧ (run (absorb frameMax) p₀ pre).2 = .ok q ∧
      q.bytes = [] ∧ (Wraps bad ∨ announced bad = bad.length ∧ Unsafe (q.append bad).received) := by
  obtain ⟨js, b, rest, p, rfl, hrun, hstep⟩ := exists_step_of_run_error h
  obtain ⟨hwaiting, pre, q, rfl, hq, hp, hpre⟩ := within_of_run hp₀ hrun
  refine ⟨pre, p.bytes ++ [b], rest, q, by simp, hpre, hq, ?_⟩
  rcases absorb_cases hwaiting b with ⟨h, -⟩ | h | ⟨e, h⟩ | ⟨-, hwraps⟩ | ⟨h, hlen⟩
  · exact absurd (hstep.symm.trans h) (by simp)
  · exact absurd (hstep.symm.trans h) (by simp)
  · exact absurd (hstep.symm.trans h) (by simp)
  · exact .inl hwraps
  · rw [hstep] at h
    have hparse := complete_undefined_iff.mp h.symm
    rw [hp, append_append] at hparse
    exact .inr ⟨hlen.symm, ((parseFrame_undefined_iff _).mp hparse).2⟩

/-- The stream has, at the end of what is handled before, a frame whose size wraps around or that
is unsafe. -/
def Hazard (frameMax : ℕ) (p₀ : Pending) (bs : Bytes) : Prop :=
  ∃ pre bad rest q, bs = pre ++ bad ++ rest ∧ (run (absorb frameMax) p₀ pre).2 = .ok q ∧
    q.bytes = [] ∧ (Wraps bad ∨ announced bad = bad.length ∧ Unsafe (q.append bad).received)

/-- A connection that gets the bytes of a stream in any chunks leaves its buffers only where
the stream has, at the end of what was handled before, a frame whose size wraps around or
that is unsafe. -/
theorem handleInput_safe (frameMax : ℕ) (pool : ℕ → ℕ → UInt8) (cs : List Bytes)
    (h : (feed handleInput (newInbound frameMax pool) cs).2 = .error .undefined) :
    ∃ pre bad rest q, cs.flatten = pre ++ bad ++ rest ∧
      (run (absorb frameMax) (Pending.new (pool 0 7)) pre).2 = .ok q ∧ q.bytes = [] ∧
      (Wraps bad ∨ announced bad = bad.length ∧ Unsafe (q.append bad).received) := by
  apply run_undefined rfl
  by_contra hsafe
  obtain ⟨-, hend⟩ := feed_eq_run (handleInput_follows frameMax) (represents_new frameMax pool)
    hsafe
  rw [h] at hend
  rcases hrun : (run (absorb frameMax) (Pending.new (pool 0 7)) cs.flatten).2 with e | t <;>
    rw [hrun] at hend
  · obtain rfl : Failure.undefined = e := hend
    exact hsafe hrun
  · exact hend.elim

/-- A frame of 2^32 - 1 bytes. -/
theorem handleInput_safe_wraps :
    ∃ pre bad rest q, [(1 : UInt8), 0, 0, 255, 255, 255, 255, 0, 0] = pre ++ bad ++ rest ∧
      (run (absorb 4096) (Pending.new 0) pre).2 = .ok q ∧ q.bytes = [] ∧
      (Wraps bad ∨ announced bad = bad.length ∧ Unsafe (q.append bad).received) :=
  handleInput_safe 4096 (fun _ _ => 0) [[1, 0, 0, 255, 255], [255, 255, 0, 0]] rfl

/-- Whatever a peer sends to a new connection, if no frame has a size that wraps around and none is
unsafe: how the bytes are divided changes neither the frames, nor the failure, nor what of the
next frame is kept. -/
theorem chunks_independent (frameMax : ℕ) (pool : ℕ → ℕ → UInt8) (cs cs' : List Bytes)
    (hflat : cs.flatten = cs'.flatten)
    (hsafe : ¬ Hazard frameMax (Pending.new (pool 0 7)) cs.flatten) :
    (feed handleInput (newInbound frameMax pool) cs).1 =
        (feed handleInput (newInbound frameMax pool) cs').1 ∧
      ((∃ e, (feed handleInput (newInbound frameMax pool) cs).2 = .error e ∧
          (feed handleInput (newInbound frameMax pool) cs').2 = .error e) ∨
        ∃ t t' p, (feed handleInput (newInbound frameMax pool) cs).2 = .ok t ∧
          (feed handleInput (newInbound frameMax pool) cs').2 = .ok t' ∧
          Represents frameMax t p ∧ Represents frameMax t' p) :=
  feed_independent (handleInput_follows frameMax) (represents_new frameMax pool) hflat
    fun h => hsafe (run_undefined rfl h)

/-- The bytes of a heartbeat have no hazard. -/
theorem not_hazard_heartbeat : ¬ Hazard 4096 (Pending.new 0) [8, 0, 0, 0, 0, 0, 0, 206] := by
  rintro ⟨pre, bad, rest, q, hsplit, hrun, hq, hbad⟩
  have hpre : pre = [8, 0, 0, 0, 0, 0, 0, 206].take pre.length := by
    rw [hsplit, List.append_assoc, List.take_left]
  have hbad' : bad = ([8, 0, 0, 0, 0, 0, 0, 206].drop pre.length).take bad.length := by
    rw [hsplit, List.append_assoc, List.drop_left, List.take_left]
  have hlen : pre.length + bad.length ≤ 8 := by
    have h := congrArg List.length hsplit
    simp only [List.length_append, List.length_cons, List.length_nil] at h
    omega
  generalize pre.length = i at *
  generalize bad.length = j at *
  subst hpre hbad'
  have hi : i ≤ 8 := by omega
  have hj : j ≤ 8 := by omega
  -- behind some but not all of the bytes the next frame has begun
  have hend : i = 0 ∨ i = 8 := by
    interval_cases i <;> first
      | exact .inl rfl
      | exact .inr rfl
      | (obtain rfl := Except.ok.inj hrun
         exact absurd hq (List.cons_ne_nil _ _))
  rcases hend with rfl | rfl
  · obtain rfl := Except.ok.inj hrun
    rcases hbad with hwraps | ⟨hsize, hunsafe⟩
    · interval_cases j <;> exact absurd hwraps (by unfold Wraps; decide)
    · have hwhole : j = 8 := by
        interval_cases j <;> first
          | rfl
          | exact absurd hsize (by decide)
      subst hwhole
      rcases hunsafe with ⟨hkind, -⟩ | ⟨hkind, -⟩ | ⟨hkind, -⟩ <;> exact absurd hkind (by decide)
  · obtain rfl : j = 0 := by omega
    rcases hbad with hwraps | ⟨hsize, -⟩
    · exact absurd hwraps (by unfold Wraps; decide)
    · exact absurd hsize (by decide)

/-- A heartbeat in two and in three chunks. -/
theorem chunks_independent_heartbeat :
    (feed handleInput (newInbound 4096 fun _ _ => 0) [[8, 0, 0, 0, 0], [0, 0, 206]]).1 =
      (feed handleInput (newInbound 4096 fun _ _ => 0) [[8], [0, 0, 0], [0, 0, 0, 206]]).1 :=
  (chunks_independent 4096 (fun _ _ => 0) [[8, 0, 0, 0, 0], [0, 0, 206]]
    [[8], [0, 0, 0], [0, 0, 0, 206]] rfl not_hazard_heartbeat).1

end Runs

end Amqp
