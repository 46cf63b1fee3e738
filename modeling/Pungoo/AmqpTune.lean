/-
# A change of `frame_max`

`amqp_handle_input` compares the size of a frame with `frame_max` and does nothing else with
it.  So input that is handled under one limit is handled under another in the same way, or the
other is too low for it.
-/
import Pungoo.AmqpQueue

namespace Amqp

open Wire Codec Failing Chunks

/-- The state with another limit. -/
def Inbound.within (frameMax : ℕ) (s : Inbound) : Inbound := { s with frameMax := frameMax }

/-- The connection with another limit. -/
def Connection.within (frameMax : ℕ) (c : Connection) : Connection :=
  { c with inbound := c.inbound.within frameMax }

section Inbound

variable {n m : ℕ} {s t : Inbound} {data : Bytes}

/-- Copying data does not look at `frame_max`. -/
theorem consumeData_within (frameMax : ℕ) (s : Inbound) (data : Bytes) :
    consumeData (s.within frameMax) data =
      (consumeData s data).map fun (n, t) => (n, t.within frameMax) := by
  obtain ⟨state, max, header, block, offset, target, pool⟩ := s
  simp only [consumeData, Inbound.within]
  have hbuffer : Inbound.inboundBuffer ⟨state, frameMax, header, block, offset, target, pool⟩ =
      Inbound.inboundBuffer ⟨state, max, header, block, offset, target, pool⟩ := rfl
  rw [hbuffer]
  rcases poke offset _ _ with _ | bytes
  · rfl
  · cases state <;> rfl

/-- The body stage does not look at `frame_max`. -/
theorem handleBody_within (frameMax : ℕ) (s : Inbound) (n : ℕ) :
    handleBody (s.within frameMax) n =
      (handleBody s n).map fun (n, o, t) => (n, o, t.within frameMax) := by
  simp only [handleBody, Inbound.within]
  rcases peek (s.targetSize - 1) 1 s.block with _ | footer
  · rfl
  · simp only [ok_bind]
    split
    · rfl
    · rcases peek 0 1 s.block with _ | frameType
      · rfl
      · rcases peek 1 2 s.block with _ | channel
        · rfl
        · simp only [ok_bind]
          rcases decodeFramePayload frameType s.targetSize s.block with _ | payload <;> rfl

/-- What a call under one limit returns is returned under another, or the frame is too large. -/
def Alike (frameMax : ℕ) (x y : Except Failure (ℕ × Option Frame × Inbound)) : Prop :=
  y = x.map (fun (n, o, t) => (n, o, t.within frameMax)) ∨ y = .error (.status .badAmqpData) ∨
    ∃ e, x = .error e

/-- The frame of an announced size is collected in a new block. -/
theorem handleHeader_eq {size target : ℕ} (hpeek : peek 3 4 s.headerBuffer = .ok size)
    (htarget : (size + headerSize + footerSize) % 2 ^ 32 = target) :
    handleHeader s n data =
      if s.frameMax < target then .error (.status .badAmqpData)
      else if target = 0 then .error (.status .noMemory)
      else
        poke 0 (s.headerBuffer.take headerSize)
          ((List.range (blockSize target)).map (s.pool 0)) >>= fun block =>
        consumeData { s with
          state := .body, targetSize := target, block := block,
          pool := fun k => s.pool (k + 1) } data >>= fun x =>
        if x.2.inboundOffset < x.2.targetSize then pure (n + x.1, none, x.2)
        else handleBody x.2 (n + x.1) := by
  unfold handleHeader
  rw [hpeek, ok_bind]
  simp only [htarget]

/-- Only the header stage does, and with the same effect while frames are within it. -/
theorem handleHeader_within (frameMax : ℕ) (s : Inbound) (n : ℕ) (data : Bytes) :
    Alike frameMax (handleHeader s n data) (handleHeader (s.within frameMax) n data) := by
  have hheader : (s.within frameMax).headerBuffer = s.headerBuffer := rfl
  have hpool : (s.within frameMax).pool = s.pool := rfl
  rcases hpeek : peek 3 4 s.headerBuffer with e | size
  · refine .inr (.inr ⟨e, ?_⟩)
    unfold handleHeader
    rw [hpeek, error_bind]
  · obtain ⟨target, htarget⟩ : ∃ target, (size + headerSize + footerSize) % 2 ^ 32 = target :=
      ⟨_, rfl⟩
    rw [handleHeader_eq hpeek htarget, handleHeader_eq (hheader ▸ hpeek) htarget, hheader, hpool]
    by_cases hlarge : s.frameMax < target
    · exact .inr (.inr ⟨_, if_pos hlarge⟩)
    by_cases hlarge' : (s.within frameMax).frameMax < target
    · exact .inr (.inl (if_pos hlarge'))
    rw [if_neg hlarge, if_neg hlarge']
    refine .inl ?_
    split
    · rfl
    rcases poke 0 _ _ with _ | block
    · simp only [error_bind, Except.map]
    have hconsume := consumeData_within frameMax { s with
      state := .body, targetSize := target, block := block,
      pool := fun k => s.pool (k + 1) } data
    rw [ok_bind, ok_bind]
    refine (congrArg (· >>= _) hconsume).trans ?_
    rcases consumeData _ data with _ | ⟨more, t⟩
    · simp only [error_bind, Except.map]
    · simp only [Except.map, ok_bind, handleBody_within]
      have hoffset : (t.within frameMax).inboundOffset = t.inboundOffset := rfl
      have htarget : (t.within frameMax).targetSize = t.targetSize := rfl
      rw [hoffset, htarget]
      split <;> rfl

/-- Input is handled alike. -/
theorem handleInput_within (frameMax : ℕ) (s : Inbound) (data : Bytes) :
    Alike frameMax (handleInput s data) (handleInput (s.within frameMax) data) := by
  unfold handleInput
  split
  · exact .inl rfl
  · have hstart : (if (s.within frameMax).state = .idle then
        { s.within frameMax with state := .header } else s.within frameMax) =
        Inbound.within frameMax (if s.state = .idle then { s with state := .header } else s) := by
      have hstate : (s.within frameMax).state = s.state := rfl
      rw [hstate]
      split <;> rfl
    rw [hstart]
    generalize (if s.state = .idle then { s with state := .header } else s) = s'
    simp only [consumeData_within]
    rcases consumeData s' data with _ | ⟨n, t⟩
    · exact .inl rfl
    · simp only [Except.map, ok_bind]
      have hoffset : (t.within frameMax).inboundOffset = t.inboundOffset := rfl
      have htarget : (t.within frameMax).targetSize = t.targetSize := rfl
      have hstate : (t.within frameMax).state = t.state := rfl
      have hheader : (t.within frameMax).headerBuffer = t.headerBuffer := rfl
      rw [hoffset, htarget, hstate, hheader]
      split
      · exact .inl rfl
      · split
        · split
          · refine .inl ?_
            rcases peek 4 1 t.headerBuffer with _ | a
            · rfl
            · rcases peek 5 1 t.headerBuffer with _ | b
              · rfl
              · rcases peek 6 1 t.headerBuffer with _ | c
                · rfl
                · rcases peek 7 1 t.headerBuffer with _ | d <;> rfl
          · exact handleHeader_within frameMax t n _
        · exact handleHeader_within frameMax t n _
        · exact .inl (handleBody_within frameMax t n)
        · exact .inl rfl

/-- Behind a frame the connection is between two frames. -/
theorem handleBody_idle {frame : Frame} (h : handleBody s n = .ok (m, some frame, t)) :
    t.state = .idle := by
  obtain ⟨footer, -, h⟩ := bind_eq_ok_iff.mp h
  split at h
  · exact absurd h (by simp)
  · obtain ⟨frameType, -, h⟩ := bind_eq_ok_iff.mp h
    obtain ⟨channel, -, h⟩ := bind_eq_ok_iff.mp h
    obtain ⟨payload, -, h⟩ := bind_eq_ok_iff.mp h
    obtain ⟨-, hrest⟩ := Prod.mk.inj (Except.ok.inj h)
    obtain ⟨-, rfl⟩ := Prod.mk.inj hrest
    rfl

/-- A frame from the header stage leaves the connection between two frames. -/
theorem handleHeader_idle {frame : Frame} (h : handleHeader s n data = .ok (m, some frame, t)) :
    t.state = .idle := by
  obtain ⟨size, hpeek, -⟩ := bind_eq_ok_iff.mp h
  rw [handleHeader_eq hpeek rfl] at h
  split at h
  · exact absurd h (by simp)
  split at h
  · exact absurd h (by simp)
  obtain ⟨block, -, h⟩ := bind_eq_ok_iff.mp h
  obtain ⟨x, -, h⟩ := bind_eq_ok_iff.mp h
  split at h
  · exact absurd h (by simp [pure, Except.pure])
  · exact handleBody_idle h

/-- A frame leaves the connection between two frames. -/
theorem handleInput_idle {frame : Frame} (h : handleInput s data = .ok (m, some frame, t)) :
    t.state = .idle := by
  unfold handleInput at h
  split at h
  · exact absurd h (by simp)
  obtain ⟨⟨n, s'⟩, -, h⟩ := bind_eq_ok_iff.mp h
  simp only at h
  split at h
  · exact absurd h (by simp [pure, Except.pure])
  split at h
  · split at h
    · obtain ⟨transportHigh, -, h⟩ := bind_eq_ok_iff.mp h
      obtain ⟨transportLow, -, h⟩ := bind_eq_ok_iff.mp h
      obtain ⟨major, -, h⟩ := bind_eq_ok_iff.mp h
      obtain ⟨minor, -, h⟩ := bind_eq_ok_iff.mp h
      obtain ⟨-, hrest⟩ := Prod.mk.inj (Except.ok.inj h)
      obtain ⟨-, rfl⟩ := Prod.mk.inj hrest
      rfl
    · exact handleHeader_idle h
  · exact handleHeader_idle h
  · exact handleBody_idle h
  · exact absurd h (by simp)

end Inbound

/-! ## Waiting -/

section Waiting

variable {α : Type} {frameMax fuel : ℕ} {c d : Connection}

/-- What a wait returns under one limit it returns under the other, or a frame is too large. -/
def Unchanged (frameMax : ℕ) (x y : Except Failure (α × Connection)) : Prop :=
  ∀ a d, x = .ok (a, d) → y = .ok (a, d.within frameMax) ∨ y = .error (.status .badAmqpData)

/-- One frame is the same under the new `frame_max`. -/
theorem consumeOneFrame_within (frameMax : ℕ) (c : Connection) :
    Unchanged frameMax (consumeOneFrame c) (consumeOneFrame (c.within frameMax)) := by
  intro o d h
  obtain ⟨⟨n, o', t⟩, hhandle, hpure⟩ := bind_eq_ok_iff.mp h
  obtain ⟨rfl, rfl⟩ := Prod.mk.inj (Except.ok.inj hpure)
  have hsplit : consumeOneFrame (c.within frameMax) =
      handleInput (c.inbound.within frameMax) c.unread >>= fun x =>
        pure (x.2.1, { c with inbound := x.2.2, unread := c.unread.drop x.1 }) := rfl
  rcases handleInput_within frameMax c.inbound c.unread with halike | hbad | ⟨e, herr⟩
  · rw [hsplit, halike, hhandle]
    exact .inl rfl
  · rw [hsplit, hbad]
    exact .inr rfl
  · rw [hhandle] at herr
    exact absurd herr (by simp)

/-- So is the next one in the socket buffer. -/
theorem waitInBuffer_within (frameMax fuel : ℕ) (c : Connection) :
    Unchanged frameMax (waitInBuffer fuel c) (waitInBuffer fuel (c.within frameMax)) := by
  induction fuel generalizing c with
  | zero =>
    intro o d h
    obtain ⟨rfl, rfl⟩ := Prod.mk.inj (Except.ok.inj h)
    exact .inl rfl
  | succ fuel ih =>
    intro o d h
    unfold waitInBuffer at h ⊢
    have hunread : (c.within frameMax).unread = c.unread := rfl
    rw [hunread]
    split at h
    next hnil =>
      obtain ⟨rfl, rfl⟩ := Prod.mk.inj (Except.ok.inj h)
      exact .inl (if_pos hnil)
    next hne =>
      rw [if_neg hne]
      obtain ⟨⟨frame, c'⟩, hconsume, h⟩ := bind_eq_ok_iff.mp h
      rcases consumeOneFrame_within frameMax c frame c' hconsume with hok | hbad
      · rw [hok, ok_bind]
        cases frame with
        | none => exact ih c' o d h
        | some frame =>
          simp only at h ⊢
          split at h
          next hbeat =>
            rw [if_pos hbeat]
            exact ih c' o d h
          next hbeat =>
            rw [if_neg hbeat]
            obtain ⟨rfl, rfl⟩ := Prod.mk.inj (Except.ok.inj h)
            exact .inl rfl
      · rw [hbad]
        exact .inr rfl

/-- And the next one that a wait finds. -/
theorem waitLoop_within (frameMax fuel : ℕ) (c : Connection) :
    Unchanged frameMax (waitLoop fuel c) (waitLoop fuel (c.within frameMax)) := by
  induction fuel generalizing c with
  | zero => exact fun _ _ h => absurd h (by simp [waitLoop])
  | succ fuel ih =>
    intro frame d h
    unfold waitLoop at h ⊢
    have hunread : (c.within frameMax).unread = c.unread := rfl
    rw [hunread]
    obtain ⟨⟨o, c'⟩, hbuffer, h⟩ := bind_eq_ok_iff.mp h
    rcases waitInBuffer_within frameMax _ c o c' hbuffer with hok | hbad
    · rw [hok, ok_bind]
      cases o with
      | some first =>
        obtain ⟨rfl, rfl⟩ := Prod.mk.inj (Except.ok.inj h)
        exact .inl rfl
      | none =>
        obtain ⟨c'', hrecv, h⟩ := bind_eq_ok_iff.mp h
        have hrecv' : recvWithTimeout (c'.within frameMax) = .ok (c''.within frameMax) := by
          unfold recvWithTimeout at hrecv ⊢
          have harriving : (c'.within frameMax).arriving = c'.arriving := rfl
          rw [harriving]
          split at hrecv
          next => exact absurd hrecv (by simp)
          next =>
            obtain rfl := Except.ok.inj hrecv
            rfl
        simp only [hrecv', ok_bind]
        exact ih c'' frame d h
    · rw [hbad]
      exact .inr rfl

/-- A frame that a wait returns is returned under another limit, or that is too low. -/
theorem waitFrameInner_within (frameMax : ℕ) (c : Connection) :
    Unchanged frameMax (waitFrameInner c) (waitFrameInner (c.within frameMax)) :=
  waitLoop_within frameMax (c.arriving.length + 1) c

/-- A frame from the socket buffer leaves the connection between two frames. -/
theorem waitInBuffer_idle {frame : Frame} (h : waitInBuffer fuel c = .ok (some frame, d)) :
    d.inbound.state = .idle := by
  induction fuel generalizing c with
  | zero => exact absurd h (by simp [waitInBuffer])
  | succ fuel ih =>
    unfold waitInBuffer at h
    split at h
    next => exact absurd h (by simp)
    next =>
      obtain ⟨⟨o, c'⟩, hconsume, h⟩ := bind_eq_ok_iff.mp h
      cases o with
      | none => exact ih h
      | some first =>
        simp only at h
        split at h
        next => exact ih h
        next =>
          obtain ⟨-, rfl⟩ := Prod.mk.inj (Except.ok.inj h)
          obtain ⟨⟨n, o', t⟩, hhandle, hpure⟩ := bind_eq_ok_iff.mp hconsume
          obtain ⟨rfl, rfl⟩ := Prod.mk.inj (Except.ok.inj hpure)
          exact handleInput_idle hhandle

/-- So does a frame that a wait finds. -/
theorem waitLoop_idle {frame : Frame} (h : waitLoop fuel c = .ok (frame, d)) :
    d.inbound.state = .idle := by
  induction fuel generalizing c with
  | zero => exact absurd h (by simp [waitLoop])
  | succ fuel ih =>
    obtain ⟨⟨o, c'⟩, hbuffer, h⟩ := bind_eq_ok_iff.mp h
    cases o with
    | some first =>
      obtain ⟨-, rfl⟩ := Prod.mk.inj (Except.ok.inj h)
      exact waitInBuffer_idle hbuffer
    | none =>
      obtain ⟨c'', -, h⟩ := bind_eq_ok_iff.mp h
      exact ih h

/-- A wait that returns a frame leaves the connection between two frames. -/
theorem waitFrameInner_idle {frame : Frame} (h : waitFrameInner c = .ok (frame, d)) :
    d.inbound.state = .idle := waitLoop_idle h

/-- What comes under another limit still comes under it after a wait. -/
theorem Comes.within {first : Frame} {rest : List Frame} {e : Option Failure}
    (hwait : waitFrameInner c = .ok (first, d))
    (h : Comes frameMax (c.within frameMax) (first :: rest) e) :
    Comes frameMax (d.within frameMax) rest e := by
  obtain ⟨d', hwait', -, hd', -⟩ := h.wait
  rcases waitFrameInner_within frameMax c first d hwait with hok | hbad
  · rw [hok] at hwait'
    obtain ⟨-, rfl⟩ := Prod.mk.inj (Except.ok.inj hwait')
    exact hd'
  · rw [hbad] at hwait'
    exact absurd hwait' (by simp)

end Waiting

end Amqp
