/-
# Which streams a `disk_t` uses, and which it leaves open

Three phases describe `handle_` (`Phase`): no stream, an open stream, and a stream whose
`fclose` reported an error; it is no longer open, but `handle_` still points to it.  The
phase follows from the calls and their outcomes alone (`inPhase_after`).

* `uses_open_streams_iff` : every `stdio` call is on an open stream exactly for the runs
  whose calls the phases accept.
* `never_loses_iff` : no stream is lost exactly for the runs that do not open an open
  file.
-/
import Pungoo.Disk
import Mathlib.Data.Finset.Card
import Mathlib.Data.List.Induction

namespace Disk

open Stdio Run

/-! ## The loops stay on their stream -/

theorem readCalls_on {handle : Option Stream} {count : ℕ} {data : List UInt8} {err : ℤ}
    {eof : Bool} : ∀ c ∈ readCalls handle count data err eof, c.On handle := by
  intro c hc
  simp only [readCalls, List.mem_append] at hc
  rcases hc with (hc | hc) | hc
  · rcases List.mem_cons.mp hc with rfl | hc
    · rfl
    · rw [List.mem_singleton.mp hc]
      rfl
  · split_ifs at hc
    · rw [List.mem_singleton.mp hc]
      rfl
    · exact absurd hc List.not_mem_nil
  · split_ifs at hc
    · rw [List.mem_singleton.mp hc]
      rfl
    · exact absurd hc List.not_mem_nil

theorem writeCalls_on {handle : Option Stream} {data : List UInt8} {n : ℕ} {err : ℤ} :
    ∀ c ∈ writeCalls handle data n err, c.On handle := by
  intro c hc
  simp only [writeCalls, List.mem_append] at hc
  rcases hc with ((hc | hc) | hc) | hc
  · rw [List.mem_singleton.mp hc]
    rfl
  all_goals
    split_ifs at hc
    · rw [List.mem_singleton.mp hc]
      rfl
    · exact absurd hc List.not_mem_nil

/-- The read loop calls only on its handle. -/
theorem readLoop_on (io : ReadIo) (handle : Option Stream) (len : ℤ) (k readLen retry : ℕ)
    (buf : List UInt8) : ∀ c ∈ (readLoop io handle len k readLen retry buf).2.2, c.On handle := by
  fun_induction readLoop io handle len k readLen retry buf with
  | case1 => exact readCalls_on
  | case2 => exact readCalls_on
  | case3 =>
    rename_i heq ih
    rw [heq] at ih
    exact List.forall_mem_append.mpr ⟨readCalls_on, ih⟩
  | case4 => exact readCalls_on
  | case5 =>
    rename_i heq ih
    rw [heq] at ih
    exact List.forall_mem_append.mpr ⟨readCalls_on, ih⟩
  | case6 => exact fun c hc => absurd hc List.not_mem_nil

/-- The write loop calls only on its handle. -/
theorem writeLoop_on (io : WriteIo) (handle : Option Stream) (buf : List UInt8) (len : ℤ)
    (k writeLen retry : ℕ) :
    ∀ c ∈ (writeLoop io handle buf len k writeLen retry).2, c.On handle := by
  fun_induction writeLoop io handle buf len k writeLen retry with
  | case1 => exact writeCalls_on
  | case2 =>
    rename_i heq ih
    rw [heq] at ih
    exact List.forall_mem_append.mpr ⟨writeCalls_on, ih⟩
  | case3 => exact writeCalls_on
  | case4 =>
    rename_i heq ih
    rw [heq] at ih
    exact List.forall_mem_append.mpr ⟨writeCalls_on, ih⟩
  | case5 => exact fun c hc => absurd hc List.not_mem_nil

/-- A read loop that is not done calls the library. -/
theorem readLoop_calls_ne_nil (io : ReadIo) (handle : Option Stream) {len : ℤ} {readLen : ℕ}
    (k retry : ℕ) (buf : List UInt8) (h : readLen < len) :
    (readLoop io handle len k readLen retry buf).2.2 ≠ [] := by
  rw [readLoop, if_pos h]
  dsimp only
  split_ifs <;> exact List.cons_ne_nil _ _

/-- A read loop that is done calls nothing. -/
theorem readLoop_of_le (io : ReadIo) (handle : Option Stream) {len : ℤ} {readLen : ℕ}
    (k retry : ℕ) (buf : List UInt8) (h : len ≤ readLen) :
    readLoop io handle len k readLen retry buf = ((readLen : ℤ), buf, []) := by
  rw [readLoop, if_neg (by omega)]

/-- A write loop that is not done calls the library. -/
theorem writeLoop_calls_ne_nil (io : WriteIo) (handle : Option Stream) (buf : List UInt8)
    {len : ℤ} {writeLen : ℕ} (k retry : ℕ) (h : writeLen < len) :
    (writeLoop io handle buf len k writeLen retry).2 ≠ [] := by
  rw [writeLoop, if_pos h]
  dsimp only
  split_ifs <;> exact List.cons_ne_nil _ _

/-- A write loop that is done calls nothing. -/
theorem writeLoop_of_le (io : WriteIo) (handle : Option Stream) (buf : List UInt8) {len : ℤ}
    {writeLen : ℕ} (k retry : ℕ) (h : len ≤ writeLen) :
    writeLoop io handle buf len k writeLen retry = ((writeLen : ℤ), []) := by
  rw [writeLoop, if_neg (by omega)]

/-! ## Reading, writing and seeking -/

/-- The operations that use the file without opening or closing it. -/
def Op.Transfers : Op → Prop
  | .fileOpen _ | .fileClose _ => False
  | .fileRead _ _ _ | .fileWrite _ _ _ | .fileSeek _ _ => True

variable {s : Session} {disk : DiskT} {op : Op}

/-- The calls of a transfer are on `handle_`. -/
theorem step_calls_on (hs : s.disk = some disk) (hop : op.Transfers) :
    ∀ c ∈ (step s op).1.calls, c.On disk.handle_ := by
  cases op with
  | fileOpen => exact hop.elim
  | fileClose => exact hop.elim
  | fileRead io buf len =>
    unfold step
    rw [hs]
    exact readLoop_on io disk.handle_ len 0 0 0 buf
  | fileWrite io buf len =>
    unfold step
    rw [hs]
    exact writeLoop_on io disk.handle_ buf len 0 0 0
  | fileSeek fseek offset =>
    unfold step
    rw [hs]
    intro c hc
    rw [List.mem_singleton.mp hc]
    rfl

/-- A transfer changes neither the object nor the streams. -/
theorem step_of_transfers (hs : s.disk = some disk) (hop : op.Transfers) :
    (step s op).2 = s := by
  have hon := step_calls_on hs hop
  cases op with
  | fileOpen => exact hop.elim
  | fileClose => exact hop.elim
  | fileRead io buf len =>
    show Session.mk s.disk (s.streams.run (step s (.fileRead io buf len)).1.calls) = s
    rw [Streams.run_of_on hon]
  | fileWrite io buf len =>
    show Session.mk s.disk (s.streams.run (step s (.fileWrite io buf len)).1.calls) = s
    rw [Streams.run_of_on hon]
  | fileSeek fseek offset =>
    show Session.mk s.disk (s.streams.run (step s (.fileSeek fseek offset)).1.calls) = s
    rw [Streams.run_of_on hon]

/-- A transfer that makes no call returns a length, not an error. -/
theorem step_ret_of_no_calls (hs : s.disk = some disk) (hop : op.Transfers)
    (h : (step s op).1.calls = []) : (step s op).1.ret = 0 := by
  cases op with
  | fileOpen => exact hop.elim
  | fileClose => exact hop.elim
  | fileRead io buf len =>
    rw [step, hs] at h ⊢
    by_cases hlen : ((0 : ℕ) : ℤ) < len
    · exact absurd h (readLoop_calls_ne_nil io disk.handle_ 0 0 buf hlen)
    · show (readLoop io disk.handle_ len 0 0 0 buf).1 = 0
      rw [readLoop_of_le io disk.handle_ 0 0 buf (not_lt.mp hlen)]
      rfl
  | fileWrite io buf len =>
    rw [step, hs] at h ⊢
    by_cases hlen : ((0 : ℕ) : ℤ) < len
    · exact absurd h (writeLoop_calls_ne_nil io disk.handle_ buf 0 0 hlen)
    · show (writeLoop io disk.handle_ buf len 0 0 0).1 = 0
      rw [writeLoop_of_le io disk.handle_ buf 0 0 (not_lt.mp hlen)]
      rfl
  | fileSeek fseek offset =>
    unfold step at h
    rw [hs] at h
    exact absurd h (List.cons_ne_nil _ _)

/-! ## Phases -/

/-- What the calls so far have done to the file. -/
inductive Phase
  | closed
  | opened
  | closeFailed
  deriving DecidableEq, Repr

/-- The phase after a call; only the outcomes of `fopen` and `fclose` matter. -/
def Phase.next : Phase → Op → Phase
  | _, .fileOpen fopen => if fopen then .opened else .closed
  | .closed, .fileClose _ => .closed
  | _, .fileClose fclose => if fclose = 0 then .closed else .closeFailed
  | p, _ => p

/-- The phase after a sequence of calls on a new object. -/
def phaseAfter (ops : List Op) : Phase := ops.foldl Phase.next .closed

/-- The calls that are in order in a phase. -/
def Phase.Accepts : Phase → Op → Prop
  | .closed, op => ¬ op.Transfers
  | .opened, _ => True
  | .closeFailed, op => ∃ fopen, op = .fileOpen fopen

/-- The object of the session is in the phase `p`. -/
def InPhase (s : Session) (p : Phase) : Prop :=
  ∃ disk, s.disk = some disk ∧
    match p with
    | .closed => disk.handle_ = none
    | .opened => s.streams.IsOpen disk.handle_
    | .closeFailed => disk.handle_ ≠ none ∧ ¬ s.streams.IsOpen disk.handle_

theorem Phase.next_of_transfers (p : Phase) (hop : op.Transfers) : p.next op = p := by
  cases op with
  | fileOpen => exact hop.elim
  | fileClose => exact hop.elim
  | fileRead | fileWrite | fileSeek => cases p <;> rfl

/-! ### The effect of opening and closing -/

/-- An open that succeeds. -/
theorem step_open (hs : s.disk = some disk) :
    step s (.fileOpen true) = (⟨0, [.fopen disk.filename_ disk.mode (some s.streams.next)]⟩,
      ⟨some { disk with handle_ := some s.streams.next },
        s.streams.step (.fopen disk.filename_ disk.mode (some s.streams.next))⟩) := by
  unfold step
  rw [hs]
  rfl

/-- An open that fails leaves no stream. -/
theorem step_open_failed (hs : s.disk = some disk) :
    step s (.fileOpen false) = (⟨-1, [.fopen disk.filename_ disk.mode none]⟩,
      ⟨some { disk with handle_ := none }, s.streams⟩) := by
  unfold step
  rw [hs]
  rfl

/-- A close without a stream calls nothing. -/
theorem step_close_none (hs : s.disk = some disk) (hh : disk.handle_ = none) (fclose : ℤ) :
    step s (.fileClose fclose) = (⟨-1, []⟩, s) := by
  rw [step, hs, diskTFileClose, hh]
  obtain ⟨_, _⟩ := s
  rw [← hs]
  rfl

/-- A close of a stream. -/
theorem step_close_some {t : Stream} (hs : s.disk = some disk) (hh : disk.handle_ = some t)
    (fclose : ℤ) : step s (.fileClose fclose) =
      (⟨if fclose = 0 then 0 else -1, [.fclose (some t) fclose]⟩,
        ⟨some (if fclose = 0 then { disk with handle_ := none } else disk),
          s.streams.step (.fclose (some t) fclose)⟩) := by
  rw [step, hs, diskTFileClose, hh]
  dsimp only
  by_cases hzero : fclose = 0
  · rw [if_neg (not_not.mpr hzero), if_pos hzero, if_pos hzero]
    rfl
  · rw [if_pos hzero, if_neg hzero, if_neg hzero]
    rfl

/-- Every call moves the object to the next phase. -/
theorem inPhase_step {p : Phase} (h : InPhase s p) (op : Op) :
    InPhase (step s op).2 (p.next op) := by
  obtain ⟨disk, hs, hp⟩ := h
  by_cases hop : op.Transfers
  · rw [step_of_transfers hs hop, Phase.next_of_transfers p hop]
    exact ⟨disk, hs, hp⟩
  cases op with
  | fileOpen fopen =>
    cases fopen with
    | true =>
      have hnext : p.next (.fileOpen true) = .opened := by cases p <;> rfl
      rw [step_open hs, hnext]
      exact ⟨_, rfl, Streams.isOpen_some.mpr (Finset.mem_insert_self _ _)⟩
    | false =>
      -- `handle_` is overwritten also by a failed `fopen`
      have hnext : p.next (.fileOpen false) = .closed := by cases p <;> rfl
      rw [step_open_failed hs, hnext]
      exact ⟨_, rfl, rfl⟩
  | fileClose fclose =>
    cases hh : disk.handle_ with
    | none =>
      -- only in the phase `closed`
      have hclosed : p = .closed := by
        cases p with
        | closed => rfl
        | opened => exact absurd (hh ▸ hp) Streams.not_isOpen_none
        | closeFailed => exact absurd hh hp.1
      subst hclosed
      rw [step_close_none hs hh]
      exact ⟨disk, hs, hp⟩
    | some t =>
      have hnext : p.next (.fileClose fclose) = if fclose = 0 then .closed else .closeFailed := by
        cases p with
        | closed => exact absurd (hh.symm.trans hp) (Option.some_ne_none t)
        | opened | closeFailed => rfl
      rw [step_close_some hs hh, hnext]
      -- in both cases the stream is dead; only a reported success forgets it
      by_cases hzero : fclose = 0
      · rw [if_pos hzero, if_pos hzero, if_pos hzero]
        exact ⟨_, rfl, rfl⟩
      · rw [if_neg hzero, if_neg hzero, if_neg hzero]
        refine ⟨disk, rfl, ?_, ?_⟩
        · rw [hh]
          exact Option.some_ne_none t
        · rw [hh, Streams.isOpen_some]
          exact Finset.notMem_erase t _
  | fileRead | fileWrite | fileSeek => exact absurd trivial hop

/-- A new object has no stream. -/
theorem inPhase_start {filename : Option (List UInt8)} {flag : ℤ} {malloc : Bool}
    (h : diskTCreate filename flag malloc = .object disk) :
    InPhase (Session.start disk) .closed :=
  ⟨disk, rfl, handle_of_create h⟩

/-- **The phase of a session** is that of its calls. -/
theorem inPhase_after (h : InPhase s .closed) (ops : List Op) :
    InPhase (after step s ops) (phaseAfter ops) :=
  simulation_after (R := InPhase) step (fun _ _ op hp => inPhase_step hp op) h ops

/-! ## Calls on open streams only -/

/-- The `stdio` calls of an executed call are on open streams, and without an open stream
the operations other than opening return `-1`. -/
def UsesOpenStreams (e : Event Session Op Reply) : Prop :=
  e.before.streams.Allows e.result.calls ∧
    ((∀ disk, e.before.disk = some disk → ¬ e.before.streams.IsOpen disk.handle_) →
      (∀ fopen, e.call ≠ .fileOpen fopen) → e.result.ret = -1)

/-- The `stdio` calls of `disk_t_destroy` are on open streams. -/
def DestroyUsesOpenStreams (s : Session) (fclose : ℤ) : Prop :=
  s.streams.Allows (diskTDestroy fclose s.disk).2

/-- Only an open file accepts a transfer. -/
theorem Phase.accepts_of_transfers {p : Phase} (hop : op.Transfers) :
    p.Accepts op ↔ p = .opened := by
  cases p with
  | closed => exact iff_of_false (fun h => h hop) (by decide)
  | opened => exact iff_of_true trivial rfl
  | closeFailed =>
    refine iff_of_false ?_ (by decide)
    rintro ⟨fopen, rfl⟩
    exact hop

/-- In the phase after an open, and only there, the stream is open. -/
theorem inPhase_opened_iff {p : Phase} (h : InPhase s p) (hs : s.disk = some disk) :
    p = .opened ↔ s.streams.IsOpen disk.handle_ := by
  obtain ⟨disk', hs', hp⟩ := h
  obtain rfl := Option.some.inj (hs.symm.trans hs')
  cases p with
  | closed => exact iff_of_false (by decide) (hp ▸ Streams.not_isOpen_none)
  | opened => exact iff_of_true rfl hp
  | closeFailed => exact iff_of_false (by decide) hp.2

/-- The calls of a transfer are on `handle_`, so the file must be open. -/
theorem usesOpenStreams_of_transfers (hs : s.disk = some disk) (hop : op.Transfers) :
    UsesOpenStreams ⟨s, op, (step s op).1, (step s op).2⟩ ↔ s.streams.IsOpen disk.handle_ := by
  unfold UsesOpenStreams
  rw [Streams.allows_of_on (step_calls_on hs hop)]
  constructor
  · rintro ⟨hcalls | h, hret⟩
    · -- without a call the result is zero and not `-1`
      by_contra hclosed
      have hzero := step_ret_of_no_calls hs hop hcalls
      have herr : (step s op).1.ret = -1 := by
        apply hret
        · intro d hd
          rw [Option.some.inj (hd.symm.trans hs)]
          exact hclosed
        · rintro fopen rfl
          exact hop
      omega
    · exact h
  · intro h
    exact ⟨Or.inr h, fun hclosed => absurd h (hclosed disk hs)⟩

/-- An executed call uses open streams when the phase before it accepts it. -/
theorem usesOpenStreams_iff {p : Phase} (h : InPhase s p) (op : Op) :
    UsesOpenStreams ⟨s, op, (step s op).1, (step s op).2⟩ ↔ p.Accepts op := by
  have hphase := h
  obtain ⟨disk, hs, hp⟩ := h
  by_cases hop : op.Transfers
  · rw [usesOpenStreams_of_transfers hs hop, Phase.accepts_of_transfers hop,
      inPhase_opened_iff hphase hs]
  · cases op with
    | fileOpen fopen =>
      refine iff_of_true ⟨?_, fun _ h => absurd rfl (h fopen)⟩ ?_
      · cases fopen with
        | true =>
          rw [step_open hs]
          exact ⟨trivial, trivial⟩
        | false =>
          rw [step_open_failed hs]
          exact ⟨trivial, trivial⟩
      · cases p with
        | closed => exact hop
        | opened => trivial
        | closeFailed => exact ⟨fopen, rfl⟩
    | fileClose fclose =>
      cases p with
      | closed =>
        rw [step_close_none hs hp]
        exact iff_of_true ⟨trivial, fun _ _ => rfl⟩ hop
      | opened =>
        obtain ⟨t, hh, ht⟩ := hp
        rw [step_close_some hs hh]
        refine iff_of_true ⟨⟨⟨t, rfl, ht⟩, trivial⟩, fun hclosed => ?_⟩ trivial
        exact absurd ⟨t, hh, ht⟩ (hclosed disk hs)
      | closeFailed =>
        obtain ⟨hne, hclosed⟩ := hp
        obtain ⟨t, hh⟩ := Option.ne_none_iff_exists'.mp hne
        rw [step_close_some hs hh]
        refine iff_of_false ?_ fun ⟨fopen, h⟩ => Op.noConfusion h
        intro h
        rw [hh] at hclosed
        exact hclosed h.1.1
    | fileRead | fileWrite | fileSeek => exact absurd trivial hop

/-- Destroying the object is in order unless its last `fclose` failed. -/
theorem destroyUsesOpenStreams_iff {p : Phase} (h : InPhase s p) (fclose : ℤ) :
    DestroyUsesOpenStreams s fclose ↔ p ≠ .closeFailed := by
  obtain ⟨disk, hs, hp⟩ := h
  unfold DestroyUsesOpenStreams
  rw [hs, diskTDestroy, diskTFileClose]
  cases p with
  | closed =>
    have hh : disk.handle_ = none := hp
    rw [hh]
    exact iff_of_true trivial (by decide)
  | opened =>
    obtain ⟨t, hh, ht⟩ := hp
    rw [hh]
    refine iff_of_true ?_ (by decide)
    dsimp only
    split_ifs
    · exact ⟨⟨t, rfl, ht⟩, trivial⟩
    · exact ⟨⟨t, rfl, ht⟩, trivial⟩
  | closeFailed =>
    obtain ⟨hne, hclosed⟩ := hp
    obtain ⟨t, hh⟩ := Option.ne_none_iff_exists'.mp hne
    rw [hh] at hclosed ⊢
    refine iff_of_false ?_ (fun h => h rfl)
    intro h
    dsimp only at h
    split_ifs at h
    · exact hclosed h.1
    · exact hclosed h.1

/-- **Open streams only**: every call of a run and the final destruction use open streams
exactly when every call is accepted by the phase before it and the last close of the file
has not failed. -/
theorem uses_open_streams_iff {filename : Option (List UInt8)} {flag : ℤ} {malloc : Bool}
    {disk : DiskT} (hcreate : diskTCreate filename flag malloc = .object disk) (ops : List Op)
    (fclose : ℤ) :
    ((∀ e ∈ history step (Session.start disk) ops, UsesOpenStreams e) ∧
      DestroyUsesOpenStreams (after step (Session.start disk) ops) fclose) ↔
    ((∀ pre op post, ops = pre ++ op :: post → (phaseAfter pre).Accepts op) ∧
      phaseAfter ops ≠ .closeFailed) := by
  have hphase := inPhase_after (inPhase_start hcreate)
  rw [forall_mem_history_iff, destroyUsesOpenStreams_iff (hphase ops)]
  apply and_congr_left
  intro _
  apply forall_congr'
  intro pre
  apply forall_congr'
  intro op
  apply forall_congr'
  intro post
  exact imp_congr_right fun _ => usesOpenStreams_iff (hphase pre) op

/-- A file that is opened and then destroyed with the object. -/
theorem open_destroy_uses_open_streams :
    (∀ e ∈ history step (Session.start ⟨[102], none, 2⟩) [.fileOpen true], UsesOpenStreams e) ∧
      DestroyUsesOpenStreams (after step (Session.start ⟨[102], none, 2⟩) [.fileOpen true]) 0 := by
  refine (uses_open_streams_iff (rfl : diskTCreate (some [102]) 2 true = _) [.fileOpen true] 0).mpr
    ⟨?_, by decide⟩
  intro pre op post h
  cases pre with
  | nil =>
    obtain ⟨rfl, -⟩ := List.cons.inj h
    exact fun hop => hop
  | cons a pre => simp at h

/-- Seeking before the file is opened passes `NULL` to `fseek`; when the `fclose` of a close
has failed, destroying the object passes the same stream to `fclose` again. -/
theorem seek_before_open_and_double_fclose :
    ∃ disk, diskTCreate (some [102]) 2 true = .object disk ∧
      ¬ (∀ e ∈ history step (Session.start disk) [.fileSeek 0 0], UsesOpenStreams e) ∧
      ¬ DestroyUsesOpenStreams
        (after step (Session.start disk) [.fileOpen true, .fileClose (-1)]) 0 := by
  refine ⟨_, rfl, ?_, ?_⟩
  · intro h
    have hseek := (h _ List.mem_cons_self).1
    exact Streams.not_isOpen_none hseek.1
  · intro h
    have hclose : Streams.IsOpen _ (some 0) := h.1
    rw [Streams.isOpen_some] at hclose
    exact absurd hclose (by decide)

/-! ## No stream is lost -/

/-- At most one stream is open, and `handle_` is that stream. -/
def Balanced (s : Session) : Prop :=
  s.streams.live.card ≤ 1 ∧
    ∀ t ∈ s.streams.live, ∃ disk, s.disk = some disk ∧ disk.handle_ = some t

/-- The streams after the object is destroyed. -/
def destroyed (s : Session) (fclose : ℤ) : Streams :=
  s.streams.run (diskTDestroy fclose s.disk).2

/-- Without an object whose `handle_` is open, nothing is open. -/
theorem Balanced.live_eq_empty (h : Balanced s)
    (hclosed : ∀ disk, s.disk = some disk → ¬ s.streams.IsOpen disk.handle_) :
    s.streams.live = ∅ := by
  apply Finset.eq_empty_of_forall_notMem
  intro t ht
  obtain ⟨disk, hs, hh⟩ := h.2 t ht
  exact hclosed disk hs ⟨t, hh, ht⟩

/-- Closing the stream of the object leaves nothing open. -/
theorem Balanced.erase_eq_empty {t : Stream} (h : Balanced s) (hs : s.disk = some disk)
    (hh : disk.handle_ = some t) : s.streams.live.erase t = ∅ := by
  apply Finset.eq_empty_of_forall_notMem
  intro u hu
  obtain ⟨hne, hu⟩ := Finset.mem_erase.mp hu
  obtain ⟨disk', hs', hh'⟩ := h.2 u hu
  rw [hs, Option.some.injEq] at hs'
  subst hs'
  rw [hh, Option.some.injEq] at hh'
  exact hne hh'.symm

/-- Without live streams everything is balanced. -/
theorem balanced_of_empty (h : s.streams.live = ∅) : Balanced s := by
  unfold Balanced
  rw [h]
  exact ⟨Nat.zero_le 1, fun t ht => absurd ht (Finset.notMem_empty t)⟩

/-- A call keeps the balance unless it opens an open file. -/
theorem balanced_step {p : Phase} (hphase : InPhase s p) (h : Balanced s)
    (hopen : ∀ fopen, op = .fileOpen fopen → p ≠ .opened) : Balanced (step s op).2 := by
  obtain ⟨disk, hs, hp⟩ := hphase
  by_cases hop : op.Transfers
  · rw [step_of_transfers hs hop]
    exact h
  cases op with
  | fileOpen fopen =>
    -- the file is not open, so nothing is, and the new stream is the only one
    have hempty : s.streams.live = ∅ := by
      apply h.live_eq_empty
      intro disk' hs'
      rw [hs, Option.some.injEq] at hs'
      subst hs'
      cases p with
      | closed => exact hp ▸ Streams.not_isOpen_none
      | opened => exact absurd rfl (hopen fopen rfl)
      | closeFailed => exact hp.2
    cases fopen with
    | true =>
      rw [step_open hs, Balanced, Streams.live_fopen, hempty]
      refine ⟨by rw [insert_empty_eq, Finset.card_singleton], ?_⟩
      intro t ht
      rw [insert_empty_eq, Finset.mem_singleton] at ht
      exact ⟨_, rfl, by rw [ht]⟩
    | false =>
      rw [step_open_failed hs]
      exact balanced_of_empty hempty
  | fileClose fclose =>
    cases hh : disk.handle_ with
    | none =>
      rw [step_close_none hs hh]
      exact h
    | some t =>
      rw [step_close_some hs hh]
      exact balanced_of_empty (h.erase_eq_empty hs hh)
  | fileRead | fileWrite | fileSeek => exact absurd trivial hop

/-- Opening an open file loses the stream that was open. -/
theorem not_balanced_reopen (hphase : InPhase s .opened) (fopen : Bool) :
    ¬ Balanced (step s (.fileOpen fopen)).2 := by
  obtain ⟨disk, hs, t, hh, ht⟩ := hphase
  rintro ⟨-, hrefers⟩
  cases fopen with
  | true =>
    rw [step_open hs] at hrefers
    obtain ⟨disk', hs', hh'⟩ := hrefers t (Finset.mem_insert_of_mem ht)
    rw [Option.some.injEq] at hs'
    subst hs'
    rw [Option.some.injEq] at hh'
    exact Streams.next_notMem (hh' ▸ ht)
  | false =>
    rw [step_open_failed hs] at hrefers
    obtain ⟨disk', hs', hh'⟩ := hrefers t ht
    rw [Option.some.injEq] at hs'
    subst hs'
    exact Option.some_ne_none t hh'.symm

/-- Destroying a balanced object closes what is open. -/
theorem destroyed_live_eq_empty (h : Balanced s) (fclose : ℤ) :
    (destroyed s fclose).live = ∅ := by
  cases hs : s.disk with
  | none =>
    unfold destroyed
    rw [hs, diskTDestroy, Streams.run_nil]
    exact h.live_eq_empty fun disk hd => absurd (hd.symm.trans hs) (Option.some_ne_none disk)
  | some disk =>
    unfold destroyed
    rw [hs, diskTDestroy, diskTFileClose]
    cases hh : disk.handle_ with
    | none =>
      apply h.live_eq_empty
      intro disk' hs'
      rw [hs, Option.some.injEq] at hs'
      subst hs'
      rw [hh]
      exact Streams.not_isOpen_none
    | some t =>
      have hempty := h.erase_eq_empty hs hh
      dsimp only
      split_ifs
      · exact hempty
      · exact hempty

/-- **No stream is lost**: after every prefix of a run the object is balanced, and destroying
it at the end leaves nothing open, exactly when no call opens an open file. -/
theorem never_loses_iff {filename : Option (List UInt8)} {flag : ℤ} {malloc : Bool}
    {disk : DiskT} (hcreate : diskTCreate filename flag malloc = .object disk) (ops : List Op)
    (fclose : ℤ) :
    ((∀ pre, pre <+: ops → Balanced (after step (Session.start disk) pre)) ∧
      (destroyed (after step (Session.start disk) ops) fclose).live = ∅) ↔
    ∀ pre fopen post, ops = pre ++ .fileOpen fopen :: post → phaseAfter pre ≠ .opened := by
  have hphase := inPhase_after (inPhase_start hcreate)
  constructor
  · rintro ⟨hbalanced, -⟩ pre fopen post rfl hopened
    have hreopened := hbalanced (pre ++ [.fileOpen fopen]) ⟨post, by simp⟩
    rw [after_append, after_cons, after_nil] at hreopened
    exact not_balanced_reopen (hopened ▸ hphase pre) fopen hreopened
  · intro hopens
    have hbalanced : ∀ pre, pre <+: ops → Balanced (after step (Session.start disk) pre) := by
      intro pre
      induction pre using List.reverseRecOn with
      | nil => exact fun _ => balanced_of_empty rfl
      | append_singleton pre op ih =>
        rintro ⟨post, rfl⟩
        rw [after_append, after_cons, after_nil]
        refine balanced_step (hphase pre) (ih ⟨op :: post, by simp⟩) ?_
        rintro fopen rfl
        exact hopens pre fopen post (by simp)
    exact ⟨hbalanced, destroyed_live_eq_empty (hbalanced ops List.prefix_rfl) fclose⟩

/-- A file that is opened and then destroyed with the object. -/
theorem open_destroy_never_loses :
    (∀ pre, pre <+: [Op.fileOpen true] →
      Balanced (after step (Session.start ⟨[102], none, 2⟩) pre)) ∧
      (destroyed (after step (Session.start ⟨[102], none, 2⟩) [.fileOpen true]) 0).live = ∅ := by
  refine (never_loses_iff (rfl : diskTCreate (some [102]) 2 true = _) [.fileOpen true] 0).mpr
    ?_
  intro pre fopen post h
  cases pre with
  | nil => decide
  | cons a pre => simp at h

/-- Opening twice leaves the first stream open for ever. -/
theorem reopen_loses :
    ∃ disk, diskTCreate (some [102]) 2 true = .object disk ∧
      ¬ Balanced (after step (Session.start disk) [.fileOpen true, .fileOpen true]) ∧
      (destroyed (after step (Session.start disk) [.fileOpen true, .fileOpen true]) 0).live
        = {0} := by
  refine ⟨_, rfl, ?_, by decide⟩
  intro h
  have hcard := h.1
  exact absurd hcard (by decide)

end Disk
