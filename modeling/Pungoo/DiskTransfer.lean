/-
# What one `disk_t_file_read` or `disk_t_file_write` transfers

The calls that a transfer makes say which bytes went where: `delivered` are the bytes that
came with `fread`, `accepted` those that `fwrite` took.  Each loop keeps the bytes counted
so far equal to the bytes transferred, however the library cuts them into pieces.

* `writeLoop_accepted` : a write that starts in the middle of the buffer takes all of the
  rest, or a proper prefix of it and returns zero;
* `readLoop_delivered` : a read that starts in the middle of the buffer stores what was
  delivered, and stops early only at the end of the file or with `-1`.
-/
import Pungoo.Disk

namespace Disk

open Stdio

/-! ## The bytes of a list of calls -/

/-- The bytes that `fwrite` took in a call. -/
def taken : Call → List UInt8
  | .fwrite _ data accepted => data.take accepted
  | _ => []

/-- The bytes that `fread` delivered in a call. -/
def brought : Call → List UInt8
  | .fread _ _ delivered => delivered
  | _ => []

/-- The bytes that `fwrite` took, in order. -/
def accepted (calls : List Call) : List UInt8 := calls.flatMap taken

/-- The bytes that `fread` delivered, in order. -/
def delivered (calls : List Call) : List UInt8 := calls.flatMap brought

variable {handle : Option Stream} {data buf : List UInt8} {n count : ℕ} {err len : ℤ} {eof : Bool}

/-- What was accepted in calls one after the other. -/
theorem accepted_append (cs ds : List Call) : accepted (cs ++ ds) = accepted cs ++ accepted ds :=
  List.flatMap_append

/-- What was delivered in calls one after the other. -/
theorem delivered_append (cs ds : List Call) :
    delivered (cs ++ ds) = delivered cs ++ delivered ds :=
  List.flatMap_append

theorem accepted_writeCalls : accepted (writeCalls handle data n err) = data.take n := by
  unfold accepted writeCalls
  split_ifs <;> simp [taken]

theorem delivered_readCalls : delivered (readCalls handle count data err eof) = data := by
  unfold delivered readCalls
  split_ifs <;> simp [brought]

/-! ## Writing -/

/-- From the position `writeLen` on, the whole rest of the buffer was taken and the length is
returned, or less was taken and zero is returned. -/
def Wrote (buf : List UInt8) (len : ℤ) (writeLen : ℕ) (r : ℤ × List Call) : Prop :=
  (r.1 = len ∧ accepted r.2 = (buf.drop writeLen).take (len - writeLen).toNat) ∨
  (r.1 = 0 ∧ ∃ m < (len - writeLen).toNat, accepted r.2 = (buf.drop writeLen).take m)

variable {writeLen : ℕ} {ret : ℤ} {calls rest : List Call}

/-- A round that accepts nothing. -/
theorem wrote_none (h : writeLen < len) (hcalls : accepted calls = []) :
    Wrote buf len writeLen (0, calls) := by
  refine Or.inr ⟨rfl, 0, by omega, ?_⟩
  rw [List.take_zero]
  exact hcalls

/-- The bytes of one call are in front of those that are written after it. -/
theorem Wrote.cons (h : Wrote buf len (writeLen + n) (ret, rest))
    (hn : ((writeLen + n : ℕ) : ℤ) ≤ len)
    (hcalls : accepted calls = (buf.drop writeLen).take n) :
    Wrote buf len writeLen (ret, calls ++ rest) := by
  have happend : ∀ m, accepted rest = (buf.drop (writeLen + n)).take m →
      accepted (calls ++ rest) = (buf.drop writeLen).take (n + m) := by
    intro m hrest
    rw [accepted_append, hcalls, hrest, List.take_add, List.drop_drop]
  rcases h with ⟨hret, hrest⟩ | ⟨hret, m, hm, hrest⟩
  · refine Or.inl ⟨hret, ?_⟩
    rw [happend _ hrest]
    congr 1
    omega
  · exact Or.inr ⟨hret, n + m, by omega, happend m hrest⟩

/-- What the write loop returns and what `fwrite` has accepted. -/
theorem writeLoop_accepted (io : WriteIo) (handle : Option Stream) (buf : List UInt8) (len : ℤ)
    (k writeLen retry : ℕ) (hle : writeLen ≤ len) :
    Wrote buf len writeLen (writeLoop io handle buf len k writeLen retry) := by
  -- what one iteration takes, by the number of bytes
  have htake : ∀ (writeLen n : ℕ) (err : ℤ), n ≤ (len - writeLen).toNat →
      accepted (writeCalls handle ((buf.drop writeLen).take (len - writeLen).toNat) n err)
        = (buf.drop writeLen).take n := by
    intro writeLen n err hn
    rw [accepted_writeCalls, List.take_take, Nat.min_eq_left hn]
  fun_induction writeLoop io handle buf len k writeLen retry with
  | case1 k writeLen retry hlt count n err calls h =>
    refine wrote_none hlt ?_
    rw [htake writeLen n err (Nat.min_le_right _ _), h.1, List.take_zero]
  | case2 k writeLen retry hlt count n err calls h hzero hretry ret rest heq ih =>
    rw [heq] at ih
    have hmore : Wrote buf len (writeLen + 0) (ret, rest) := ih hle
    exact hmore.cons hle (by rw [htake writeLen n err (Nat.min_le_right _ _), hzero])
  | case3 k writeLen retry hlt count n err calls h hzero hretry =>
    refine wrote_none hlt ?_
    rw [htake writeLen n err (Nat.min_le_right _ _), hzero, List.take_zero]
  | case4 k writeLen retry hlt count n err calls h hpos ret rest heq ih =>
    have hn : n ≤ count := Nat.min_le_right _ _
    have hsum : ((writeLen + n : ℕ) : ℤ) ≤ len := by omega
    rw [heq] at ih
    exact (ih hsum).cons hsum (htake writeLen n err hn)
  | case5 k writeLen retry hge =>
    have heq : (writeLen : ℤ) = len := by omega
    exact Or.inl ⟨heq, by rw [heq, Int.sub_self]; rfl⟩

/-- **A write takes a prefix of the buffer**, the bytes in order and each of them once; it
returns the length when the prefix is all of the buffer, and zero otherwise. -/
theorem diskTFileWrite_accepted (io : WriteIo) (disk : DiskT) (buf : List UInt8) (len : ℤ)
    (hlen : 0 < len) (hbuf : len ≤ buf.length) :
    ((diskTFileWrite io (some disk) buf len).1 = len ∨
      (diskTFileWrite io (some disk) buf len).1 = 0) ∧
    accepted (diskTFileWrite io (some disk) buf len).2 <+: buf.take len.toNat ∧
    ((diskTFileWrite io (some disk) buf len).1 = len ↔
      accepted (diskTFileWrite io (some disk) buf len).2 = buf.take len.toNat) := by
  have h : Wrote buf len 0 (diskTFileWrite io (some disk) buf len) :=
    writeLoop_accepted io disk.handle_ buf len 0 0 0 hlen.le
  unfold Wrote at h
  rw [List.drop_zero, show len - ((0 : ℕ) : ℤ) = len by omega] at h
  rcases h with ⟨hret, hall⟩ | ⟨hret, m, hm, hpart⟩
  · exact ⟨Or.inl hret, hall ▸ List.prefix_rfl, iff_of_true hret hall⟩
  · refine ⟨Or.inr hret, ?_, iff_of_false (by omega) ?_⟩
    · rw [hpart]
      exact List.take_prefix_take_left hm.le
    · intro hall
      have hlength := congrArg List.length (hpart.symm.trans hall)
      rw [List.length_take, List.length_take] at hlength
      omega

/-- Three bytes, written in two pieces. -/
theorem write_two_pieces :
    let r := diskTFileWrite ⟨fun _ => 2, fun _ => 0⟩ (some ⟨[102], some 0, 0⟩) [1, 2, 3] 3
    (r.1 = 3 ∨ r.1 = 0) ∧ accepted r.2 <+: [1, 2, 3] ∧ (r.1 = 3 ↔ accepted r.2 = [1, 2, 3]) :=
  diskTFileWrite_accepted _ _ _ 3 (by decide) (by decide)

/-! ## Reading -/

/-- From the position `readLen` on, an error is reported, or the buffer holds at its front what
it held before that position and what was delivered; less than `len` bytes are returned only
when the last call found the end of the file. -/
def Stored (handle : Option Stream) (buf : List UInt8) (len : ℤ) (readLen : ℕ)
    (r : ℤ × List UInt8 × List Call) : Prop :=
  r.1 = -1 ∨
  ∃ k : ℕ, r.1 = k ∧ k ≤ len ∧ k = readLen + (delivered r.2.2).length ∧
    r.2.1.take k = buf.take readLen ++ delivered r.2.2 ∧
    (k < len → r.2.2.getLast? = some (.feof handle true))

variable {readLen : ℕ} {buf' buf'' : List UInt8}

/-- The buffer up to the end of what was stored. -/
theorem take_store (h : readLen ≤ buf.length) :
    (store buf readLen data).take (readLen + data.length) = buf.take readLen ++ data := by
  have hlen : (buf.take readLen ++ data).length = readLen + data.length := by
    rw [List.length_append, List.length_take, Nat.min_eq_left h]
  unfold store
  rw [← hlen, List.take_left]

/-- A buffer has room for what was stored. -/
theorem le_length_store (h : readLen ≤ buf.length) :
    readLen + data.length ≤ (store buf readLen data).length := by
  unfold store
  rw [List.length_append, List.length_append, List.length_take, Nat.min_eq_left h]
  omega

/-- The bytes of one call are in front of those that are read after it. -/
theorem Stored.cons (h : Stored handle buf' len (readLen + data.length) (ret, buf'', rest))
    (hcalls : delivered calls = data)
    (hbuf : buf'.take (readLen + data.length) = buf.take readLen ++ data) :
    Stored handle buf len readLen (ret, buf'', calls ++ rest) := by
  rcases h with hret | ⟨k, hret, hle, hk, hfront, hlast⟩
  · exact Or.inl hret
  · refine Or.inr ⟨k, hret, hle, ?_, ?_, ?_⟩
    · rw [hk, delivered_append, hcalls, List.length_append, Nat.add_assoc]
    · rw [hfront, hbuf, delivered_append, hcalls, List.append_assoc]
    · intro hlt
      rw [List.getLast?_append, hlast hlt]
      rfl

theorem readCalls_getLast? (h : data.length = 0) :
    (readCalls handle count data err true).getLast? = some (.feof handle true) := by
  unfold readCalls
  rw [if_pos (⟨h, Or.inr (Or.inr rfl)⟩ : _ ∧ (_ ∨ _ ∨ true = true)), List.getLast?_concat]

/-- What the read loop returns, stores and has been delivered. -/
theorem readLoop_stored (io : ReadIo) (handle : Option Stream) (len : ℤ) (k readLen retry : ℕ)
    (buf : List UInt8) (hle : readLen ≤ len) (hbuf : readLen ≤ buf.length) :
    Stored handle buf len readLen (readLoop io handle len k readLen retry buf) := by
  fun_induction readLoop io handle len k readLen retry buf with
  | case1 => exact Or.inl rfl
  | case2 k readLen retry buf hlt count data err eof calls h hzero heof =>
    have hdata : delivered calls = [] :=
      delivered_readCalls.trans (List.length_eq_zero_iff.mp hzero)
    refine Or.inr ⟨readLen, rfl, hle, ?_, ?_, fun _ => ?_⟩
    · rw [hdata]
      rfl
    · rw [hdata, List.append_nil]
    · show (readCalls handle count data err eof).getLast? = _
      rw [heof, readCalls_getLast? hzero]
  | case3 k readLen retry buf hlt count data err eof calls h hzero heof hretry ret buf' rest heq
      ih =>
    have hnil : data = [] := List.length_eq_zero_iff.mp hzero
    have hmore := ih hle hbuf
    rw [heq] at hmore
    have hsame : Stored handle buf len (readLen + ([] : List UInt8).length) (ret, buf', rest) :=
      hmore
    exact hsame.cons (delivered_readCalls.trans hnil) (List.append_nil _).symm
  | case4 => exact Or.inl rfl
  | case5 k readLen retry buf hlt count data err eof calls h hpos ret buf' rest heq ih =>
    have hdata : data.length ≤ count := List.length_take_le _ _
    have hmore := ih (by omega) (le_length_store hbuf)
    rw [heq] at hmore
    exact hmore.cons delivered_readCalls (take_store hbuf)
  | case6 k readLen retry buf hge =>
    have heq : (readLen : ℤ) = len := by omega
    refine Or.inr ⟨readLen, rfl, hle, rfl, (List.append_nil _).symm, fun hlt => ?_⟩
    exact absurd hlt hge

/-- **A read delivers a prefix of the stream**: an error is reported, or the number of bytes is,
with exactly the delivered bytes at the front of the buffer; a number below the length only at
the end of the file. -/
theorem diskTFileRead_delivered (io : ReadIo) (disk : DiskT) (buf : List UInt8) (len : ℤ)
    (hlen : 0 ≤ len) :
    (diskTFileRead io (some disk) buf len).1 = -1 ∨
    ∃ k : ℕ, (diskTFileRead io (some disk) buf len).1 = k ∧ k ≤ len ∧
      k = (delivered (diskTFileRead io (some disk) buf len).2.2).length ∧
      (diskTFileRead io (some disk) buf len).2.1.take k
        = delivered (diskTFileRead io (some disk) buf len).2.2 ∧
      (k < len → (diskTFileRead io (some disk) buf len).2.2.getLast?
        = some (.feof disk.handle_ true)) := by
  have h : Stored disk.handle_ buf len 0 (diskTFileRead io (some disk) buf len) :=
    readLoop_stored io disk.handle_ len 0 0 0 buf hlen (Nat.zero_le _)
  unfold Stored at h
  rw [List.take_zero, List.nil_append] at h
  simpa only [Nat.zero_add] using h

/-- Two bytes, of which the file has one. -/
theorem read_one_of_two :
    let r := diskTFileRead ⟨fun k => if k = 0 then [7] else [], fun _ => 0, fun k => k == 1⟩
      (some ⟨[102], some 0, 2⟩) [0, 0] 2
    r.1 = -1 ∨ ∃ k : ℕ, r.1 = k ∧ k ≤ 2 ∧ k = (delivered r.2.2).length ∧
      r.2.1.take k = delivered r.2.2 ∧ (k < 2 → r.2.2.getLast? = some (.feof (some 0) true)) := by
  have h := diskTFileRead_delivered ⟨fun k => if k = 0 then [7] else [], fun _ => 0, fun k => k == 1⟩
    ⟨[102], some 0, 2⟩ [0, 0] 2 (by decide)
  exact_mod_cast h

end Disk
