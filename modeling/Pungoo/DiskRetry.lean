/-
# Transient errors in `disk_t_file_read` and `disk_t_file_write`

When nothing was moved, both loops wait and try again if `ferror` returns `EAGAIN` or
`EINTR`.  But `ferror` tells whether the error indicator of the stream is set, and not why;
the cause is in `errno`, which the loops do not look at.

* `Transient` : the library meets only transient errors until all bytes are moved;
* `transfer_iff` : such a transfer succeeds exactly when `ferror`, at each empty result,
  happens to return one of the two numbers.
-/
import Pungoo.DiskStreams
import Pungoo.RetryLoop

namespace Disk

open Stdio RetryLoop

/-- What the library knows about the stream after each transfer. -/
structure Conditions where
  indicator : ℕ → Bool
  errno : ℕ → ℤ

/-- Up to the end of a transfer of `len` bytes: `ferror` tells the error indicator, which stays
set once it is; each empty result is a transient error; and in fewer than 6000 of them the other
results are `len` bytes. -/
structure Transient (c : Conditions) (amount : ℕ → ℕ) (ferror : ℕ → ℤ) (len : ℕ) : Prop where
  ferror_iff : ∀ k, offered amount k < len → (ferror k ≠ 0 ↔ c.indicator k = true)
  sticky : ∀ k, offered amount (k + 1) < len → c.indicator k = true → c.indicator (k + 1) = true
  transient : ∀ k, offered amount k < len → amount k = 0 →
    c.indicator k = true ∧ (c.errno k = eagain ∨ c.errno k = eintr)
  complete : ∃ K, len ≤ offered amount K ∧ empties amount K < 6000

/-- The results of `ferror` that the loops take for a transient error. -/
def Retried (err : ℤ) : Prop := err = eagain ∨ err = eintr

instance (err : ℤ) : Decidable (Retried err) := inferInstanceAs (Decidable (_ ∨ _))

variable {handle : Option Stream} {buf buf' : List UInt8} {len : ℤ} {k retry : ℕ}

/-! ## The steps of a write -/

section

variable {io : WriteIo} {writeLen : ℕ}

/-- An empty round whose error is not retried ends the write loop. -/
theorem writeLoop_fails (hlt : writeLen < len) (hzero : io.fwrite k = 0)
    (herr : ¬ Retried (io.ferror k)) :
    (writeLoop io handle buf len k writeLen retry).1 = 0 := by
  unfold Retried at herr
  rw [not_or] at herr
  rw [writeLoop, if_pos hlt]
  dsimp only
  rw [if_pos ⟨by rw [hzero, Nat.zero_min], herr⟩]

/-- An empty round whose error is retried costs one of the tries. -/
theorem writeLoop_retries (hlt : writeLen < len) (hzero : io.fwrite k = 0)
    (herr : Retried (io.ferror k)) (hretry : retry + 1 < 6000) :
    (writeLoop io handle buf len k writeLen retry).1
      = (writeLoop io handle buf len (k + 1) writeLen (retry + 1)).1 := by
  unfold Retried at herr
  rw [writeLoop, if_pos hlt]
  dsimp only
  rw [if_neg (fun h => herr.elim h.2.1 h.2.2), if_pos (by rw [hzero, Nat.zero_min]),
    if_pos hretry]

/-- Any other round goes on behind what was accepted. -/
theorem writeLoop_moves (hlt : writeLen < len) (hpos : 0 < io.fwrite k) :
    (writeLoop io handle buf len k writeLen retry).1
      = (writeLoop io handle buf len (k + 1)
          (writeLen + min (io.fwrite k) (len - writeLen).toNat) retry).1 := by
  have hne : min (io.fwrite k) (len - writeLen).toNat ≠ 0 := by omega
  rw [writeLoop, if_pos hlt]
  dsimp only
  rw [if_neg (fun h => hne h.1), if_neg hne]

end

theorem offered_succ_of_empty {amount : ℕ → ℕ} (h : amount k = 0) :
    offered amount (k + 1) = offered amount k := by
  rw [offered_succ, h, Nat.add_zero]

/-- Before the end, the position after an attempt is that of the amounts together. -/
theorem min_offered_succ {amount : ℕ → ℕ} {len : ℕ} (h : offered amount k < len) :
    offered amount k + min (amount k) ((len : ℤ) - offered amount k).toNat
      = min len (offered amount (k + 1)) := by
  rw [offered_succ]
  omega

/-- The write loop is a loop with retries. -/
theorem writeLoop_steps (io : WriteIo) (handle : Option Stream) (buf : List UInt8) (len : ℕ) :
    Steps io.fwrite (fun k => Retried (io.ferror k)) len 6000 fun k retry =>
      (writeLoop io handle buf len k (min len (offered io.fwrite k)) retry).1 = len where
  done {k retry} h := by
    rw [Nat.min_eq_left h, writeLoop_of_le io handle buf k retry (le_refl _)]
  fails {k retry} hlt hzero herr := by
    rw [Nat.min_eq_right hlt.le, writeLoop_fails (by exact_mod_cast hlt) hzero herr]
    omega
  retries {k retry} hlt hzero herr hretry := by
    rw [offered_succ_of_empty hzero, Nat.min_eq_right hlt.le,
      writeLoop_retries (by exact_mod_cast hlt) hzero herr hretry]
  moves {k retry} hlt hpos := by
    rw [Nat.min_eq_right hlt.le, writeLoop_moves (by exact_mod_cast hlt) hpos,
      min_offered_succ hlt]

/-! ## The steps of a read -/

section

variable {io : ReadIo} {readLen : ℕ}

/-- The result of a read does not depend on what is in the buffer. -/
theorem readLoop_ret (io : ReadIo) (handle : Option Stream) (len : ℤ) (k readLen retry : ℕ)
    (buf buf' : List UInt8) :
    (readLoop io handle len k readLen retry buf).1
      = (readLoop io handle len k readLen retry buf').1 := by
  fun_induction readLoop io handle len k readLen retry buf generalizing buf' with
  | case1 k readLen retry buf hlt count data err eof calls h =>
    rw [readLoop, if_pos hlt]
    dsimp only
    rw [if_pos h]
  | case2 k readLen retry buf hlt count data err eof calls h hzero heof =>
    rw [readLoop, if_pos hlt]
    dsimp only
    rw [if_neg h, if_pos hzero, if_pos heof]
  | case3 k readLen retry buf hlt count data err eof calls h hzero heof hretry ret buf₁ rest heq
      ih =>
    rw [readLoop.eq_def io handle len k readLen retry buf', if_pos hlt]
    dsimp only
    rw [if_neg h, if_pos hzero, if_neg heof, if_pos hretry, ← ih buf', heq]
  | case4 k readLen retry buf hlt count data err eof calls h hzero heof hretry =>
    rw [readLoop, if_pos hlt]
    dsimp only
    rw [if_neg h, if_pos hzero, if_neg heof, if_neg hretry]
  | case5 k readLen retry buf hlt count data err eof calls h hpos ret buf₁ rest heq ih =>
    rw [readLoop.eq_def io handle len k readLen retry buf', if_pos hlt]
    dsimp only
    rw [if_neg h, if_neg hpos, ← ih, heq]
  | case6 k readLen retry buf hge =>
    rw [readLoop, if_neg hge]

/-- An empty round whose error is not retried ends the read loop. -/
theorem readLoop_fails (hlt : readLen < len) (hzero : io.fread k = []) (heof : io.feof k = false)
    (herr : ¬ Retried (io.ferror k)) :
    (readLoop io handle len k readLen retry buf).1 = -1 := by
  unfold Retried at herr
  rw [not_or] at herr
  rw [readLoop, if_pos hlt]
  dsimp only
  rw [if_pos ⟨by rw [hzero, List.take_nil, List.length_nil], herr.1, herr.2, heof⟩]

/-- An empty round whose error is retried costs one of the tries. -/
theorem readLoop_retries (hlt : readLen < len) (hzero : io.fread k = [])
    (heof : io.feof k = false) (herr : Retried (io.ferror k)) (hretry : retry + 1 < 6000) :
    (readLoop io handle len k readLen retry buf).1
      = (readLoop io handle len (k + 1) readLen (retry + 1) buf).1 := by
  unfold Retried at herr
  rw [readLoop, if_pos hlt]
  dsimp only
  rw [if_neg (fun h => herr.elim h.2.1 h.2.2.1),
    if_pos (by rw [hzero, List.take_nil, List.length_nil]),
    if_neg (by rw [heof]; exact Bool.false_ne_true), if_pos hretry]

/-- Any other round goes on behind what was delivered. -/
theorem readLoop_moves (hlt : readLen < len) (hpos : 0 < (io.fread k).length) :
    (readLoop io handle len k readLen retry buf).1
      = (readLoop io handle len (k + 1)
          (readLen + min (io.fread k).length (len - readLen).toNat) retry buf).1 := by
  have hlen : ((io.fread k).take (len - readLen).toNat).length
      = min (io.fread k).length (len - readLen).toNat := by
    rw [List.length_take, Nat.min_comm]
  have hne : ((io.fread k).take (len - readLen).toNat).length ≠ 0 := by omega
  rw [readLoop, if_pos hlt]
  dsimp only
  rw [if_neg (fun h => hne h.1), if_neg hne, hlen]
  exact readLoop_ret _ _ _ _ _ _ _ _

end

/-- The amounts that `fread` delivers. -/
def ReadIo.amount (io : ReadIo) (k : ℕ) : ℕ := (io.fread k).length

/-- The read loop is a loop with retries, as long as the file does not end. -/
theorem readLoop_steps (io : ReadIo) (handle : Option Stream) (buf : List UInt8) (len : ℕ)
    (heof : ∀ k, offered io.amount k < len → io.amount k = 0 → io.feof k = false) :
    Steps io.amount (fun k => Retried (io.ferror k)) len 6000 fun k retry =>
      (readLoop io handle len k (min len (offered io.amount k)) retry buf).1 = len where
  done {k retry} h := by
    rw [Nat.min_eq_left h, readLoop_of_le io handle k retry buf (le_refl _)]
  fails {k retry} hlt hzero herr := by
    rw [Nat.min_eq_right hlt.le, readLoop_fails (by exact_mod_cast hlt)
      (List.length_eq_zero_iff.mp hzero) (heof k hlt hzero) herr]
    omega
  retries {k retry} hlt hzero herr hretry := by
    rw [offered_succ_of_empty hzero, Nat.min_eq_right hlt.le,
      readLoop_retries (by exact_mod_cast hlt) (List.length_eq_zero_iff.mp hzero)
        (heof k hlt hzero) herr hretry]
  moves {k retry} hlt hpos := by
    rw [Nat.min_eq_right hlt.le, readLoop_moves (by exact_mod_cast hlt) hpos,
      ← min_offered_succ hlt]
    rfl

/-! ## Transfers that meet only transient errors -/

/-- At every empty result of a transfer, `ferror` returns one of the two numbers. -/
def AllRetried (amount : ℕ → ℕ) (ferror : ℕ → ℤ) (len : ℕ) : Prop :=
  ∀ k, offered amount k < len → amount k = 0 → Retried (ferror k)

theorem diskTFileWrite_iff {c : Conditions} {io : WriteIo} {disk : DiskT} {len : ℕ}
    (h : Transient c io.fwrite io.ferror len) (buf : List UInt8) :
    (diskTFileWrite io (some disk) buf len).1 = len ↔ AllRetried io.fwrite io.ferror len := by
  have hiff := (writeLoop_steps io disk.handle_ buf len).returnsAll_iff h.complete
  rw [show offered io.fwrite 0 = 0 from rfl, Nat.min_zero] at hiff
  exact hiff

theorem diskTFileRead_iff {c : Conditions} {io : ReadIo} {disk : DiskT} {len : ℕ}
    (h : Transient c io.amount io.ferror len)
    (heof : ∀ k, offered io.amount k < len → io.amount k = 0 → io.feof k = false)
    (buf : List UInt8) :
    (diskTFileRead io (some disk) buf len).1 = len ↔ AllRetried io.amount io.ferror len := by
  have hiff := (readLoop_steps io disk.handle_ buf len heof).returnsAll_iff h.complete
  rw [show offered io.amount 0 = 0 from rfl, Nat.min_zero] at hiff
  exact hiff

/-- With an `ferror` that returns one, no empty result is tried again. -/
theorem allRetried_iff_of_one {c : Conditions} {amount : ℕ → ℕ} {ferror : ℕ → ℤ} {len : ℕ}
    (h : Transient c amount ferror len) (hone : ∀ k, c.indicator k = true → ferror k = 1) :
    AllRetried amount ferror len ↔ ∀ k, offered amount k < len → amount k ≠ 0 := by
  constructor
  · intro hall k hk hzero
    have hretried := hall k hk hzero
    rw [hone k (h.transient k hk hzero).1] at hretried
    exact absurd hretried (by decide)
  · intro hnone k hk hzero
    exact absurd hzero (hnone k hk)

/-- **Transient errors**: a read and a write that meet no others return the length exactly when
`ferror`, at each of the empty results, returns `EAGAIN` or `EINTR`; with an `ferror` that
returns one, exactly when there is no empty result. -/
theorem transfer_iff (disk : DiskT) (buf : List UInt8) (len : ℕ) (c : Conditions) :
    (∀ io : ReadIo, Transient c io.amount io.ferror len →
      (∀ k, offered io.amount k < len → io.amount k = 0 → io.feof k = false) →
      ((diskTFileRead io (some disk) buf len).1 = len ↔ AllRetried io.amount io.ferror len)) ∧
    (∀ io : WriteIo, Transient c io.fwrite io.ferror len →
      ((diskTFileWrite io (some disk) buf len).1 = len ↔ AllRetried io.fwrite io.ferror len)) ∧
    (∀ amount ferror, Transient c amount ferror len →
      (∀ k, c.indicator k = true → ferror k = 1) →
      (AllRetried amount ferror len ↔ ∀ k, offered amount k < len → amount k ≠ 0)) :=
  ⟨fun _ h heof => diskTFileRead_iff h heof buf, fun _ h => diskTFileWrite_iff h buf,
    fun _ _ h hone => allRetried_iff_of_one h hone⟩

/-- Nothing at first, because of `EAGAIN`, and then more than enough. -/
theorem transient_once {amount : ℕ → ℕ} {err : ℤ} (h : ∀ k, amount k = k) (herr : err ≠ 0) :
    Transient ⟨fun _ => true, fun _ => eagain⟩ amount (fun _ => err) 1 := by
  obtain rfl : amount = fun k => k := funext h
  refine ⟨?_, ?_, ?_, ⟨2, by decide, by decide⟩⟩
  · exact fun _ _ => iff_of_true herr rfl
  · exact fun _ _ h => h
  · exact fun _ _ _ => ⟨rfl, Or.inl rfl⟩

/-- One byte is asked for, and `ferror` returns `EAGAIN` itself. -/
theorem transfer_tried_again :
    (diskTFileWrite ⟨fun k => k, fun _ => eagain⟩ (some ⟨[102], some 0, 0⟩) [7] 1).1 = 1 :=
  ((transfer_iff ⟨[102], some 0, 0⟩ [7] 1 ⟨fun _ => true, fun _ => eagain⟩).2.1
    ⟨fun k => k, fun _ => eagain⟩ (transient_once (fun _ => rfl) (by decide))).mpr
    fun _ _ _ => Or.inl rfl

/-- One byte is asked for, and `ferror` returns one. -/
theorem transfer_fails_after_eagain :
    (Transient ⟨fun _ => true, fun _ => eagain⟩
        (ReadIo.amount ⟨fun k => List.replicate k 7, fun _ => 1, fun _ => false⟩) (fun _ => 1) 1 ∧
      (diskTFileRead ⟨fun k => List.replicate k 7, fun _ => 1, fun _ => false⟩
        (some ⟨[102], some 0, 2⟩) [0] 1).1 = -1) ∧
    Transient ⟨fun _ => true, fun _ => eagain⟩ (fun k => k) (fun _ => 1) 1 ∧
      (diskTFileWrite ⟨fun k => k, fun _ => 1⟩ (some ⟨[102], some 0, 0⟩) [7] 1).1 = 0 := by
  refine ⟨⟨transient_once (fun _ => List.length_replicate) one_ne_zero, ?_⟩,
    transient_once (fun _ => rfl) one_ne_zero, ?_⟩
  · exact readLoop_fails (by decide) rfl rfl (by decide)
  · exact writeLoop_fails (by decide) rfl (by decide)

end Disk
