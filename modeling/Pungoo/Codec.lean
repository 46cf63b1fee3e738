/-
# Writing and reading a buffer

A `Buffer` is bytes of fixed size and an offset.  A writer moves the offset behind what it
wrote; a reader moves it behind what it read.  Both can fail.

* `Writes f bs` : `f` writes `bs` where they fit, and returns only where they fit.
* `Reads f a bs` : where `bs` stand, `f` returns `a` and passes them.
* `Accepts f size P` : whatever `f` returns has the size `f` passed, and satisfies `P`.

Each is kept when one step follows another, so a writer or a reader built from steps has the
property that its format has.
-/
import Pungoo.Failing
import Pungoo.Wire

namespace Codec

open Wire Failing

/-- Bytes, and a position in them. -/
structure Buffer where
  encoded : Bytes
  offset : ℕ
  deriving DecidableEq, Repr

/-- The buffer with `bs` copied to its offset, which moves behind them. -/
def Buffer.put (s : Buffer) (bs : Bytes) : Buffer :=
  { encoded := write s.encoded s.offset bs, offset := s.offset + bs.length }

/-- The buffer with its offset moved by `n`. -/
def Buffer.skip (s : Buffer) (n : ℕ) : Buffer := { s with offset := s.offset + n }

@[simp] theorem Buffer.offset_put (s : Buffer) (bs : Bytes) :
    (s.put bs).offset = s.offset + bs.length := rfl

@[simp] theorem Buffer.encoded_put (s : Buffer) (bs : Bytes) :
    (s.put bs).encoded = write s.encoded s.offset bs := rfl

@[simp] theorem Buffer.offset_skip (s : Buffer) (n : ℕ) : (s.skip n).offset = s.offset + n := rfl

@[simp] theorem Buffer.encoded_skip (s : Buffer) (n : ℕ) : (s.skip n).encoded = s.encoded := rfl

variable {ε α β : Type} {s s' : Buffer} {as bs cs : Bytes} {a : α} {b : β}

/-- To write nothing changes nothing. -/
theorem Buffer.put_nil (h : s.offset ≤ s.encoded.length) : s.put [] = s := by
  unfold Buffer.put
  rw [write_nil h]
  rfl

/-- Two writes one behind the other are one. -/
theorem Buffer.put_put (h : s.offset + as.length + bs.length ≤ s.encoded.length) :
    (s.put as).put bs = s.put (as ++ bs) := by
  unfold Buffer.put
  rw [write_write_after h, List.length_append, Nat.add_assoc]

/-- Two skips are one. -/
theorem Buffer.skip_skip (s : Buffer) (m n : ℕ) : (s.skip m).skip n = s.skip (m + n) := by
  simp [Buffer.skip, Nat.add_assoc]

/-! ## Writers -/

/-- `f` writes `bs` at the offset.  It returns only where they fit; if there is nothing to
write it may also return at an offset behind the end. -/
structure Writes (f : Buffer → Except ε Buffer) (bs : Bytes) : Prop where
  fits : ∀ s, s.offset + bs.length ≤ s.encoded.length → f s = .ok (s.put bs)
  only : ∀ s s', f s = .ok s' →
    s.offset + bs.length ≤ s.encoded.length ∨ bs = [] ∧ s' = s

/-- An encoder that writes nothing. -/
theorem Writes.nil : Writes (fun s => (.ok s : Except ε Buffer)) [] where
  fits s h := by rw [Buffer.put_nil (by simpa using h)]
  only s s' h := .inr ⟨rfl, (Except.ok.inj h).symm⟩

/-- One writer after another. -/
theorem Writes.bind {f g : Buffer → Except ε Buffer} (hf : Writes f as) (hg : Writes g bs) :
    Writes (fun s => f s >>= g) (as ++ bs) where
  fits s h := by
    rw [List.length_append, ← Nat.add_assoc] at h
    have hs : s.offset + as.length ≤ s.encoded.length := by omega
    rw [hf.fits s hs, ok_bind, hg.fits _ (by simpa [length_write hs] using h),
      Buffer.put_put h]
  only s s' h := by
    obtain ⟨t, hft, hgt⟩ := bind_eq_ok_iff.mp h
    rcases hf.only s t hft with hs | ⟨rfl, rfl⟩
    · obtain rfl : s.put as = t := Except.ok.inj ((hf.fits s hs).symm.trans hft)
      rcases hg.only _ s' hgt with ht | ⟨rfl, rfl⟩
      · left
        simpa [length_write hs, Nat.add_assoc] using ht
      · left
        simpa using hs
    · simpa using hg.only t s' hgt

/-- Exactly where the bytes fit, the writer returns. -/
theorem Writes.ok_iff {f : Buffer → Except ε Buffer} (h : Writes f bs) (hne : bs ≠ []) :
    f s = .ok s' ↔ s.offset + bs.length ≤ s.encoded.length ∧ s' = s.put bs := by
  constructor
  · intro hf
    rcases h.only s s' hf with hs | ⟨hnil, -⟩
    · exact ⟨hs, Except.ok.inj (hf.symm.trans (h.fits s hs))⟩
    · exact absurd hnil hne
  · rintro ⟨hs, rfl⟩
    exact h.fits s hs

/-! ## Readers -/

/-- Where `bs` stand at the offset, `f` returns `a` and passes them. -/
def Reads (f : Buffer → Except ε (α × Buffer)) (a : α) (bs : Bytes) : Prop :=
  ∀ s, s.offset ≤ s.encoded.length → bs <+: s.encoded.drop s.offset →
    f s = .ok (a, s.skip bs.length)

/-- A decoder that reads nothing. -/
theorem Reads.nil (a : α) : Reads (fun s => (.ok (a, s) : Except ε (α × Buffer))) a [] :=
  fun _ _ _ => rfl

/-- Bytes that stand at an offset end in the buffer. -/
theorem offset_add_le (hs : s.offset ≤ s.encoded.length)
    (h : bs <+: s.encoded.drop s.offset) : s.offset + bs.length ≤ s.encoded.length := by
  have hlen := h.length_le
  rw [List.length_drop] at hlen
  omega

/-- Where `as ++ bs` stand, `as` stand, and `bs` behind them. -/
theorem prefix_append (hs : s.offset ≤ s.encoded.length)
    (h : as ++ bs <+: s.encoded.drop s.offset) :
    as <+: s.encoded.drop s.offset ∧
      (s.skip as.length).offset ≤ (s.skip as.length).encoded.length ∧
      bs <+: (s.skip as.length).encoded.drop (s.skip as.length).offset := by
  have hend := offset_add_le hs h
  rw [List.length_append] at hend
  obtain ⟨rest, hrest⟩ := h
  refine ⟨⟨bs ++ rest, by rw [← hrest, List.append_assoc]⟩, ?_, rest, ?_⟩
  · simp only [Buffer.offset_skip, Buffer.encoded_skip]
    omega
  · rw [Buffer.encoded_skip, Buffer.offset_skip, ← List.drop_drop, ← hrest, List.append_assoc,
      List.drop_left]

/-- One reader after another. -/
theorem Reads.bind {f : Buffer → Except ε (α × Buffer)}
    {g : α × Buffer → Except ε (β × Buffer)} (hf : Reads f a as)
    (hg : Reads (fun s => g (a, s)) b bs) : Reads (fun s => f s >>= g) b (as ++ bs) := by
  intro s hs h
  obtain ⟨has, hmid, hbs⟩ := prefix_append hs h
  have hstep : g (a, s.skip as.length) = .ok (b, (s.skip as.length).skip bs.length) :=
    hg _ hmid hbs
  change f s >>= g = _
  rw [hf s hs has, ok_bind, hstep, Buffer.skip_skip, List.length_append]

/-- A reader whose value is changed. -/
theorem Reads.map {f : Buffer → Except ε (α × Buffer)} (hf : Reads f a as) (g : α → β) :
    Reads (fun s => f s >>= fun p => .ok (g p.1, p.2)) (g a) as := by
  intro s hs h
  change f s >>= _ = _
  rw [hf s hs h, ok_bind]

/-- What a writer wrote stands at the offset it started from. -/
theorem prefix_put (h : s.offset ≤ s.encoded.length) :
    bs <+: (s.put bs).encoded.drop s.offset := by
  rw [List.prefix_iff_eq_take]
  exact (slice_write h).symm

/-! ## What a reader accepts -/

/-- A value that `f` returns from a buffer of `n` bytes satisfies `P n`, and has the size
that `f` passed; the offset does not go behind the end. -/
def Accepts (f : Buffer → Except ε (α × Buffer)) (size : α → ℕ) (P : ℕ → α → Prop) : Prop :=
  ∀ s a s', f s = .ok (a, s') → s.offset ≤ s.encoded.length →
    P s.encoded.length a ∧ s' = s.skip (size a) ∧ s.offset + size a ≤ s.encoded.length

/-- A decoder that reads nothing accepts nothing. -/
theorem Accepts.pure (a : α) :
    Accepts (fun s => (.ok (a, s) : Except ε (α × Buffer))) (fun _ => 0) fun _ x => x = a := by
  intro s x s' h hs
  obtain ⟨rfl, rfl⟩ := Prod.mk.inj (Except.ok.inj h)
  exact ⟨rfl, rfl, hs⟩

/-- One reader after another. -/
theorem Accepts.bind {f : Buffer → Except ε (α × Buffer)} {size : α → ℕ} {P : ℕ → α → Prop}
    {g : α × Buffer → Except ε (β × Buffer)} {m : α → β → ℕ} {Q : α → ℕ → β → Prop}
    {t : β → ℕ} {R : ℕ → β → Prop} (hf : Accepts f size P)
    (hg : ∀ a, Accepts (fun s => g (a, s)) (m a) (Q a))
    (h : ∀ n a b, P n a → Q a n b → size a + m a b ≤ n →
      R n b ∧ t b = size a + m a b) :
    Accepts (fun s => f s >>= g) t R := by
  intro s b s' hok hs
  obtain ⟨⟨a, u⟩, hft, hgu⟩ := bind_eq_ok_iff.mp hok
  obtain ⟨hP, rfl, hu⟩ := hf s a u hft hs
  obtain ⟨hQ, rfl, hend⟩ := hg a _ b s' hgu hu
  simp only [Buffer.offset_skip, Buffer.encoded_skip] at hQ hend
  obtain ⟨hR, hsize⟩ := h _ a b hP hQ (by omega)
  exact ⟨hR, by rw [Buffer.skip_skip, hsize], by omega⟩

/-- A reader whose value is changed. -/
theorem Accepts.map {f : Buffer → Except ε (α × Buffer)} {size : α → ℕ} {P : ℕ → α → Prop}
    {t : β → ℕ} {R : ℕ → β → Prop} (hf : Accepts f size P) (how : α → β)
    (h : ∀ n a, P n a → size a ≤ n → R n (how a) ∧ t (how a) = size a) :
    Accepts (fun s => f s >>= fun p => .ok (how p.1, p.2)) t R := by
  refine hf.bind (fun a => Accepts.pure (how a)) ?_
  rintro n a b hP rfl hle
  exact h n a hP hle

end Codec
