/-
# Streams of the C library and the calls made on them

A program that uses `stdio` is seen through the calls it makes.  `Streams` is what the
library keeps: which streams are open and which numbers have been given out.

* `Streams.run` : the library after a list of calls;
* `Streams.Allows` : the calls are made on open streams only.

`fclose` ends the life of its stream whatever it returns.  A null stream argument is
`none`.
-/
import Mathlib.Data.Finset.Insert
import Mathlib.Data.Finset.Erase
import Mathlib.Data.Int.Notation

namespace Stdio

/-- A stream, numbered by the `fopen` that returned it. -/
abbrev Stream := ℕ

/-- The modes of `fopen` used for binary files. -/
inductive Mode
  | wb | ab | rb
  deriving DecidableEq, Repr

/-- A call with its arguments and its outcome. -/
inductive Call
  | fopen (filename : List UInt8) (mode : Mode) (result : Option Stream)
  | fclose (stream : Option Stream) (result : ℤ)
  | fread (stream : Option Stream) (count : ℕ) (delivered : List UInt8)
  | fwrite (stream : Option Stream) (data : List UInt8) (accepted : ℕ)
  | fseek (stream : Option Stream) (offset result : ℤ)
  | ferror (stream : Option Stream) (result : ℤ)
  | feof (stream : Option Stream) (result : Bool)
  deriving DecidableEq, Repr

/-- The call reads, writes or asks about `handle`; it opens and closes nothing. -/
def Call.On (handle : Option Stream) : Call → Prop
  | .fopen _ _ _ | .fclose _ _ => False
  | .fread stream _ _ | .fwrite stream _ _ | .fseek stream _ _ | .ferror stream _
  | .feof stream _ => stream = handle

/-- The state of the library: the open streams, all of them numbered below `next`. -/
structure Streams where
  next : Stream
  live : Finset Stream
  live_lt : ∀ s ∈ live, s < next

namespace Streams

/-- No stream has been opened. -/
def empty : Streams := ⟨0, ∅, by simp⟩

/-- The effect of one call. -/
def step (w : Streams) : Call → Streams
  | .fopen _ _ (some s) =>
    { next := max w.next (s + 1)
      live := insert s w.live
      live_lt := fun t ht => by
        rcases Finset.mem_insert.mp ht with rfl | ht
        · exact lt_max_of_lt_right (Nat.lt_succ_self t)
        · exact lt_max_of_lt_left (w.live_lt t ht) }
  | .fclose (some s) _ =>
    { next := w.next
      live := w.live.erase s
      live_lt := fun t ht => w.live_lt t (Finset.mem_of_mem_erase ht) }
  | _ => w

/-- The library after the calls `cs`. -/
def run (w : Streams) (cs : List Call) : Streams := cs.foldl step w

/-- `handle` is an open stream. -/
def IsOpen (w : Streams) (handle : Option Stream) : Prop := ∃ s, handle = some s ∧ s ∈ w.live

/-- The stream argument of the call is open. -/
def Permits (w : Streams) : Call → Prop
  | .fopen _ _ _ => True
  | .fclose stream _ | .fread stream _ _ | .fwrite stream _ _ | .fseek stream _ _
  | .ferror stream _ | .feof stream _ => w.IsOpen stream

/-- Each of the calls, made one after the other, is on a stream open at that time. -/
def Allows : Streams → List Call → Prop
  | _, [] => True
  | w, c :: cs => w.Permits c ∧ (w.step c).Allows cs

/-! ## Opening and closing -/

variable {w : Streams} {handle : Option Stream}

/-- The null pointer is no stream. -/
theorem not_isOpen_none : ¬ w.IsOpen none := fun ⟨s, h, _⟩ => Option.some_ne_none s h.symm

/-- A stream is open while it is live. -/
theorem isOpen_some {s : Stream} : w.IsOpen (some s) ↔ s ∈ w.live :=
  ⟨fun ⟨_, h, ht⟩ => Option.some.inj h ▸ ht, fun h => ⟨s, rfl, h⟩⟩

/-- A new stream is none of those that are live. -/
theorem next_notMem : w.next ∉ w.live := fun h => lt_irrefl _ (w.live_lt _ h)

@[simp] theorem run_nil : w.run [] = w := rfl

@[simp] theorem run_cons (c : Call) (cs : List Call) : w.run (c :: cs) = (w.step c).run cs := rfl

@[simp] theorem allows_nil : w.Allows [] := trivial

/-- The first call is on an open stream, and the others are behind it. -/
@[simp] theorem allows_cons (c : Call) (cs : List Call) :
    w.Allows (c :: cs) ↔ w.Permits c ∧ (w.step c).Allows cs := Iff.rfl

/-- A stream that `fopen` returned is live. -/
theorem live_fopen (filename : List UInt8) (mode : Mode) (s : Stream) :
    (w.step (.fopen filename mode (some s))).live = insert s w.live := rfl

/-! ## Calls on one stream -/

/-- A call on a stream neither opens nor closes one. -/
theorem step_of_on {c : Call} (h : c.On handle) : w.step c = w := by
  cases c with
  | fopen => exact h.elim
  | fclose => exact h.elim
  | fread | fwrite | fseek | ferror | feof => rfl

/-- A call on a stream is permitted while the stream is open. -/
theorem permits_of_on {c : Call} (h : c.On handle) : w.Permits c ↔ w.IsOpen handle := by
  cases c with
  | fopen => exact h.elim
  | fclose => exact h.elim
  | fread | fwrite | fseek | ferror | feof =>
    obtain rfl : _ = handle := h
    exact Iff.rfl

/-- Calls on one stream open and close nothing. -/
theorem run_of_on {cs : List Call} (h : ∀ c ∈ cs, c.On handle) : w.run cs = w := by
  induction cs with
  | nil => rfl
  | cons c cs ih =>
    rw [List.forall_mem_cons] at h
    rw [run_cons, step_of_on h.1]
    exact ih h.2

/-- Calls on one stream are allowed when it is open, or when there are none. -/
theorem allows_of_on {cs : List Call} (h : ∀ c ∈ cs, c.On handle) :
    w.Allows cs ↔ cs = [] ∨ w.IsOpen handle := by
  induction cs with
  | nil => exact iff_of_true trivial (Or.inl rfl)
  | cons c cs ih =>
    rw [List.forall_mem_cons] at h
    rw [allows_cons, permits_of_on h.1, step_of_on h.1, ih h.2]
    constructor
    · exact fun hc => Or.inr hc.1
    · rintro (hc | hc)
      · exact absurd hc (List.cons_ne_nil c cs)
      · exact ⟨hc, Or.inr hc⟩

end Streams

end Stdio
