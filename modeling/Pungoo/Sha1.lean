/-
# SHA-1, `redis_cluster/sha1.cpp`

A context collects data in a buffer of 64 bytes and transforms its state with each full one; the
blocks behind the first are not copied.  It counts the bits in two words.  At the end the message
is padded to whole blocks by the same function that takes the data.

`Option` is `none` where `memcpy` would leave the buffer.
-/
import Mathlib.Tactic.Ring
import Pungoo.BlockHash
import Pungoo.Wire

namespace Sha1

open BlockHash Wire

/-! ## A block -/

/-- The words of a state, and the working variables. -/
structure Regs where
  a : UInt32
  b : UInt32
  c : UInt32
  d : UInt32
  e : UInt32
  deriving DecidableEq, Repr

/-- `rol(value, bits)`. -/
def rol (value bits : UInt32) : UInt32 := (value <<< bits) ||| (value >>> (32 - bits))

/-- `blk0`: the words of a block, the highest byte first. -/
def words (buffer : Bytes) : List UInt32 :=
  (List.range 16).map fun i => UInt32.ofNat (ofBe (slice buffer (4 * i) 4))

/-- `blk(i)`: the block with the next word of the expansion. -/
def blk (i : ℕ) (l : List UInt32) : List UInt32 :=
  l.set (i % 16) (rol (l.getD ((i + 13) % 16) 0 ^^^ l.getD ((i + 8) % 16) 0 ^^^
    l.getD ((i + 2) % 16) 0 ^^^ l.getD (i % 16) 0) 1)

/-- The functions and constants of `R0` to `R4`. -/
def mix (i : ℕ) (r : Regs) : UInt32 :=
  if i < 20 then ((r.b &&& (r.c ^^^ r.d)) ^^^ r.d) + 0x5A827999
  else if i < 40 then (r.b ^^^ r.c ^^^ r.d) + 0x6ED9EBA1
  else if i < 60 then (((r.b ||| r.c) &&& r.d) ||| (r.b &&& r.c)) + 0x8F1BBCDC
  else (r.b ^^^ r.c ^^^ r.d) + 0xCA62C1D6

/-- A round.  The source renames the variables from round to round where this moves them. -/
def round (s : Regs × List UInt32) (i : ℕ) : Regs × List UInt32 :=
  let l := if i < 16 then s.2 else blk i s.2
  let r := s.1
  (⟨r.e + mix i r + l.getD (i % 16) 0 + rol r.a 5, r.a, rol r.b 30, r.c, r.d⟩, l)

/-- `SHA1Transform(state, buffer)`. -/
def sha1Transform (state : Regs) (buffer : Bytes) : Regs :=
  let r := ((List.range 80).foldl round (state, words buffer)).1
  ⟨state.a + r.a, state.b + r.b, state.c + r.c, state.d + r.d, state.e + r.e⟩

/-! ## A context -/

/-- `SHA1_CTX`. -/
structure Ctx where
  state : Regs
  count0 : UInt32
  count1 : UInt32
  buffer : Bytes

/-- The initial state. -/
def initial : Regs := ⟨0x67452301, 0xEFCDAB89, 0x98BADCFE, 0x10325476, 0xC3D2E1F0⟩

/-- `SHA1Init(context)`; the buffer is not set. -/
def sha1Init (buffer : Bytes) : Ctx where
  state := initial
  count0 := 0
  count1 := 0
  buffer := buffer

/-- `memcpy` into the buffer. -/
def memcpy (buffer : Bytes) (o : ℕ) (bs : Bytes) : Option Bytes :=
  if o + bs.length ≤ buffer.length then some (write buffer o bs) else none

/-- The loop over whole blocks: the offset and the state behind it. -/
def transformLoop (data : Bytes) (len : ℕ) : ℕ → ℕ → Regs → ℕ × Regs
  | 0, i, state => (i, state)
  | fuel + 1, i, state =>
    if (i + 63) % 2 ^ 32 < len then
      transformLoop data len fuel (i + 64) (sha1Transform state (slice data i 64))
    else (i, state)

/-- `SHA1Update(context, data, len)`; `len` is a `uint32_t`. -/
def sha1Update (context : Ctx) (data : Bytes) : Option Ctx :=
  let len := data.length % 2 ^ 32
  let count0 := context.count0 + (UInt32.ofNat len <<< 3)
  let carried := if count0 < context.count0 then context.count1 + 1 else context.count1
  let count1 := carried + (UInt32.ofNat len >>> 29)
  let j := ((context.count0 >>> 3) &&& 63).toNat
  if 63 < (j + len) % 2 ^ 32 then
    (memcpy context.buffer j (slice data 0 (64 - j))).bind fun buffer =>
    let (i, state) := transformLoop data len len (64 - j) (sha1Transform context.state buffer)
    (memcpy buffer 0 (slice data i (len - i))).map fun buffer => ⟨state, count0, count1, buffer⟩
  else
    (memcpy context.buffer j (slice data 0 len)).map fun buffer =>
      ⟨context.state, count0, count1, buffer⟩

/-- The loop of `SHA1Final` that pads with zeros. -/
def padLoop : ℕ → Ctx → Option Ctx
  | 0, _ => none
  | fuel + 1, context =>
    if context.count0 &&& 504 ≠ 448 then (sha1Update context [0]).bind (padLoop fuel)
    else some context

/-- The bytes of a state, `digest`. -/
def digest (state : Regs) : Bytes :=
  be 4 state.a.toNat ++ be 4 state.b.toNat ++ be 4 state.c.toNat ++ be 4 state.d.toNat ++
    be 4 state.e.toNat

/-- `SHA1Final(digest, context)`. -/
def sha1Final (context : Ctx) : Option Bytes :=
  let finalcount := be 4 context.count1.toNat ++ be 4 context.count0.toNat
  (sha1Update context [0x80]).bind fun context =>
  (padLoop 64 context).bind fun context =>
  (sha1Update context finalcount).map fun context => digest context.state

/-! ## The standard -/

/-- A message with its padding: a bit, zeros, and the number of its bits. -/
def padded (m : Bytes) : Bytes :=
  m ++ 0x80 :: (List.replicate ((119 - m.length % 64) % 64) 0 ++ be 8 (8 * m.length))

/-- The hash of a message: its blocks, one after another. -/
def sha1 (m : Bytes) : Bytes := digest (feed 64 sha1Transform (initial, []) (padded m)).1

/-! ## A context is a message -/

/-- The context has taken the message. -/
structure Holds (context : Ctx) (m : Bytes) : Prop where
  fed : feed 64 sha1Transform (initial, []) m =
    (context.state, context.buffer.take (m.length % 64))
  size : context.buffer.length = 64
  count : context.count1.toNat * 2 ^ 32 + context.count0.toNat = 8 * m.length

section Context

variable {context : Ctx} {m data : Bytes}

theorem holds_init {buffer : Bytes} (h : buffer.length = 64) : Holds (sha1Init buffer) [] :=
  ⟨by simp [feed, sha1Init], h, by simp [sha1Init]⟩

theorem memcpy_fits {buffer bs : Bytes} {o : ℕ} (h : o + bs.length ≤ buffer.length) :
    memcpy buffer o bs = some (write buffer o bs) := if_pos h

/-- The offset in the buffer. -/
theorem offset_eq (h : Holds context m) :
    ((context.count0 >>> 3) &&& 63).toNat = m.length % 64 := by
  have hcount := h.count
  have hmask : (context.count0.toNat / 8) &&& 63 = context.count0.toNat / 8 % 64 :=
    Nat.and_two_pow_sub_one_eq_mod _ 6
  have hshift : ((context.count0 >>> 3) &&& 63).toNat = (context.count0.toNat / 8) &&& 63 := by
    simp [Nat.shiftRight_eq_div_pow]
  rw [hshift, hmask]
  omega

/-- A sum in two words, with a carry from the lower to the higher. -/
theorem carry_eq {low high carried len n : ℕ} (hcount : high * 2 ^ 32 + low = n)
    (htotal : n + 8 * len < 2 ^ 64) (hlow : low < 2 ^ 32) (hhigh : high < 2 ^ 32)
    (hcarried : (low + 8 * len % 2 ^ 32) % 2 ^ 32 < low ∧ carried = (high + 1) % 2 ^ 32 ∨
      ¬ (low + 8 * len % 2 ^ 32) % 2 ^ 32 < low ∧ carried = high % 2 ^ 32) :
    (carried + len / 2 ^ 29) % 2 ^ 32 * 2 ^ 32 + (low + 8 * len % 2 ^ 32) % 2 ^ 32 =
      n + 8 * len := by
  have hsplit : 8 * len = len / 2 ^ 29 * 2 ^ 32 + 8 * len % 2 ^ 32 := by omega
  obtain ⟨top, htop⟩ : ∃ top, len / 2 ^ 29 = top := ⟨_, rfl⟩
  obtain ⟨rest, hrest⟩ : ∃ rest, 8 * len % 2 ^ 32 = rest := ⟨_, rfl⟩
  have hlt : rest < 2 ^ 32 := hrest ▸ Nat.mod_lt _ (by decide)
  rw [htop, hrest] at hsplit
  rw [hrest] at hcarried
  rw [htop, hrest, hsplit]
  rw [hsplit] at htotal
  clear hsplit htop hrest
  rcases hcarried with ⟨hless, rfl⟩ | ⟨hless, rfl⟩
  · have hge : 2 ^ 32 ≤ low + rest := by
      by_contra hsmall
      rw [Nat.mod_eq_of_lt (by omega)] at hless
      omega
    have hrest : (low + rest) % 2 ^ 32 = low + rest - 2 ^ 32 := by
      rw [Nat.mod_eq_sub_mod hge, Nat.mod_eq_of_lt (by omega)]
    have hfits : high + 1 + top < 2 ^ 32 := by omega
    rw [hrest, Nat.mod_eq_of_lt (show high + 1 < 2 ^ 32 by omega), Nat.mod_eq_of_lt hfits,
      ← hcount]
    have hprod : (high + 1 + top) * 2 ^ 32 = high * 2 ^ 32 + 2 ^ 32 + top * 2 ^ 32 := by ring
    rw [hprod]
    generalize (2 : ℕ) ^ 32 = width at *
    omega
  · have hsmall : low + rest < 2 ^ 32 := by
      by_contra hge
      rw [Nat.mod_eq_sub_mod (by omega), Nat.mod_eq_of_lt (by omega)] at hless
      omega
    have hfits : high + top < 2 ^ 32 := by omega
    rw [Nat.mod_eq_of_lt hsmall, Nat.mod_eq_of_lt hhigh, Nat.mod_eq_of_lt hfits, ← hcount]
    ring

/-- The counter. -/
theorem count_eq {count0 count1 : UInt32} {n : ℕ} (len : ℕ)
    (hcount : count1.toNat * 2 ^ 32 + count0.toNat = n) (hlen : len < 2 ^ 32)
    (htotal : n + 8 * len < 2 ^ 64) :
    let next := count0 + (UInt32.ofNat len <<< 3)
    ((if next < count0 then count1 + 1 else count1) + (UInt32.ofNat len >>> 29)).toNat * 2 ^ 32 +
      next.toNat = n + 8 * len := by
  intro next
  have hnat : (UInt32.ofNat len).toNat = len := by
    rw [UInt32.toNat_ofNat']
    omega
  have hleft : (UInt32.ofNat len <<< 3).toNat = 8 * len % 2 ^ 32 := by
    rw [UInt32.toNat_shiftLeft, hnat, Nat.shiftLeft_eq]
    congr 1
    simp
    omega
  have hright : (UInt32.ofNat len >>> 29).toNat = len / 2 ^ 29 := by
    rw [UInt32.toNat_shiftRight, hnat, Nat.shiftRight_eq_div_pow]
    rfl
  have hnext : next.toNat = (count0.toNat + 8 * len % 2 ^ 32) % 2 ^ 32 := by
    rw [UInt32.toNat_add, hleft]
  have h0 := count0.toNat_lt
  have h1 := count1.toNat_lt
  have hone : (1 : UInt32).toNat = 1 := rfl
  split
  next hcarry =>
    rw [UInt32.lt_iff_toNat_lt, hnext] at hcarry
    rw [UInt32.toNat_add, UInt32.toNat_add, hright, hone, hnext]
    exact carry_eq hcount htotal h0 h1 (.inl ⟨hcarry, rfl⟩)
  next hcarry =>
    rw [UInt32.lt_iff_toNat_lt, hnext] at hcarry
    rw [UInt32.toNat_add, hright, hnext]
    exact carry_eq hcount htotal h0 h1 (.inr ⟨hcarry, (Nat.mod_eq_of_lt h1).symm⟩)

/-- The whole blocks of the data. -/
theorem transformLoop_eq {i : ℕ} (fuel : ℕ) (state : Regs) (hlen : data.length + 64 < 2 ^ 32)
    (hi : i ≤ data.length) (hfuel : data.length - i < fuel) :
    ∃ i' state', transformLoop data data.length fuel i state = (i', state') ∧
      i' ≤ data.length ∧ data.length - i' < 64 ∧
      feed 64 sha1Transform (state, []) (data.drop i) = (state', data.drop i') := by
  induction fuel generalizing i state with
  | zero => omega
  | succ fuel ih =>
    have hmod : (i + 63) % 2 ^ 32 = i + 63 := Nat.mod_eq_of_lt (by omega)
    by_cases hmore : i + 63 < data.length
    · have hblock : (slice data i 64).length = 64 := by
        rw [slice, List.length_take, List.length_drop]
        omega
      have hsplit : data.drop i = slice data i 64 ++ data.drop (i + 64) := by
        rw [slice, ← List.drop_drop, List.take_append_drop]
      have hne : slice data i 64 ≠ [] := by
        rw [← List.length_pos_iff]
        omega
      obtain ⟨i', state', hloop, hi', hrest, hfeed⟩ :=
        ih (i := i + 64) (sha1Transform state (slice data i 64)) (by omega) (by omega)
      refine ⟨i', state', ?_, hi', hrest, ?_⟩
      · rw [transformLoop, hmod, if_pos hmore, hloop]
      · rw [hsplit, feed_append, feed_fill hne (by simpa using hblock), List.nil_append, hfeed]
    · refine ⟨i, state, ?_, hi, by omega, ?_⟩
      · rw [transformLoop, hmod, if_neg hmore]
      · have hshort : ([] : Bytes).length + (data.drop i).length < 64 := by
          rw [List.length_nil, List.length_drop]
          omega
        rw [feed_short hshort, List.nil_append]

theorem length_fed (h : Holds context m) :
    (context.buffer.take (m.length % 64)).length = m.length % 64 := by
  have hsize := h.size
  have hless : m.length % 64 < 64 := Nat.mod_lt _ (by decide)
  rw [List.length_take]
  omega

/-- What is left of the data when they fill the block, and the state that the message has then. -/
theorem transformLoop_fed (h : Holds context m) (hlen : data.length + 64 < 2 ^ 32) {j : ℕ}
    (hj : m.length % 64 = j) (hfull : 63 < j + data.length) :
    ∃ i state, transformLoop data data.length data.length (64 - j)
        (sha1Transform context.state (write context.buffer j (slice data 0 (64 - j)))) =
          (i, state) ∧
      feed 64 sha1Transform (initial, []) (m ++ data) = (state, data.drop i) ∧
      (data.drop i).length = (m ++ data).length % 64 ∧ (data.drop i).length < 64 := by
  have hj64 : j < 64 := hj ▸ Nat.mod_lt _ (by decide)
  have hsize := h.size
  have htake : (context.buffer.take j).length = j := hj ▸ length_fed h
  have hfed : feed 64 sha1Transform (initial, []) m = (context.state, context.buffer.take j) :=
    hj ▸ h.fed
  have hfront : (slice data 0 (64 - j)).length = 64 - j := by
    rw [slice, List.drop_zero, List.length_take]
    omega
  have hne : slice data 0 (64 - j) ≠ [] := by
    rw [← List.length_pos_iff]
    omega
  have hblock : write context.buffer j (slice data 0 (64 - j)) =
      context.buffer.take j ++ slice data 0 (64 - j) := by
    rw [write, List.drop_of_length_le (by omega), List.append_nil]
  have hsplit : data = slice data 0 (64 - j) ++ data.drop (64 - j) := by
    rw [slice, List.drop_zero, List.take_append_drop]
  obtain ⟨i, state, hloop, hi, hrest, hfeed⟩ := transformLoop_eq data.length
    (sha1Transform context.state (write context.buffer j (slice data 0 (64 - j)))) hlen
    (show 64 - j ≤ data.length by omega) (by omega)
  have hall : feed 64 sha1Transform (initial, []) (m ++ data) = (state, data.drop i) := by
    rw [feed_append, hfed]
    conv_lhs => rw [hsplit]
    rw [feed_append, feed_fill hne (by omega), ← hblock, hfeed]
  have hlast : (data.drop i).length = (m ++ data).length % 64 := by
    have hleft := length_feed (f := sha1Transform) (s := initial) (m ++ data)
      (show ([] : Bytes).length < 64 by decide)
    rwa [hall, List.length_nil, Nat.zero_add] at hleft
  exact ⟨i, state, hloop, hall, hlast, by rw [List.length_drop]; exact hrest⟩

/-- A call adds its data to the message. -/
theorem sha1Update_holds (data : Bytes) (h : Holds context m) (hlen : data.length + 64 < 2 ^ 32)
    (htotal : 8 * (m.length + data.length) < 2 ^ 64) :
    ∃ next, sha1Update context data = some next ∧ Holds next (m ++ data) := by
  have hmod : data.length % 2 ^ 32 = data.length := Nat.mod_eq_of_lt (by omega)
  have hoffset := offset_eq h
  have hcount := count_eq data.length h.count (by omega) (by omega)
  have hcount' : ∀ x, x = 8 * m.length + 8 * data.length → x = 8 * (m ++ data).length := by
    rintro x rfl
    rw [List.length_append]
    ring
  obtain ⟨j, hj⟩ : ∃ j, m.length % 64 = j := ⟨_, rfl⟩
  have hj64 : j < 64 := hj ▸ Nat.mod_lt _ (by decide)
  have hsize := h.size
  have htake : (context.buffer.take j).length = j := hj ▸ length_fed h
  unfold sha1Update
  simp only [hmod, hoffset, hj]
  rw [Nat.mod_eq_of_lt (show j + data.length < 2 ^ 32 by omega)]
  by_cases hfull : 63 < j + data.length
  · -- the block is filled, whole blocks follow, and the rest starts a new one
    obtain ⟨i, state, hloop, hall, hlast, hrest⟩ := transformLoop_fed h hlen hj hfull
    have hfits : j + (slice data 0 (64 - j)).length ≤ context.buffer.length := by
      rw [slice, List.drop_zero, List.length_take]
      omega
    have htail : slice data i (data.length - i) = data.drop i := by
      rw [slice, List.take_of_length_le (by rw [List.length_drop])]
    have hbuffer : (write context.buffer j (slice data 0 (64 - j))).length = 64 := by
      rw [length_write hfits, hsize]
    have hfits' : 0 + (data.drop i).length ≤
        (write context.buffer j (slice data 0 (64 - j))).length := by omega
    rw [if_pos hfull, memcpy_fits hfits, Option.bind_some, hloop]
    simp only [htail]
    rw [memcpy_fits hfits', Option.map_some]
    refine ⟨_, rfl, ?_, ?_, hcount' _ hcount⟩
    · rw [hall, ← hlast, write, List.take_zero, List.nil_append, List.take_left]
    · rw [length_write hfits', hbuffer]
  · have hslice : slice data 0 data.length = data := by
      rw [slice, List.drop_zero, List.take_length]
    have hfits : j + data.length ≤ context.buffer.length := by omega
    rw [if_neg hfull, hslice, memcpy_fits hfits, Option.map_some]
    refine ⟨_, rfl, ?_, ?_, hcount' _ hcount⟩
    · have hlast : (m ++ data).length % 64 = j + data.length := by
        rw [List.length_append]
        omega
      have hwritten : (write context.buffer j data).take (j + data.length) =
          context.buffer.take j ++ data := by
        rw [write]
        exact List.take_left' (by rw [List.length_append, htake])
      rw [feed_append, h.fed, hj, feed_short (by omega), hlast, hwritten]
    · rw [length_write hfits, hsize]

/-- The test of the padding loop. -/
theorem mask_eq (h : Holds context m) : context.count0 &&& 504 = 448 ↔ m.length % 64 = 56 := by
  have hcount := h.count
  have hbits : context.count0.toNat = (m.length % 2 ^ 29) <<< 3 := by
    have hlt := context.count0.toNat_lt
    rw [Nat.shiftLeft_eq]
    omega
  have hmask : (context.count0 &&& 504).toNat = m.length % 64 * 8 := by
    have hconst : (504 : UInt32).toNat = 63 <<< 3 := rfl
    have hlow : (m.length % 2 ^ 29) &&& 63 = m.length % 2 ^ 29 % 64 :=
      Nat.and_two_pow_sub_one_eq_mod _ 6
    rw [UInt32.toNat_and, hbits, hconst, ← Nat.shiftLeft_and_distrib, hlow, Nat.shiftLeft_eq]
    omega
  have hconst : (448 : UInt32).toNat = 448 := rfl
  rw [← UInt32.toNat_inj, hmask, hconst]
  omega

/-- Zeros are added up to the place of the number of bits. -/
theorem padLoop_holds {k : ℕ} (fuel : ℕ) (h : Holds context m) (hk : (m.length + k) % 64 = 56)
    (hless : k < 64) (hfuel : k < fuel) (htotal : 8 * (m.length + k) < 2 ^ 64) :
    ∃ next, padLoop fuel context = some next ∧ Holds next (m ++ List.replicate k 0) := by
  induction k generalizing context m fuel with
  | zero =>
    obtain ⟨fuel, rfl⟩ := Nat.exists_eq_add_one_of_ne_zero (by omega : fuel ≠ 0)
    have hdone := (mask_eq h).mpr hk
    exact ⟨context, by rw [padLoop, if_neg (by simp [hdone])], by simpa using h⟩
  | succ k ih =>
    obtain ⟨fuel, rfl⟩ := Nat.exists_eq_add_one_of_ne_zero (by omega : fuel ≠ 0)
    have hmore : context.count0 &&& 504 ≠ 448 := by
      intro hdone
      have := (mask_eq h).mp hdone
      omega
    obtain ⟨context', hupdate, h'⟩ := sha1Update_holds [0] h (by simp)
      (by rw [List.length_singleton]; omega)
    have hlen : (m ++ [0]).length = m.length + 1 := by simp
    obtain ⟨next, hloop, hnext⟩ := ih fuel h' (by rw [hlen]; omega) (by omega)
      (by omega) (by rw [hlen]; omega)
    refine ⟨next, ?_, ?_⟩
    · rw [padLoop, if_pos hmore, hupdate, Option.bind_some, hloop]
    · rw [List.replicate_succ, ← List.singleton_append, ← List.append_assoc]
      exact hnext

/-- The two words of the counter are the number of bits. -/
theorem finalcount_eq (h : Holds context m) :
    be 4 context.count1.toNat ++ be 4 context.count0.toNat = be 8 (8 * m.length) := by
  have hlow := context.count0.toNat_lt
  have hfirst : be 8 (8 * m.length) = be 4 (8 * m.length / 256 ^ 4) ++ be 4 (8 * m.length) := by
    simp only [be, Nat.div_div_eq_div_mul]
    rfl
  have hsecond : be 4 (8 * m.length) = be 4 context.count0.toNat := by
    rw [← be_mod, ← h.count]
    congr 1
    omega
  have hdiv : 8 * m.length / 256 ^ 4 = context.count1.toNat := by
    rw [← h.count]
    omega
  rw [hfirst, hsecond, hdiv]

/-- At the end a context has the hash of its message. -/
theorem sha1Final_eq (h : Holds context m) (htotal : 8 * (m.length + 128) < 2 ^ 64) :
    sha1Final context = some (sha1 m) := by
  obtain ⟨c₁, hbit, h₁⟩ := sha1Update_holds [0x80] h (by simp)
    (by rw [List.length_singleton]; omega)
  have hlen₁ : (m ++ [0x80]).length = m.length + 1 := by simp
  obtain ⟨c₂, hzeros, h₂⟩ := padLoop_holds 64 (k := (119 - m.length % 64) % 64) h₁
    (by rw [hlen₁]; omega) (by omega) (by omega) (by rw [hlen₁]; omega)
  have hlen₂ : (m ++ [0x80] ++ List.replicate ((119 - m.length % 64) % 64) 0).length ≤
      m.length + 64 := by
    rw [List.length_append, hlen₁, List.length_replicate]
    omega
  have hlen₃ : (be 8 (8 * m.length)).length = 8 := length_be 8 _
  obtain ⟨c₃, hcount, h₃⟩ := sha1Update_holds (be 8 (8 * m.length)) h₂
    (by rw [hlen₃]; decide) (by rw [hlen₃]; omega)
  have hpadded : m ++ [0x80] ++ List.replicate ((119 - m.length % 64) % 64) 0 ++
      be 8 (8 * m.length) = padded m := by
    simp [padded]
  have hstate : (feed 64 sha1Transform (initial, []) (padded m)).1 = c₃.state := by
    rw [← hpadded, h₃.fed]
  unfold sha1Final sha1
  simp only [finalcount_eq h, hbit, Option.bind_some, hzeros, hcount, Option.map_some, hstate]

/-- Calls with parts of a message, however it is divided, take the message. -/
theorem foldlM_sha1Update (parts : List Bytes) (h : Holds context m)
    (hparts : ∀ part ∈ parts, part.length + 64 < 2 ^ 32)
    (htotal : 8 * (m.length + parts.flatten.length) < 2 ^ 64) :
    ∃ next, parts.foldlM sha1Update context = some next ∧ Holds next (m ++ parts.flatten) := by
  induction parts generalizing context m with
  | nil => exact ⟨context, rfl, by simpa using h⟩
  | cons part parts ih =>
    rw [List.forall_mem_cons] at hparts
    rw [List.flatten_cons, List.length_append] at htotal
    obtain ⟨context', hupdate, h'⟩ := sha1Update_holds part h hparts.1 (by omega)
    obtain ⟨next, hrest, hnext⟩ := ih h' hparts.2 (by rw [List.length_append]; omega)
    refine ⟨next, ?_, ?_⟩
    · rw [List.foldlM_cons, hupdate]
      exact hrest
    · rw [List.flatten_cons, ← List.append_assoc]
      exact hnext

end Context

/-- A message in parts has the hash of the whole message, with its padding, whatever the buffer
of the new context holds; no call leaves the buffer, and the padding ends. -/
theorem sha1_parts (buffer : Bytes) (parts : List Bytes) (hbuffer : buffer.length = 64)
    (hparts : ∀ part ∈ parts, part.length + 64 < 2 ^ 32)
    (htotal : 8 * (parts.flatten.length + 128) < 2 ^ 64) :
    (parts.foldlM sha1Update (sha1Init buffer)).bind sha1Final = some (sha1 parts.flatten) := by
  obtain ⟨context, htaken, h⟩ := foldlM_sha1Update parts (holds_init hbuffer) hparts
    (by rw [List.length_nil]; omega)
  rw [htaken, Option.bind_some]
  rw [List.nil_append] at h
  exact sha1Final_eq h htotal

theorem sha1_parts_abc :
    ([[97], [98, 99]].foldlM sha1Update (sha1Init (List.replicate 64 0))).bind sha1Final =
      some (sha1 [97, 98, 99]) :=
  sha1_parts (List.replicate 64 0) [[97], [98, 99]] (by decide) (by simp) (by decide)

-- the test vector of the source
example : sha1 [97, 98, 99] = [0xA9, 0x99, 0x3E, 0x36, 0x47, 0x06, 0x81, 0x6A, 0xBA, 0x3E, 0x25,
    0x71, 0x78, 0x50, 0xC2, 0x6C, 0x9C, 0xD0, 0xD8, 0x9D] := by
  decide +kernel

end Sha1
