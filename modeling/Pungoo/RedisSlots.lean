/-
# Slots of a cluster, `redis_cluster/crc16.cpp` and `redis_cluster/r3c.cpp`

A key of a cluster is in one of 16384 slots: the lower bits of the check `crc16` of the key, or of
the part of the key between braces, so that keys can be kept together.
-/
import Pungoo.Crc

namespace RedisSlots

open Crc Polynomial

/-! ## The code -/

/-- A string of bytes. -/
abbrev Str := List (BitVec 8)

/-- `crc16tab`. -/
def crc16tab : List (BitVec 16) := [
  0x0000, 0x1021, 0x2042, 0x3063, 0x4084, 0x50a5, 0x60c6, 0x70e7,
  0x8108, 0x9129, 0xa14a, 0xb16b, 0xc18c, 0xd1ad, 0xe1ce, 0xf1ef,
  0x1231, 0x0210, 0x3273, 0x2252, 0x52b5, 0x4294, 0x72f7, 0x62d6,
  0x9339, 0x8318, 0xb37b, 0xa35a, 0xd3bd, 0xc39c, 0xf3ff, 0xe3de,
  0x2462, 0x3443, 0x0420, 0x1401, 0x64e6, 0x74c7, 0x44a4, 0x5485,
  0xa56a, 0xb54b, 0x8528, 0x9509, 0xe5ee, 0xf5cf, 0xc5ac, 0xd58d,
  0x3653, 0x2672, 0x1611, 0x0630, 0x76d7, 0x66f6, 0x5695, 0x46b4,
  0xb75b, 0xa77a, 0x9719, 0x8738, 0xf7df, 0xe7fe, 0xd79d, 0xc7bc,
  0x48c4, 0x58e5, 0x6886, 0x78a7, 0x0840, 0x1861, 0x2802, 0x3823,
  0xc9cc, 0xd9ed, 0xe98e, 0xf9af, 0x8948, 0x9969, 0xa90a, 0xb92b,
  0x5af5, 0x4ad4, 0x7ab7, 0x6a96, 0x1a71, 0x0a50, 0x3a33, 0x2a12,
  0xdbfd, 0xcbdc, 0xfbbf, 0xeb9e, 0x9b79, 0x8b58, 0xbb3b, 0xab1a,
  0x6ca6, 0x7c87, 0x4ce4, 0x5cc5, 0x2c22, 0x3c03, 0x0c60, 0x1c41,
  0xedae, 0xfd8f, 0xcdec, 0xddcd, 0xad2a, 0xbd0b, 0x8d68, 0x9d49,
  0x7e97, 0x6eb6, 0x5ed5, 0x4ef4, 0x3e13, 0x2e32, 0x1e51, 0x0e70,
  0xff9f, 0xefbe, 0xdfdd, 0xcffc, 0xbf1b, 0xaf3a, 0x9f59, 0x8f78,
  0x9188, 0x81a9, 0xb1ca, 0xa1eb, 0xd10c, 0xc12d, 0xf14e, 0xe16f,
  0x1080, 0x00a1, 0x30c2, 0x20e3, 0x5004, 0x4025, 0x7046, 0x6067,
  0x83b9, 0x9398, 0xa3fb, 0xb3da, 0xc33d, 0xd31c, 0xe37f, 0xf35e,
  0x02b1, 0x1290, 0x22f3, 0x32d2, 0x4235, 0x5214, 0x6277, 0x7256,
  0xb5ea, 0xa5cb, 0x95a8, 0x8589, 0xf56e, 0xe54f, 0xd52c, 0xc50d,
  0x34e2, 0x24c3, 0x14a0, 0x0481, 0x7466, 0x6447, 0x5424, 0x4405,
  0xa7db, 0xb7fa, 0x8799, 0x97b8, 0xe75f, 0xf77e, 0xc71d, 0xd73c,
  0x26d3, 0x36f2, 0x0691, 0x16b0, 0x6657, 0x7676, 0x4615, 0x5634,
  0xd94c, 0xc96d, 0xf90e, 0xe92f, 0x99c8, 0x89e9, 0xb98a, 0xa9ab,
  0x5844, 0x4865, 0x7806, 0x6827, 0x18c0, 0x08e1, 0x3882, 0x28a3,
  0xcb7d, 0xdb5c, 0xeb3f, 0xfb1e, 0x8bf9, 0x9bd8, 0xabbb, 0xbb9a,
  0x4a75, 0x5a54, 0x6a37, 0x7a16, 0x0af1, 0x1ad0, 0x2ab3, 0x3a92,
  0xfd2e, 0xed0f, 0xdd6c, 0xcd4d, 0xbdaa, 0xad8b, 0x9de8, 0x8dc9,
  0x7c26, 0x6c07, 0x5c64, 0x4c45, 0x3ca2, 0x2c83, 0x1ce0, 0x0cc1,
  0xef1f, 0xff3e, 0xcf5d, 0xdf7c, 0xaf9b, 0xbfba, 0x8fd9, 0x9ff8,
  0x6e17, 0x7e36, 0x4e55, 0x5e74, 0x2e93, 0x3eb2, 0x0ed1, 0x1ef0]

/-- The table has an entry for every byte. -/
theorem length_crc16tab : crc16tab.length = 2 ^ 8 := by decide +kernel

/-- `crc16tab[i & 0x00FF]`. -/
def tabEntry (i : BitVec 8) : BitVec 16 := crc16tab.get ⟨i.toNat, length_crc16tab ▸ i.isLt⟩

/-- `crc16(buf, len)`, of the first `len` bytes of `buf`. -/
def crc16 (buf : Str) (len : ℤ) : BitVec 16 :=
  (buf.take len.toNat).foldl
    (fun crc b => (crc <<< 8) ^^^ tabEntry ((crc >>> 8).setWidth 8 ^^^ b)) 0#16

/-- A length of `size_t` as an `int`. -/
def intOf (n : ℕ) : ℤ := (BitVec.ofNat 32 n).toInt

/-- The loops of `keyHashSlot`: the first place from `s` on where `c` is, or the end. -/
def scanTo (key : Str) (c : BitVec 8) (s : ℕ) : ℕ := s + (key.drop s).findIdx (· = c)

/-- `keyHashSlot(key, keylen)`. -/
def keyHashSlot (key : Str) : BitVec 16 :=
  let keylen := key.length
  let s := scanTo key 0x7B 0
  -- no brace: the whole key
  if s = keylen then crc16 key (intOf keylen) &&& 0x3FFF
  else
    let e := scanTo key 0x7D (s + 1)
    -- no closing brace, or nothing between the braces
    if e = keylen ∨ e = s + 1 then crc16 key (intOf keylen) &&& 0x3FFF
    else crc16 (key.drop (s + 1)) (intOf (e - s - 1)) &&& 0x3FFF

/-! ## The check -/

/-- `X ^ 16 + X ^ 12 + X ^ 5 + 1` without its leading coefficient. -/
def xmodem : BitVec 16 := 0x1021

/-- The table has the remainders of all bytes. -/
theorem tabEntry_eq (b : BitVec 8) :
    tabEntry b = shifts xmodem 8 (b.setWidth 16 <<< 8) := by
  revert b
  decide +kernel

/-- The polynomial of the table. -/
theorem generator_xmodem : generator xmodem = X ^ 16 + X ^ 12 + X ^ 5 + 1 := by
  have hpoly : poly xmodem = X ^ 12 + X ^ 5 + 1 := by
    simp [poly, ofBits, Finset.sum_range_succ, xmodem]
    ring
  rw [generator, hpoly]
  ring

/-- The check is the remainder of the bytes, times `X ^ 16`, by the generator. -/
theorem crc16_remainder (buf : Str) (len : ℤ) :
    poly (crc16 buf len) =
      (X ^ 16 * message (buf.take len.toNat)) %ₘ (X ^ 16 + X ^ 12 + X ^ 5 + 1) := by
  have htable : ∀ b, residue xmodem (poly (tabEntry b)) =
      residue xmodem (X ^ 16 * poly b) := by
    intro b
    rw [tabEntry_eq]
    exact residue_table xmodem b
  rw [← generator_xmodem]
  exact poly_foldl_tableStep htable (buf.take len.toNat)

example : crc16 [49, 50, 51, 52, 53, 54, 55, 56, 57] 9 = 0x31C3 := by decide +kernel

/-! ## The slot -/

/-- The slot of what is hashed. -/
def slotOf (part : Str) : BitVec 16 := crc16 part part.length &&& 0x3FFF

/-- The first brace of the key, and the first closing brace behind it, enclose `tag`. -/
structure Tagged (key before tag after : Str) : Prop where
  eq : key = before ++ 0x7B :: (tag ++ 0x7D :: after)
  before : 0x7B ∉ before
  tag : 0x7D ∉ tag

section Slot

variable {key tag rest : Str} {c : BitVec 8} {n : ℕ}

/-- The loop stops at the first `c`. -/
theorem scanTo_found (before after : Str) (htag : c ∉ tag) :
    scanTo (before ++ (tag ++ c :: after)) c before.length = before.length + tag.length := by
  have hnone : ∀ x ∈ tag, decide (x = c) = false := by
    intro x hx
    rw [decide_eq_false_iff_not]
    rintro rfl
    exact htag hx
  rw [scanTo, List.drop_left, List.findIdx_append, List.findIdx_eq_length_of_false hnone]
  simp [List.findIdx_cons]

/-- Without a `c` the loop runs to the end. -/
theorem scanTo_end (before : Str) (hrest : c ∉ rest) :
    scanTo (before ++ rest) c before.length = (before ++ rest).length := by
  have hnone : ∀ x ∈ rest, decide (x = c) = false := by
    intro x hx
    rw [decide_eq_false_iff_not]
    rintro rfl
    exact hrest hx
  rw [scanTo, List.drop_left, List.findIdx_eq_length_of_false hnone, List.length_append]

/-- A length below 2^31 is an `int`. -/
theorem intOf_eq (h : n < 2 ^ 31) : intOf n = n := by
  have hnat : (BitVec.ofNat 32 n).toNat = n := by
    rw [BitVec.toNat_ofNat]
    omega
  rw [intOf, BitVec.toInt_eq_toNat_of_lt (by omega), hnat]

/-- A key that is hashed as a whole. -/
theorem crc16_whole (h : n < 2 ^ 31) (hn : n = key.length) :
    crc16 key (intOf n) &&& 0x3FFF = slotOf key := by
  rw [intOf_eq h, hn, slotOf]

/-- What is hashed is what the braces enclose; without braces, or with nothing between them, it
is the whole key. -/
theorem keyHashSlot_spec (key : Str) (hlen : key.length < 2 ^ 31) :
    (∀ before tag after, Tagged key before tag after → tag ≠ [] →
      keyHashSlot key = slotOf tag) ∧
    ((∀ before tag after, Tagged key before tag after → tag = []) →
      keyHashSlot key = slotOf key) := by
  constructor
  · rintro before tag after ⟨rfl, hbefore, htag⟩ hne
    have hs : scanTo (before ++ 0x7B :: (tag ++ 0x7D :: after)) 0x7B 0 = before.length := by
      simpa using scanTo_found [] _ hbefore
    have he : scanTo (before ++ 0x7B :: (tag ++ 0x7D :: after)) 0x7D (before.length + 1) =
        before.length + 1 + tag.length := by
      simpa using scanTo_found (before ++ [0x7B#8]) after htag
    have hpos := List.length_pos_iff.mpr hne
    have hdrop : (before ++ 0x7B :: (tag ++ 0x7D :: after)).drop (before.length + 1) =
        tag ++ 0x7D :: after := by simp
    have hpart : before.length + 1 + tag.length - before.length - 1 = tag.length := by omega
    simp only [List.length_append, List.length_cons] at hlen
    simp only [keyHashSlot, hs, he, hdrop, hpart, List.length_append, List.length_cons]
    rw [if_neg (by omega), if_neg (by omega), intOf_eq (by omega), slotOf]
    simp [crc16]
  · intro hnone
    by_cases hopen : 0x7B ∈ key
    · obtain ⟨before, rest, rfl, hbefore⟩ := List.eq_append_cons_of_mem hopen
      have hs : scanTo (before ++ 0x7B :: rest) 0x7B 0 = before.length := by
        simpa using scanTo_found [] _ hbefore
      simp only [keyHashSlot, hs]
      rw [if_neg (by simp)]
      by_cases hclose : 0x7D ∈ rest
      · obtain ⟨tag, after, rfl, htag⟩ := List.eq_append_cons_of_mem hclose
        obtain rfl := hnone before tag after ⟨rfl, hbefore, htag⟩
        have he : scanTo (before ++ 0x7B :: ([] ++ 0x7D :: after)) 0x7D (before.length + 1) =
            before.length + 1 := by
          simpa using scanTo_found (before ++ [0x7B#8]) after htag
        rw [if_pos (.inr he), crc16_whole hlen rfl]
      · have he : scanTo (before ++ 0x7B :: rest) 0x7D (before.length + 1) =
            (before ++ 0x7B :: rest).length := by
          simpa using scanTo_end (before ++ [0x7B#8]) hclose
        rw [if_pos (.inl he), crc16_whole hlen rfl]
    · have hs : scanTo key 0x7B 0 = key.length := by
        simpa using scanTo_end [] hopen
      simp only [keyHashSlot, hs, if_true]
      exact crc16_whole hlen rfl

/-- A key with a part between braces is in the slot of that part. -/
theorem keyHashSlot_spec_braces :
    keyHashSlot [0x7B, 0x61, 0x62, 0x7D, 0x63] = slotOf [0x61, 0x62] :=
  (keyHashSlot_spec [0x7B, 0x61, 0x62, 0x7D, 0x63] (by decide)).1 [] [0x61, 0x62] [0x63]
    ⟨rfl, by decide, by decide⟩ (by decide)

end Slot

end RedisSlots
