/-
# Which short strings `decode` resolves

`encode` emits the base-62 digits of an id from the least significant one on and
pads on the left; `decode` folds them with the first one as the most significant.
So `decode` reads back the `Numeral.mirror` image of the id (`decodeIdx_shortUrl`),
and a URL comes back exactly when the digits of its id are a palindrome, or when
the URL is the very not-found answer (`decode_issued_iff`).

For a string of any other origin `decode` looks only at the position it spells
(`spelled`): no length, no alphabet and no issuing is checked
(`decode_by_position`).
-/
import Pungoo.Numeral
import Pungoo.TinyUrlStore
import Mathlib.Data.List.GetD

namespace TinyUrl

/-! ## The digits of `dict` -/

/-- The character of a digit; only digits below 62 matter. -/
def digitChar (d : ℕ) : Char := dict.getD d '0'

theorem nodup_dict : dict.Nodup := by decide

/-- `find` inverts `digitChar` on the digits. -/
theorem find_digitChar {d : ℕ} (h : d < 62) : find dict (digitChar d) = d := by
  have hd : d < dict.length := h
  have hget : digitChar d = dict[d] := List.getD_eq_getElem dict '0' hd
  rw [hget, find, if_pos (List.getElem_mem hd)]
  exact nodup_dict.idxOf_getElem d hd

theorem find_lt_of_mem {c : Char} (h : c ∈ dict) : find dict c < 62 := by
  rw [find, if_pos h]
  exact List.idxOf_lt_length_iff.mpr h

/-- `digitChar` inverts `find` on the alphabet. -/
theorem digitChar_find {c : Char} (h : c ∈ dict) : digitChar (find dict c) = c := by
  have hlt : dict.idxOf c < dict.length := List.idxOf_lt_length_iff.mpr h
  rw [find, if_pos h, digitChar, List.getD_eq_getElem dict '0' hlt]
  exact List.getElem_idxOf hlt

/-! ## What `encode` writes -/

/-- The digit loop appends the digits, least significant first. -/
theorem digitLoop_eq (id : ℕ) (res : Str) :
    digitLoop id res = res ++ (Nat.digits 62 id).map digitChar := by
  induction id using Nat.strong_induction_on generalizing res with
  | _ id ih =>
    rw [digitLoop]
    by_cases h : 0 < id
    · have hdiv : id / dict.length < id := Nat.div_lt_self h (by decide)
      have hmod : id % 62 < dict.length := Nat.mod_lt _ (by decide)
      have hchar : dict.get ⟨id % dict.length, Nat.mod_lt _ (by decide)⟩
          = digitChar (id % 62) := by
        rw [digitChar, List.getD_eq_getElem dict '0' hmod]
        rfl
      rw [dif_pos h, ih _ hdiv, hchar, Nat.digits_def' (by decide) h, List.map_cons,
        List.append_assoc, List.singleton_append, length_dict]
    · have h0 : id = 0 := by omega
      rw [dif_neg h, h0, Nat.digits_zero, List.map_nil, List.append_nil]

/-- The padding loop puts zeros in front, up to six characters. -/
theorem padLoop_eq (res : Str) :
    padLoop res = List.replicate (6 - res.length) '0' ++ res := by
  obtain ⟨k, hk⟩ : ∃ k, 6 - res.length = k := ⟨_, rfl⟩
  induction k generalizing res with
  | zero =>
    rw [padLoop, if_neg (by omega), hk]
    rfl
  | succ k ih =>
    have hlen : 6 - ('0' :: res).length = k := by
      rw [List.length_cons]
      omega
    rw [padLoop, if_pos (by omega), ih _ hlen, hlen, hk, List.replicate_succ',
      List.append_assoc, List.singleton_append]

/-- The short string of an id: zeros, then its digits from the least significant on. -/
theorem shortUrl_eq (id : ℕ) :
    shortUrl id = (List.replicate (6 - (Nat.digits 62 id).length) 0
      ++ Nat.digits 62 id).map digitChar := by
  have h0 : digitChar 0 = '0' := rfl
  rw [shortUrl, digitLoop_eq, List.nil_append, padLoop_eq, List.length_map, List.map_append,
    List.map_replicate, h0]

/-- No short string has fewer than six characters. -/
theorem length_shortUrl (id : ℕ) : 6 ≤ (shortUrl id).length := by
  rw [shortUrl_eq, List.length_map, List.length_append, List.length_replicate]
  omega

/-! ## What `decode` reads -/

/-- The number a string spells: its characters are base-62 digits, the first one the
most significant, a foreign one counts `npos`, and the sum is taken in `size_t`. -/
def spelled (r : Str) : ℕ := Nat.ofDigits 62 (r.map (find dict)).reverse % 2 ^ 64

theorem decodeIdx_eq_spelled (r : Str) : decodeIdx r = spelled r := by
  rw [spelled, ← Numeral.foldl_horner_mod, List.foldl_map]
  rfl

/-- Mapping digits to characters and back is the identity. -/
theorem map_find_digitChar {l : List ℕ} (h : ∀ d ∈ l, d < 62) :
    (l.map digitChar).map (find dict) = l := by
  rw [List.map_map]
  conv_rhs => rw [← List.map_id l]
  exact List.map_congr_left fun d hd => find_digitChar (h d hd)

/-- A vector cannot hold more than ten-digit ids. -/
theorem maxSize_lt : maxSize < 62 ^ 10 := by norm_num [maxSize]

/-- **The mirror image.**  `decode` reads the short string of an id as the number with
the opposite digits. -/
theorem decodeIdx_shortUrl {id : ℕ} (h : id ≤ maxSize) :
    decodeIdx (shortUrl id) = Numeral.mirror 62 id := by
  have hdigits : ∀ d ∈ List.replicate (6 - (Nat.digits 62 id).length) 0 ++ Nat.digits 62 id,
      d < 62 := by
    intro d hd
    rcases List.mem_append.mp hd with hd | hd
    · rw [(List.mem_replicate.mp hd).2]
      norm_num
    · exact Nat.digits_lt_base (by norm_num) hd
  have hlt : Numeral.mirror 62 id < 2 ^ 64 :=
    (Numeral.mirror_lt_pow (by norm_num) (h.trans_lt maxSize_lt)).trans (by norm_num)
  rw [decodeIdx_eq_spelled, spelled, shortUrl_eq, map_find_digitChar hdigits,
    Numeral.ofDigits_reverse_replicate_zero]
  exact Nat.mod_eq_of_lt hlt

/-! ## The round trip -/

/-- The id of a stored URL: its position in the vector, from one on. -/
def Solution.idOf (s : Solution) (u : Str) : ℕ := s.vecUrls.urls.idxOf u + 1

/-- The digits of the id read the same in both directions, or `u` is the not-found
answer and the mirror image of its id is no stored position. -/
def Solution.ReadsBack (s : Solution) (u : Str) : Prop :=
  (Nat.digits 62 (s.idOf u)).reverse = Nat.digits 62 (s.idOf u) ∨
    (u = hello ∧ s.vecUrls.urls.length < Numeral.mirror 62 (s.idOf u))

/-- In a vector without duplicates the element found at a position tells the position. -/
theorem getElem_eq_iff_idxOf {l : List Str} (hl : l.Nodup) {u : Str} {k : ℕ}
    (hk : k < l.length) : l[k] = u ↔ k = l.idxOf u := by
  constructor
  · intro h
    rw [← h]
    exact (hl.idxOf_getElem k hk).symm
  · rintro rfl
    exact List.getElem_idxOf hk

/-- `decode` of the short string of a stored URL. -/
theorem decode_shortUrl_iff {s : Solution} (hinv : s.Inv) {u : Str}
    (hu : u ∈ s.vecUrls.urls) : s.decode (shortUrl (s.idOf u)) = u ↔ s.ReadsBack u := by
  have hidx : s.vecUrls.urls.idxOf u < s.vecUrls.urls.length := List.idxOf_lt_length_iff.mpr hu
  have hid : s.idOf u ≤ s.vecUrls.urls.length := hidx
  have hpos : 0 < Numeral.mirror 62 (s.idOf u) := Numeral.mirror_pos (Nat.succ_pos _)
  rw [decode_eq, decodeIdx_shortUrl (hid.trans s.vecUrls.length_le), if_pos hpos,
    Solution.ReadsBack, ← Numeral.mirror_eq_self_iff (by norm_num)]
  by_cases hle : Numeral.mirror 62 (s.idOf u) ≤ s.vecUrls.urls.length
  · have hk : Numeral.mirror 62 (s.idOf u) - 1 < s.vecUrls.urls.length := by omega
    rw [List.getElem?_eq_getElem hk, Option.getD_some, getElem_eq_iff_idxOf hinv.nodup hk]
    constructor
    · intro h
      left
      rw [Solution.idOf] at h hpos ⊢
      omega
    · rintro (h | ⟨-, h⟩)
      · rw [h, Solution.idOf, Nat.add_sub_cancel]
      · omega
  · rw [List.getElem?_eq_none (by omega), Option.getD_none]
    constructor
    · intro h
      exact Or.inr ⟨h.symm, by omega⟩
    · rintro (h | ⟨h, -⟩)
      · omega
      · exact h.symm

/-- **The round trip over whole runs.**  At the end of any run, `decode` maps the string
that `encode` returned for `u` back to `u` exactly when `u` reads back. -/
theorem decode_issued_iff (cs : List Call) (u r : Str) (h : Issued cs u r) :
    (Solution.ofCalls cs).decode r = u ↔ (Solution.ofCalls cs).ReadsBack u := by
  obtain ⟨hmem, rfl⟩ := eq_shortUrl_of_issued h
  exact decode_shortUrl_iff (inv_ofCalls cs) hmem

/-! ### Sixty-two URLs -/

/-- Encoding new URLs one after the other fills the vector in their order. -/
theorem urls_encode_all {us : List Str} (hnd : us.Nodup) (hlen : us.length ≤ maxSize) :
    (Solution.ofCalls (us.map .encode)).vecUrls.urls = us := by
  induction us using List.reverseRecOn with
  | nil => rfl
  | append_singleton us u ih =>
    rw [List.length_append, List.length_singleton] at hlen
    have hus := ih (List.nodup_append.mp hnd).1 (by omega)
    have hu : u ∉ us := fun hmem =>
      (List.nodup_append.mp hnd).2.2 u hmem u (List.mem_singleton_self u) rfl
    have hinv := inv_ofCalls (us.map .encode)
    rw [List.map_append, Solution.ofCalls, Run.after_append]
    show ((Solution.ofCalls (us.map .encode)).encode u).2.vecUrls.urls = us ++ [u]
    rcases encode_cases (Solution.ofCalls (us.map .encode)) u with
      ⟨r, hlook, -⟩ | ⟨-, hfull, -⟩ | ⟨-, -, s', heq, hvec, -⟩
    · have hmem := AList.lookup_isSome.mp (by rw [hlook]; rfl)
      rw [hinv.mem_map_iff, hus] at hmem
      exact absurd hmem hu
    · rw [hus] at hfull
      omega
    · rw [heq, hvec, hus]

/-- Sixty-two URLs of one character each. -/
def urls62 : List Str := (List.range 62).map fun k => [Char.ofNat (48 + k)]

theorem urls_urls62 : (Solution.ofCalls (urls62.map .encode)).vecUrls.urls = urls62 :=
  urls_encode_all (by decide) (by rw [maxSize]; decide)

/-- The id 62 is the first one with two digits: its short string is the one of id 1. -/
theorem issued_urls62 : Issued (urls62.map .encode) "m".toList "000001".toList := by
  have hmem : "m".toList ∈ (Solution.ofCalls (urls62.map .encode)).vecUrls.urls := by
    rw [urls_urls62]
    decide
  obtain ⟨r, hr⟩ := exists_issued_of_mem _ _ hmem
  have hshort : r = "000001".toList := by
    rw [(eq_shortUrl_of_issued hr).2, urls_urls62, shortUrl_eq]
    have hid : urls62.idxOf "m".toList + 1 = 62 := by decide
    rw [hid, show Nat.digits 62 62 = [0, 1] by norm_num]
    rfl
  exact hshort ▸ hr

theorem decode_eq_urls62 :
    (Solution.ofCalls (urls62.map .encode)).decode "000001".toList = "0".toList := by
  rw [decode_eq, urls_urls62]
  decide

/-- The last of the URLs does not read back. -/
theorem not_readsBack_urls62 : ¬ (Solution.ofCalls (urls62.map .encode)).ReadsBack "m".toList := by
  rw [← decode_issued_iff (urls62.map .encode) "m".toList "000001".toList issued_urls62,
    decode_eq_urls62]
  decide

/-- It comes back as the first one. -/
theorem decode_urls62 :
    Issued (urls62.map .encode) "m".toList "000001".toList ∧
      (Solution.ofCalls (urls62.map .encode)).decode "000001".toList = "0".toList ∧
      "0".toList ≠ "m".toList :=
  ⟨issued_urls62, decode_eq_urls62, by decide⟩

/-! ## Strings of any origin -/

theorem spelled_eq_of_length_le {r : Str} (hlen : r.length ≤ 10) (hdict : ∀ c ∈ r, c ∈ dict) :
    spelled r = Nat.ofDigits 62 (r.map (find dict)).reverse := by
  have hdigits : ∀ d ∈ (r.map (find dict)).reverse, d < 62 := by
    intro d hd
    obtain ⟨c, hc, rfl⟩ := List.mem_map.mp (List.mem_reverse.mp hd)
    exact find_lt_of_mem (hdict c hc)
  have hlt := Nat.ofDigits_lt_base_pow_length (by norm_num) hdigits
  rw [List.length_reverse, List.length_map] at hlt
  refine Nat.mod_eq_of_lt (hlt.trans_le ?_)
  calc 62 ^ r.length ≤ 62 ^ 10 := Nat.pow_le_pow_right (by norm_num) hlen
    _ ≤ 2 ^ 64 := by norm_num

/-- A six-character string over the alphabet that spells a one-digit id is the short
string of that id. -/
theorem eq_shortUrl_of_spelled_lt {r : Str} (hlen : r.length = 6) (hdict : ∀ c ∈ r, c ∈ dict)
    (hpos : 0 < spelled r) (hlt : spelled r < 62) : r = shortUrl (spelled r) := by
  obtain ⟨k, hk⟩ : ∃ k, spelled r = k := ⟨_, rfl⟩
  rw [hk] at hpos hlt ⊢
  rw [spelled_eq_of_length_le (by omega) hdict] at hk
  have hrev : (r.map (find dict)).reverse = k :: List.replicate 5 0 := by
    refine Nat.ofDigits_inj_of_len_eq (b := 62) (by norm_num) ?_ ?_ ?_ ?_
    · rw [List.length_reverse, List.length_map, hlen]
      rfl
    · intro d hd
      obtain ⟨c, hc, rfl⟩ := List.mem_map.mp (List.mem_reverse.mp hd)
      exact find_lt_of_mem (hdict c hc)
    · intro d hd
      rcases List.mem_cons.mp hd with rfl | hd
      · exact hlt
      · rw [(List.mem_replicate.mp hd).2]
        norm_num
    · rw [hk, Nat.ofDigits_cons, Nat.ofDigits_replicate_zero]
      simp
  have hdigits : r.map (find dict) = List.replicate 5 0 ++ [k] := by
    rw [← List.reverse_inj, hrev, List.reverse_append, List.reverse_replicate,
      List.reverse_singleton, List.singleton_append]
  have hchars : (r.map (find dict)).map digitChar = r := by
    rw [List.map_map]
    conv_rhs => rw [← List.map_id r]
    exact List.map_congr_left fun c hc => digitChar_find (hdict c hc)
  rw [← hchars, hdigits, shortUrl_eq, Nat.digits_of_lt 62 k (by omega) hlt]
  rfl

/-- **`decode` goes by position.**  After any run and for every string: a string that
spells no stored position gets the not-found answer, one that spells a stored
position gets the URL there; so while fewer than 62 URLs are stored, a six-character
string over the alphabet that `encode` never returned gets the not-found answer. -/
theorem decode_by_position (cs : List Call) (r : Str) :
    (spelled r = 0 ∨ (Solution.ofCalls cs).vecUrls.urls.length < spelled r →
      (Solution.ofCalls cs).decode r = hello) ∧
    (∀ k (h : k < (Solution.ofCalls cs).vecUrls.urls.length), spelled r = k + 1 →
      (Solution.ofCalls cs).decode r = (Solution.ofCalls cs).vecUrls.urls[k]) ∧
    ((Solution.ofCalls cs).vecUrls.urls.length < 62 → r.length = 6 → (∀ c ∈ r, c ∈ dict) →
      (∀ u, ¬ Issued cs u r) → (Solution.ofCalls cs).decode r = hello) := by
  have hout : spelled r = 0 ∨ (Solution.ofCalls cs).vecUrls.urls.length < spelled r →
      (Solution.ofCalls cs).decode r = hello := by
    intro h
    rw [decode_eq, decodeIdx_eq_spelled]
    rcases h with h | h
    · rw [h]
      rfl
    · rw [if_pos (by omega), List.getElem?_eq_none (by omega), Option.getD_none]
  refine ⟨hout, ?_, ?_⟩
  · intro k hk h
    rw [decode_eq, decodeIdx_eq_spelled, h, if_pos (Nat.succ_pos k), Nat.add_sub_cancel,
      List.getElem?_eq_getElem hk, Option.getD_some]
  · intro hlt hlen hdict hnot
    by_contra hne
    -- a resolved string spells a stored one-digit id, and that id was issued it
    have hin : 0 < spelled r ∧ spelled r ≤ (Solution.ofCalls cs).vecUrls.urls.length := by
      by_contra hc
      exact hne (hout (by omega))
    have hk : spelled r - 1 < (Solution.ofCalls cs).vecUrls.urls.length := by omega
    obtain ⟨t, ht⟩ := exists_issued_of_mem cs _ (List.getElem_mem hk)
    have hshort := (eq_shortUrl_of_issued ht).2
    rw [(inv_ofCalls cs).nodup.idxOf_getElem _ hk, Nat.sub_add_cancel hin.1,
      ← eq_shortUrl_of_spelled_lt hlen hdict hin.1 (by omega)] at hshort
    exact hnot _ (hshort ▸ ht)

/-- Leading zeros are not checked: `"1"` was never issued and resolves. -/
theorem decode_unpadded :
    (∀ u, ¬ Issued [.encode "a".toList] u "1".toList) ∧
      (Solution.ofCalls [.encode "a".toList]).decode "1".toList = "a".toList := by
  constructor
  · intro u h
    have hlen := length_shortUrl ((Solution.ofCalls [.encode "a".toList]).idOf u)
    rw [Solution.idOf, ← (eq_shortUrl_of_issued h).2] at hlen
    exact absurd hlen (by decide)
  · have hurls : (Solution.ofCalls [.encode "a".toList]).vecUrls.urls = ["a".toList] :=
      urls_encode_all (List.nodup_singleton _) (by rw [maxSize]; decide)
    rw [decode_eq, hurls]
    decide

end TinyUrl
