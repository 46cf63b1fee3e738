/-
# The TinyURL codec: `class Solution` of `cpp/problem/tinyurl.cpp`

A `Solution` numbers the long URLs it is given.  `encode` looks the URL up in
`m_mapUrls`; a new one is pushed to `m_vecUrls`, and its position there (from one
on) is written with the 62 characters of `dict` and padded to six.  `decode` folds
a string back into a position and answers with the URL stored there.

* `std::string` is a list of characters, `unordered_map` an association list
  without duplicate keys, and `size_t` a natural number with the wrap at `2 ^ 64`
  written out where the code can reach it.
* `m_vecUrls` is never longer than `vector::max_size()`; `push_back` on a full
  vector throws `std::length_error` and changes nothing.
* A run is a list of `Call`s, executed by `Solution.step`.
-/
import Pungoo.Run
import Mathlib.Data.List.AList
import Mathlib.Algebra.Group.Nat.Defs

namespace TinyUrl

/-- `std::string`. -/
abbrev Str := List Char

/-- The member `dict`; the constructor sets it and nothing changes it. -/
def dict : Str := "0123456789abcdefghijklmnopqrstuvwxyzABCDEFGHIJKLMNOPQRSTUVWXYZ".toList

theorem length_dict : dict.length = 62 := rfl

/-- `std::string::npos`, the largest `size_t`. -/
def npos : ℕ := 2 ^ 64 - 1

/-- `std::string::find(char)`. -/
def find (s : Str) (c : Char) : ℕ := if c ∈ s then s.idxOf c else npos

/-! ## The two containers -/

/-- `vector<string>::max_size()`: the largest object size over `sizeof(string)`. -/
def maxSize : ℕ := (2 ^ 63 - 1) / 32

/-- `vector<string>`, with the bound that `push_back` enforces. -/
structure UrlVector where
  urls : List Str
  length_le : urls.length ≤ maxSize

/-- `push_back`; `none` is the `std::length_error` of a full vector. -/
def UrlVector.pushBack (v : UrlVector) (u : Str) : Option UrlVector :=
  if h : v.urls.length < maxSize then
    some ⟨v.urls ++ [u], by rw [List.length_append, List.length_singleton]; omega⟩
  else none

/-- `unordered_map<string, string>`. -/
abbrev UrlMap := AList (fun _ : Str => Str)

/-- `unordered_map::insert` keeps the entry of a key that is already there. -/
def UrlMap.insertNew (m : UrlMap) (key value : Str) : UrlMap :=
  if key ∈ m then m else AList.insert key value m

/-- The state of a `Solution` object. -/
structure Solution where
  mapUrls : UrlMap
  vecUrls : UrlVector

/-- A freshly constructed `Solution`. -/
def Solution.new : Solution := ⟨∅, ⟨[], Nat.zero_le _⟩⟩

/-! ## `encode` -/

/-- `while (id > 0) { res += dict[id % dict.size()]; id = id / dict.size(); }` -/
def digitLoop (id : ℕ) (res : Str) : Str :=
  if h : 0 < id then
    digitLoop (id / dict.length)
      (res ++ [dict.get ⟨id % dict.length, Nat.mod_lt _ (by decide)⟩])
  else res
termination_by id
decreasing_by exact Nat.div_lt_self h (by decide)

/-- `while (res.size() < 6) { res = "0" + res; }` -/
def padLoop (res : Str) : Str :=
  if res.length < 6 then padLoop ('0' :: res) else res
termination_by 6 - res.length

/-- The short string `encode` generates for an id. -/
def shortUrl (id : ℕ) : Str := padLoop (digitLoop id [])

/-- `Solution::encode`; the result is `none` when `push_back` throws. -/
def Solution.encode (s : Solution) (longUrl : Str) : Option Str × Solution :=
  match s.mapUrls.lookup longUrl with
  | some res => (some res, s)
  | none =>
    match s.vecUrls.pushBack longUrl with
    | none => (none, s)
    | some vecUrls =>
      let res := shortUrl vecUrls.urls.length
      (some res, ⟨UrlMap.insertNew s.mapUrls longUrl res, vecUrls⟩)

/-! ## `decode` -/

/-- `idx` after the loop of `decode`, in `size_t` arithmetic. -/
def decodeIdx (shortUrl : Str) : ℕ :=
  shortUrl.foldl (fun idx c => (idx * 62 + find dict c) % 2 ^ 64) 0

/-- The answer of `decode` for an index no stored URL has. -/
def hello : Str := "hello".toList

/-- `Solution::decode`. -/
def Solution.decode (s : Solution) (shortUrl : Str) : Str :=
  if h : decodeIdx shortUrl ≤ s.vecUrls.urls.length ∧ decodeIdx shortUrl > 0 then
    s.vecUrls.urls.get ⟨decodeIdx shortUrl - 1, by omega⟩
  else hello

/-! ## Runs -/

/-- A call of a public member function. -/
inductive Call
  | encode (longUrl : Str)
  | decode (shortUrl : Str)
  deriving DecidableEq

/-- One call on a `Solution`: its result, if it returns, and the object after it. -/
def Solution.step (s : Solution) : Call → Option Str × Solution
  | .encode longUrl => s.encode longUrl
  | .decode shortUrl => (some (s.decode shortUrl), s)

/-- The object after the calls `cs` on a new `Solution`. -/
def Solution.ofCalls (cs : List Call) : Solution := Run.after Solution.step Solution.new cs

/-- `encode` returned the short string `r` for `u` somewhere in the run `cs`. -/
def Issued (cs : List Call) (u r : Str) : Prop :=
  ∃ pre post, cs = pre ++ .encode u :: post ∧ ((Solution.ofCalls pre).encode u).1 = some r

/-! ## What one call can do -/

theorem pushBack_cases (v : UrlVector) (u : Str) :
    (v.urls.length = maxSize ∧ v.pushBack u = none) ∨
    (v.urls.length < maxSize ∧ ∃ v', v.pushBack u = some v' ∧ v'.urls = v.urls ++ [u]) := by
  unfold UrlVector.pushBack
  by_cases hlt : v.urls.length < maxSize
  · exact Or.inr ⟨hlt, _, dif_pos hlt, rfl⟩
  · have hfull := v.length_le
    exact Or.inl ⟨by omega, dif_neg hlt⟩

/-- The three outcomes of `encode`: a known URL, a full vector, a new URL. -/
theorem encode_cases (s : Solution) (u : Str) :
    (∃ r, s.mapUrls.lookup u = some r ∧ s.encode u = (some r, s)) ∨
    (u ∉ s.mapUrls ∧ s.vecUrls.urls.length = maxSize ∧ s.encode u = (none, s)) ∨
    (u ∉ s.mapUrls ∧ s.vecUrls.urls.length < maxSize ∧
      ∃ s' : Solution, s.encode u = (some (shortUrl (s.vecUrls.urls.length + 1)), s') ∧
        s'.vecUrls.urls = s.vecUrls.urls ++ [u] ∧
        s'.mapUrls = AList.insert u (shortUrl (s.vecUrls.urls.length + 1)) s.mapUrls) := by
  unfold Solution.encode
  cases hlook : s.mapUrls.lookup u with
  | some r => exact Or.inl ⟨r, rfl, rfl⟩
  | none =>
    have hmem : u ∉ s.mapUrls := AList.lookup_eq_none.mp hlook
    right
    rcases pushBack_cases s.vecUrls u with ⟨hfull, hpush⟩ | ⟨hlt, v, hpush, hv⟩
    · left
      exact ⟨hmem, hfull, by rw [hpush]⟩
    · right
      have hlen : v.urls.length = s.vecUrls.urls.length + 1 := by
        rw [hv, List.length_append, List.length_singleton]
      refine ⟨hmem, hlt, ⟨UrlMap.insertNew s.mapUrls u (shortUrl v.urls.length), v⟩, ?_, hv, ?_⟩
      · rw [hpush, ← hlen]
      · rw [← hlen, UrlMap.insertNew, if_neg hmem]

/-- `decode` reads the vector at the index it computes. -/
theorem decode_eq (s : Solution) (r : Str) :
    s.decode r = if 0 < decodeIdx r then (s.vecUrls.urls[decodeIdx r - 1]?).getD hello
      else hello := by
  unfold Solution.decode
  by_cases hpos : 0 < decodeIdx r
  · rw [if_pos hpos]
    by_cases hle : decodeIdx r ≤ s.vecUrls.urls.length
    · rw [dif_pos ⟨hle, hpos⟩, List.getElem?_eq_getElem (by omega), Option.getD_some,
        List.get_eq_getElem]
    · rw [dif_neg (by omega), List.getElem?_eq_none (by omega), Option.getD_none]
  · rw [dif_neg (by omega), if_neg hpos]

end TinyUrl
