/-
# Memory pools, `amqp_mem.c`

A pool hands out parts of pages, and blocks of their own for what is larger than a page.
`recycle_amqp_pool` takes all of it back at once: the large blocks are freed, the pages are kept
and handed out again.

Memory is a set of blocks with their sizes; a pointer is a block and an offset.  `got` and
`recorded` say whether `calloc` has memory, and whether the list of blocks can grow.  `none` is a
failed assertion, or `free` of what is not a block.
-/
import Pungoo.AmqpInbound

namespace Amqp

/-! ## Memory -/

/-- The blocks with their sizes; `next` is the block that comes next. -/
structure Memory where
  size : ℕ → Option ℕ
  next : ℕ

def calloc (mem : Memory) (amount : ℕ) : ℕ × Memory :=
  (mem.next, ⟨Function.update mem.size mem.next (some amount), mem.next + 1⟩)

def free (mem : Memory) (block : ℕ) : Option Memory :=
  if (mem.size block).isSome then some { mem with size := Function.update mem.size block none }
  else none

/-! ## The pool -/

/-- `amqp_pool_t`. -/
structure Pool where
  pagesize : ℕ
  pages : List ℕ
  largeBlocks : List ℕ
  nextPage : ℕ
  allocBlock : Option ℕ
  allocUsed : ℕ
  deriving DecidableEq, Repr

/-- `init_amqp_pool(pool, pagesize)`. -/
def initAmqpPool (pagesize : ℕ) : Pool where
  pagesize := if pagesize ≠ 0 then pagesize else 4096
  pages := []
  largeBlocks := []
  nextPage := 0
  allocBlock := none
  allocUsed := 0

/-- `empty_blocklist(x)`. -/
def emptyBlocklist (x : List ℕ) (mem : Memory) : Option Memory := x.foldlM free mem

/-- `recycle_amqp_pool(pool)`. -/
def recycleAmqpPool (pool : Pool) (mem : Memory) : Option (Pool × Memory) :=
  (emptyBlocklist pool.largeBlocks mem).map fun mem =>
    ({ pool with largeBlocks := [], nextPage := 0, allocBlock := none, allocUsed := 0 }, mem)

/-- `empty_amqp_pool(pool)`. -/
def emptyAmqpPool (pool : Pool) (mem : Memory) : Option (Pool × Memory) := do
  let (pool, mem) ← recycleAmqpPool pool mem
  let mem ← emptyBlocklist pool.pages mem
  some ({ pool with pages := [] }, mem)

/-- `record_pool_block(x, block)`. -/
def recordPoolBlock (recorded : Bool) (x : List ℕ) (block : ℕ) : Option (List ℕ) :=
  if recorded then some (x ++ [block]) else none

/-- `(amount + 7) & (~7)`. -/
def roundUp (amount : ℕ) : ℕ := (amount + 7) % 2 ^ 64 / 8 * 8

/-- The size that the connection expects. -/
theorem roundUp_eq {amount : ℕ} (h : amount + 7 < 2 ^ 64) : roundUp amount = blockSize amount := by
  rw [roundUp, Nat.mod_eq_of_lt h, blockSize]

-- a size that wraps around: there is a pointer, but no byte
example : roundUp (2 ^ 64 - 1) = 0 := rfl

/-- The part of `amqp_pool_alloc` for what is larger than a page. -/
def allocLarge (got recorded : Bool) (amount : ℕ) (pool : Pool) (mem : Memory) :
    Option (Option (ℕ × ℕ) × Pool × Memory) :=
  if got then
    let (result, mem) := calloc mem amount
    match recordPoolBlock recorded pool.largeBlocks result with
    | some largeBlocks => some (some (result, 0), { pool with largeBlocks := largeBlocks }, mem)
    | none => (free mem result).map fun mem => (none, pool, mem)
  else some (none, pool, mem)

/-- The part of `amqp_pool_alloc` that turns to a page: one that was recycled, or a new one.
Where the list of pages does not grow, the new page stays the current one. -/
def allocPage (got recorded : Bool) (amount : ℕ) (pool : Pool) (mem : Memory) :
    Option (ℕ × ℕ) × Pool × Memory :=
  match pool.pages[pool.nextPage]? with
  | some block =>
    (some (block, 0), { pool with allocBlock := some block
                                  nextPage := pool.nextPage + 1
                                  allocUsed := amount }, mem)
  | none =>
    if got then
      let (block, mem) := calloc mem pool.pagesize
      match recordPoolBlock recorded pool.pages block with
      | some pages =>
        (some (block, 0), { pool with allocBlock := some block
                                      pages := pages
                                      nextPage := pages.length
                                      allocUsed := amount }, mem)
      | none => (none, { pool with allocBlock := some block }, mem)
    else (none, { pool with allocBlock := none }, mem)

/-- `amqp_pool_alloc(pool, amount)`. -/
def amqpPoolAlloc (got recorded : Bool) (amount : ℕ) (pool : Pool) (mem : Memory) :
    Option (Option (ℕ × ℕ) × Pool × Memory) :=
  if amount = 0 then some (none, pool, mem)
  else if pool.pagesize < roundUp amount then allocLarge got recorded (roundUp amount) pool mem
  else
    match pool.allocBlock with
    | some block =>
      if pool.pagesize < pool.allocUsed then none
      else if (pool.allocUsed + roundUp amount) % 2 ^ 64 ≤ pool.pagesize then
        some (some (block, pool.allocUsed),
          { pool with allocUsed := pool.allocUsed + roundUp amount }, mem)
      else some (allocPage got recorded (roundUp amount) pool mem)
    | none => some (allocPage got recorded (roundUp amount) pool mem)

/-! ## Runs -/

/-- A call, with the answers of the allocator. -/
inductive PoolCall
  | alloc (amount : ℕ) (got recorded : Bool)
  | recycle
  | empty
  deriving DecidableEq, Repr

/-- What was handed out for a request. -/
structure Region where
  block : ℕ
  offset : ℕ
  amount : ℕ
  deriving DecidableEq, Repr

/-- The first offset behind it. -/
def Region.stop (r : Region) : ℕ := r.offset + roundUp r.amount

/-- It is a part of a block. -/
def Region.Inside (r : Region) (mem : Memory) : Prop :=
  ∃ n, mem.size r.block = some n ∧ r.stop ≤ n

/-- They share no byte. -/
def Region.Apart (r r' : Region) : Prop :=
  r.block ≠ r'.block ∨ r.stop ≤ r'.offset ∨ r'.stop ≤ r.offset

/-- What is in use, with the pool and the memory. -/
structure Use where
  regions : List Region
  pool : Pool
  mem : Memory

/-- What is in use after a request. -/
def Use.given (s : Use) (amount : ℕ) : Option (ℕ × ℕ) × Pool × Memory → Use
  | (some (block, offset), pool, mem) => ⟨⟨block, offset, amount⟩ :: s.regions, pool, mem⟩
  | (none, pool, mem) => ⟨s.regions, pool, mem⟩

/-- A call, which adds to what is in use, or ends the use of it. -/
def poolStep (s : Use) : PoolCall → Option Use
  | .alloc amount got recorded =>
    (amqpPoolAlloc got recorded amount s.pool s.mem).map (s.given amount)
  | .recycle => (recycleAmqpPool s.pool s.mem).map fun (pool, mem) => ⟨[], pool, mem⟩
  | .empty => (emptyAmqpPool s.pool s.mem).map fun (pool, mem) => ⟨[], pool, mem⟩

/-- The requests since everything was taken back. -/
def wanted (amounts : List ℕ) : PoolCall → List ℕ
  | .alloc amount _ _ => if amount = 0 then amounts else amount :: amounts
  | .recycle | .empty => []

/-- The allocator has memory, also for the list. -/
def PoolCall.Answered : PoolCall → Prop
  | .alloc _ got recorded => got = true ∧ recorded = true
  | .recycle | .empty => True

/-- The list grows. -/
def PoolCall.Recorded : PoolCall → Prop
  | .alloc _ _ recorded => recorded = true
  | .recycle | .empty => True

/-! ## What every call keeps -/

/-- The blocks of the pool are its own, none of them twice, and what is in use lies apart from
what can still be handed out.  `kept` is the assumption that no list failed to grow. -/
structure Use.Sound (s : Use) (mem₀ : Memory) (kept : Prop) : Prop where
  pagesize : s.pool.pagesize < 2 ^ 63
  used : s.pool.allocUsed ≤ s.pool.pagesize
  fresh : ∀ b, s.mem.next ≤ b → s.mem.size b = none
  grown : mem₀.next ≤ s.mem.next
  others : ∀ b < mem₀.next, s.mem.size b = mem₀.size b
  pages : ∀ b ∈ s.pool.pages, mem₀.next ≤ b ∧ s.mem.size b = some s.pool.pagesize
  large : ∀ b ∈ s.pool.largeBlocks, mem₀.next ≤ b ∧ (s.mem.size b).isSome
  nodup : (s.pool.pages ++ s.pool.largeBlocks).Nodup
  current : ∀ b, s.pool.allocBlock = some b → mem₀.next ≤ b ∧
    s.mem.size b = some s.pool.pagesize ∧ b ∉ s.pool.pages.drop s.pool.nextPage ∧
    b ∉ s.pool.largeBlocks
  own : ∀ r ∈ s.regions, mem₀.next ≤ r.block
  inside : ∀ r ∈ s.regions, r.Inside s.mem
  taken : ∀ r ∈ s.regions, r.block ∉ s.pool.pages.drop s.pool.nextPage ∧
    (s.pool.allocBlock = some r.block → r.stop ≤ s.pool.allocUsed)
  apart : s.regions.Pairwise Region.Apart
  owned : kept → ∀ b, mem₀.next ≤ b → (s.mem.size b).isSome →
    b ∈ s.pool.pages ∨ b ∈ s.pool.largeBlocks

section Use

variable {s : Use} {mem mem₀ : Memory} {kept : Prop} {amount : ℕ}

theorem Memory.calloc_of_live (hfresh : ∀ b, mem.next ≤ b → mem.size b = none) {b n : ℕ}
    (h : mem.size b = some n) : (calloc mem amount).2.size b = some n := by
  have hne : b ≠ mem.next := by
    rintro rfl
    rw [hfresh _ le_rfl] at h
    exact absurd h (by simp)
  exact (Function.update_of_ne hne _ _).trans h

theorem Memory.live_of_calloc {b : ℕ} (h : ((calloc mem amount).2.size b).isSome) :
    b = mem.next ∨ (mem.size b).isSome := by
  by_cases hb : b = mem.next
  · exact .inl hb
  · exact .inr ((Function.update_of_ne hb (some amount) mem.size) ▸ h)

theorem Memory.calloc_self : (calloc mem amount).2.size mem.next = some amount :=
  Function.update_self ..

/-- A block that was never recorded is given back. -/
theorem Memory.free_calloc (amount : ℕ) (hfresh : ∀ b, mem.next ≤ b → mem.size b = none) :
    free (calloc mem amount).2 mem.next = some { mem with next := mem.next + 1 } := by
  have hsize : Function.update (calloc mem amount).2.size mem.next none = mem.size := by
    funext b
    by_cases hb : b = mem.next
    · rw [hb, Function.update_self, hfresh _ le_rfl]
    · rw [Function.update_of_ne hb]
      exact Function.update_of_ne hb _ _
  rw [free, if_pos (by rw [Memory.calloc_self]; rfl), hsize]
  rfl

/-- The memory after blocks were freed. -/
def Memory.without (mem : Memory) (x : List ℕ) : Memory :=
  { mem with size := fun b => if b ∈ x then none else mem.size b }

theorem emptyBlocklist_eq {x : List ℕ} (hnodup : x.Nodup) (hlive : ∀ b ∈ x, (mem.size b).isSome) :
    emptyBlocklist x mem = some (mem.without x) := by
  induction x generalizing mem with
  | nil => simp [emptyBlocklist, Memory.without]
  | cons b x ih =>
    rw [List.nodup_cons] at hnodup
    rw [List.forall_mem_cons] at hlive
    have hfree : free mem b = some { mem with size := Function.update mem.size b none } :=
      if_pos hlive.1
    have hlive' : ∀ c ∈ x, (Function.update mem.size b none c).isSome := fun c hc => by
      have hne : c ≠ b := fun heq => hnodup.1 (heq ▸ hc)
      rw [Function.update_of_ne hne]
      exact hlive.2 c hc
    have hrest : emptyBlocklist x { mem with size := Function.update mem.size b none } = _ :=
      ih hnodup.2 hlive'
    have hsize : (fun c => if c ∈ x then none else Function.update mem.size b none c) =
        fun c => if c ∈ b :: x then none else mem.size c := by
      funext c
      by_cases hc : c = b
      · simp [hc]
      · simp [hc]
    rw [emptyBlocklist, List.foldlM_cons, hfree]
    refine hrest.trans ?_
    rw [Memory.without, hsize]
    rfl

/-! ## One call -/

/-- A block that is live was allocated. -/
theorem Use.Sound.live_lt (h : s.Sound mem₀ kept) {b : ℕ} (hb : (s.mem.size b).isSome) :
    b < s.mem.next := by
  by_contra hge
  rw [h.fresh b (by omega)] at hb
  exact absurd hb (by simp)

/-- A region is a part of a block that was allocated. -/
theorem Use.Sound.region_lt (h : s.Sound mem₀ kept) {r : Region} (hr : r ∈ s.regions) :
    r.block < s.mem.next := by
  obtain ⟨n, hsize, -⟩ := h.inside r hr
  exact h.live_lt (by rw [hsize]; rfl)

/-- The next block is not in a list yet. -/
theorem Use.Sound.nodup_next (h : s.Sound mem₀ kept) :
    (s.mem.next :: (s.pool.pages ++ s.pool.largeBlocks)).Nodup := by
  refine List.nodup_cons.mpr ⟨fun hmem => ?_, h.nodup⟩
  rcases List.mem_append.mp hmem with hmem | hmem
  · exact absurd (h.live_lt (by rw [(h.pages _ hmem).2]; rfl)) (lt_irrefl _)
  · exact absurd (h.live_lt (h.large _ hmem).2) (lt_irrefl _)

/-- Memory that has all that was there. -/
structure Use.Kept (s : Use) (mem : Memory) : Prop where
  live : ∀ {b n}, s.mem.size b = some n → mem.size b = some n
  others : ∀ {b}, b < s.mem.next → mem.size b = s.mem.size b
  fresh : ∀ b, mem.next ≤ b → mem.size b = none
  grown : s.mem.next ≤ mem.next

theorem Use.Sound.kept_calloc (h : s.Sound mem₀ kept) (amount : ℕ) :
    s.Kept (calloc s.mem amount).2 where
  live hb := Memory.calloc_of_live h.fresh hb
  others hb := Function.update_of_ne (by omega) _ _
  fresh b hb := by
    have hb : s.mem.next + 1 ≤ b := hb
    exact (Function.update_of_ne (by omega) _ _).trans (h.fresh b (by omega))
  grown := Nat.le_succ _

/-- Other memory does no harm, but the pool may not own it. -/
theorem Use.Sound.keep (h : s.Sound mem₀ kept) (hkept : s.Kept mem) :
    Use.Sound ⟨s.regions, s.pool, mem⟩ mem₀ False where
  pagesize := h.pagesize
  used := h.used
  fresh := hkept.fresh
  grown := h.grown.trans hkept.grown
  others b hb := (hkept.others (lt_of_lt_of_le hb h.grown)).trans (h.others b hb)
  pages b hb := ⟨(h.pages b hb).1, hkept.live (h.pages b hb).2⟩
  large b hb := by
    obtain ⟨n, hn⟩ := Option.isSome_iff_exists.mp (h.large b hb).2
    exact ⟨(h.large b hb).1, by rw [hkept.live hn]; rfl⟩
  nodup := h.nodup
  current b hb := by
    obtain ⟨hown, hsize, hrest⟩ := h.current b hb
    exact ⟨hown, hkept.live hsize, hrest⟩
  own := h.own
  inside r hr := by
    obtain ⟨n, hsize, hstop⟩ := h.inside r hr
    exact ⟨n, hkept.live hsize, hstop⟩
  taken := h.taken
  apart := h.apart
  owned := False.elim

/-- A large block of its own. -/
theorem Use.Sound.large_new (h : s.Sound mem₀ kept) :
    Use.Sound ⟨⟨s.mem.next, 0, amount⟩ :: s.regions,
      { s.pool with largeBlocks := s.pool.largeBlocks ++ [s.mem.next] },
      (calloc s.mem (roundUp amount)).2⟩ mem₀ kept := by
  have h' := h.keep (h.kept_calloc (roundUp amount))
  obtain ⟨hnext, -⟩ := List.nodup_cons.mp h.nodup_next
  rw [List.mem_append, not_or] at hnext
  have hcurrent : s.pool.allocBlock ≠ some s.mem.next := fun hb =>
    absurd (h.live_lt (by rw [(h.current _ hb).2.1]; rfl)) (lt_irrefl _)
  exact { h' with
    large := by
      rw [List.forall_mem_append, List.forall_mem_singleton]
      exact ⟨h'.large, h.grown, by rw [Memory.calloc_self]; rfl⟩
    nodup := by
      rw [← List.append_assoc]
      exact (List.perm_append_singleton _ _).nodup_iff.mpr h.nodup_next
    current := fun b hb => by
      obtain ⟨hown, hsize, hpages, hlarge⟩ := h'.current b hb
      refine ⟨hown, hsize, hpages, ?_⟩
      rw [List.mem_append, List.mem_singleton, not_or]
      exact ⟨hlarge, fun heq => hcurrent (heq ▸ hb)⟩
    own := List.forall_mem_cons.mpr ⟨h.grown, h.own⟩
    inside := by
      rw [List.forall_mem_cons]
      exact ⟨⟨_, Memory.calloc_self, by simp [Region.stop]⟩, h'.inside⟩
    taken := by
      rw [List.forall_mem_cons]
      exact ⟨⟨fun hmem => hnext.1 (List.mem_of_mem_drop hmem), fun hb => absurd hb hcurrent⟩,
        h.taken⟩
    apart := List.pairwise_cons.mpr ⟨fun r hr => .inl (h.region_lt hr).ne', h.apart⟩
    owned := fun hk b hb hsome => by
      rcases Memory.live_of_calloc hsome with rfl | hsome
      · exact .inr (by simp)
      · exact (h.owned hk b hb hsome).imp_right fun hb => List.mem_append_left _ hb }

/-- A large block that could not be recorded. -/
theorem Use.Sound.large_freed (h : s.Sound mem₀ kept) :
    Use.Sound ⟨s.regions, s.pool, { s.mem with next := s.mem.next + 1 }⟩ mem₀ kept := by
  have hkept : s.Kept { s.mem with next := s.mem.next + 1 } :=
    ⟨fun hb => hb, fun _ => rfl, fun b hb => h.fresh b (Nat.le_of_succ_le hb), Nat.le_succ _⟩
  exact { h.keep hkept with owned := h.owned }

/-- A part of the current page. -/
theorem Use.Sound.bump (h : s.Sound mem₀ kept) {block : ℕ} (hcur : s.pool.allocBlock = some block)
    (hfits : s.pool.allocUsed + roundUp amount ≤ s.pool.pagesize) :
    Use.Sound ⟨⟨block, s.pool.allocUsed, amount⟩ :: s.regions,
      { s.pool with allocUsed := s.pool.allocUsed + roundUp amount }, s.mem⟩ mem₀ kept := by
  obtain ⟨hown, hsize, hpages, -⟩ := h.current block hcur
  have hbehind : ∀ r ∈ s.regions, r.block = block → r.stop ≤ s.pool.allocUsed :=
    fun r hr hblock => (h.taken r hr).2 (hblock ▸ hcur)
  exact { h with
    used := hfits
    own := List.forall_mem_cons.mpr ⟨hown, h.own⟩
    inside := by
      rw [List.forall_mem_cons]
      exact ⟨⟨_, hsize, hfits⟩, h.inside⟩
    taken := by
      rw [List.forall_mem_cons]
      exact ⟨⟨hpages, fun _ => le_rfl⟩, fun r hr =>
        ⟨(h.taken r hr).1, fun hb => ((h.taken r hr).2 hb).trans (Nat.le_add_right _ _)⟩⟩
    apart := List.pairwise_cons.mpr ⟨fun r hr => by
      by_cases hblock : r.block = block
      · exact .inr (.inr (hbehind r hr hblock))
      · exact .inl (Ne.symm hblock), h.apart⟩ }

/-- A page that was recycled. -/
theorem Use.Sound.page_again (h : s.Sound mem₀ kept) {block : ℕ}
    (hpage : s.pool.pages[s.pool.nextPage]? = some block)
    (hfits : roundUp amount ≤ s.pool.pagesize) :
    Use.Sound ⟨⟨block, 0, amount⟩ :: s.regions, { s.pool with
      allocBlock := some block
      nextPage := s.pool.nextPage + 1
      allocUsed := roundUp amount }, s.mem⟩ mem₀ kept := by
  have hdrop : s.pool.pages.drop s.pool.nextPage =
      block :: s.pool.pages.drop (s.pool.nextPage + 1) := by
    obtain ⟨hlt, rfl⟩ := List.getElem?_eq_some_iff.mp hpage
    exact List.drop_eq_getElem_cons hlt
  have hmem : block ∈ s.pool.pages := List.mem_of_getElem? hpage
  obtain ⟨hpages, -, hdisjoint⟩ := List.nodup_append.mp h.nodup
  have hnext : block ∉ s.pool.pages.drop (s.pool.nextPage + 1) := by
    have hrest := (List.drop_sublist s.pool.nextPage s.pool.pages).nodup hpages
    rw [hdrop] at hrest
    exact (List.nodup_cons.mp hrest).1
  have htaken : ∀ r ∈ s.regions, r.block ≠ block ∧
      r.block ∉ s.pool.pages.drop (s.pool.nextPage + 1) := fun r hr => by
    have hfree := (h.taken r hr).1
    rwa [hdrop, List.mem_cons, not_or] at hfree
  exact { h with
    used := hfits
    current := by
      rintro b hb
      obtain rfl := Option.some.inj hb
      exact ⟨(h.pages _ hmem).1, (h.pages _ hmem).2, hnext,
        fun hlarge => hdisjoint _ hmem _ hlarge rfl⟩
    own := List.forall_mem_cons.mpr ⟨(h.pages _ hmem).1, h.own⟩
    inside := by
      rw [List.forall_mem_cons]
      exact ⟨⟨_, (h.pages _ hmem).2, by simpa [Region.stop] using hfits⟩, h.inside⟩
    taken := by
      rw [List.forall_mem_cons]
      exact ⟨⟨hnext, fun _ => by simp [Region.stop]⟩, fun r hr =>
        ⟨(htaken r hr).2, fun hb => absurd (Option.some.inj hb).symm (htaken r hr).1⟩⟩
    apart := List.pairwise_cons.mpr ⟨fun r hr => .inl (htaken r hr).1.symm, h.apart⟩ }

/-- A new page. -/
theorem Use.Sound.page_new (h : s.Sound mem₀ kept) (hfits : roundUp amount ≤ s.pool.pagesize) :
    Use.Sound ⟨⟨s.mem.next, 0, amount⟩ :: s.regions, { s.pool with
      allocBlock := some s.mem.next
      pages := s.pool.pages ++ [s.mem.next]
      nextPage := (s.pool.pages ++ [s.mem.next]).length
      allocUsed := roundUp amount }, (calloc s.mem s.pool.pagesize).2⟩ mem₀ kept := by
  have h' := h.keep (h.kept_calloc s.pool.pagesize)
  obtain ⟨hnext, -⟩ := List.nodup_cons.mp h.nodup_next
  rw [List.mem_append, not_or] at hnext
  have hdrop : (s.pool.pages ++ [s.mem.next]).drop (s.pool.pages ++ [s.mem.next]).length = [] :=
    List.drop_length
  exact { h' with
    used := hfits
    pages := by
      rw [List.forall_mem_append, List.forall_mem_singleton]
      exact ⟨h'.pages, h.grown, Memory.calloc_self⟩
    nodup := by
      rw [List.append_assoc]
      exact List.perm_middle.nodup_iff.mpr h.nodup_next
    current := by
      rintro b hb
      obtain rfl := Option.some.inj hb
      exact ⟨h.grown, Memory.calloc_self, by rw [hdrop]; exact List.not_mem_nil, hnext.2⟩
    own := List.forall_mem_cons.mpr ⟨h.grown, h.own⟩
    inside := by
      rw [List.forall_mem_cons]
      exact ⟨⟨_, Memory.calloc_self, by simpa [Region.stop] using hfits⟩, h'.inside⟩
    taken := by
      rw [List.forall_mem_cons, hdrop]
      exact ⟨⟨List.not_mem_nil, fun _ => by simp [Region.stop]⟩, fun r hr =>
        ⟨List.not_mem_nil, fun hb => absurd (Option.some.inj hb) (h.region_lt hr).ne'⟩⟩
    apart := List.pairwise_cons.mpr ⟨fun r hr => .inl (h.region_lt hr).ne', h.apart⟩
    owned := fun hk b hb hsome => by
      rcases Memory.live_of_calloc hsome with rfl | hsome
      · exact .inl (by simp)
      · exact (h.owned hk b hb hsome).imp_left fun hb => List.mem_append_left _ hb }

/-- A new page that could not be recorded is the current page, and is lost. -/
theorem Use.Sound.page_lost (h : s.Sound mem₀ kept) (hlost : ¬ kept) :
    Use.Sound ⟨s.regions, { s.pool with allocBlock := some s.mem.next },
      (calloc s.mem s.pool.pagesize).2⟩ mem₀ kept := by
  have h' := h.keep (h.kept_calloc s.pool.pagesize)
  obtain ⟨hnext, -⟩ := List.nodup_cons.mp h.nodup_next
  rw [List.mem_append, not_or] at hnext
  exact { h' with
    current := by
      rintro b hb
      obtain rfl := Option.some.inj hb
      exact ⟨h.grown, Memory.calloc_self, fun hmem => hnext.1 (List.mem_of_mem_drop hmem),
        hnext.2⟩
    taken := fun r hr => ⟨(h.taken r hr).1, fun hb =>
      absurd (Option.some.inj hb) (h.region_lt hr).ne'⟩
    owned := fun hk => absurd hk hlost }

/-- No page. -/
theorem Use.Sound.page_none (h : s.Sound mem₀ kept) :
    Use.Sound ⟨s.regions, { s.pool with allocBlock := none }, s.mem⟩ mem₀ kept :=
  { h with
    current := fun b hb => absurd hb (by simp)
    taken := fun r hr => ⟨(h.taken r hr).1, fun hb => absurd hb (by simp)⟩ }

/-! ## What a call does -/

theorem Use.Sound.allocLarge (h : s.Sound mem₀ kept) (amount : ℕ) (got recorded : Bool) :
    ∃ next, allocLarge got recorded (roundUp amount) s.pool s.mem = some next ∧
      (s.given amount next).Sound mem₀ kept ∧
      (got = true → recorded = true → next.1.isSome) := by
  unfold Amqp.allocLarge
  cases got with
  | false => exact ⟨_, rfl, h, by simp⟩
  | true =>
    cases recorded with
    | false =>
      refine ⟨(none, s.pool, { s.mem with next := s.mem.next + 1 }), ?_, h.large_freed, by simp⟩
      have hfree := Memory.free_calloc (roundUp amount) h.fresh
      simp only [if_true]
      exact congrArg (Option.map fun mem => (none, s.pool, mem)) hfree
    | true => exact ⟨_, rfl, h.large_new, fun _ _ => rfl⟩

theorem Use.Sound.allocPage (h : s.Sound mem₀ kept) (got recorded : Bool)
    (hrecorded : kept → recorded = true) (hfits : roundUp amount ≤ s.pool.pagesize) :
    (s.given amount (allocPage got recorded (roundUp amount) s.pool s.mem)).Sound mem₀ kept ∧
      (got = true → recorded = true →
        (allocPage got recorded (roundUp amount) s.pool s.mem).1.isSome) := by
  unfold Amqp.allocPage
  cases hpage : s.pool.pages[s.pool.nextPage]? with
  | some block => exact ⟨h.page_again hpage hfits, fun _ _ => rfl⟩
  | none =>
    cases got with
    | false => exact ⟨h.page_none, by simp⟩
    | true =>
      cases recorded with
      | false => exact ⟨h.page_lost fun hk => absurd (hrecorded hk) (by simp), by simp⟩
      | true => exact ⟨h.page_new hfits, fun _ _ => rfl⟩

/-- A request: the assertion holds, and it is refused only by the allocator. -/
theorem Use.Sound.amqpPoolAlloc (h : s.Sound mem₀ kept) (amount : ℕ) (got recorded : Bool)
    (hrecorded : kept → recorded = true) :
    ∃ next, amqpPoolAlloc got recorded amount s.pool s.mem = some next ∧
      (s.given amount next).Sound mem₀ kept ∧
      (amount = 0 → next.1 = none) ∧
      (amount ≠ 0 → got = true → recorded = true → next.1.isSome) := by
  unfold Amqp.amqpPoolAlloc
  by_cases hzero : amount = 0
  · rw [if_pos hzero]
    exact ⟨_, rfl, h, fun _ => rfl, fun hne => absurd hzero hne⟩
  rw [if_neg hzero]
  by_cases hlarge : s.pool.pagesize < roundUp amount
  · obtain ⟨next, hnext, hsound, hsome⟩ := h.allocLarge amount got recorded
    rw [if_pos hlarge]
    exact ⟨next, hnext, hsound, fun heq => absurd heq hzero, fun _ => hsome⟩
  rw [if_neg hlarge]
  have hfits : roundUp amount ≤ s.pool.pagesize := Nat.le_of_not_lt hlarge
  obtain ⟨hpage, hsome⟩ := h.allocPage got recorded hrecorded hfits
  split
  next block hcur =>
    have hwrap : (s.pool.allocUsed + roundUp amount) % 2 ^ 64 =
        s.pool.allocUsed + roundUp amount := by
      have hsize := h.pagesize
      have hused := h.used
      exact Nat.mod_eq_of_lt (by omega)
    rw [if_neg (Nat.not_lt.mpr h.used), hwrap]
    by_cases hroom : s.pool.allocUsed + roundUp amount ≤ s.pool.pagesize
    · rw [if_pos hroom]
      exact ⟨_, rfl, h.bump hcur hroom, fun heq => absurd heq hzero, fun _ _ _ => rfl⟩
    · rw [if_neg hroom]
      exact ⟨_, rfl, hpage, fun heq => absurd heq hzero, fun _ => hsome⟩
  next => exact ⟨_, rfl, hpage, fun heq => absurd heq hzero, fun _ => hsome⟩

/-- The blocks of the lists are given back, and nothing else. -/
theorem Use.Sound.without (h : s.Sound mem₀ kept) {x : List ℕ} (hx : ∀ b ∈ x, mem₀.next ≤ b) :
    ∀ b < mem₀.next, (s.mem.without x).size b = mem₀.size b := by
  intro b hb
  have hnot : b ∉ x := fun hmem => absurd (hx b hmem) (by omega)
  exact (if_neg hnot).trans (h.others b hb)

/-- Everything is taken back. -/
theorem Use.Sound.recycle (h : s.Sound mem₀ kept) :
    ∃ next, recycleAmqpPool s.pool s.mem = some next ∧
      Use.Sound ⟨[], next.1, next.2⟩ mem₀ kept ∧ next.1.largeBlocks = [] ∧
      next.1.allocBlock = none := by
  obtain ⟨-, hlarge, hdisjoint⟩ := List.nodup_append.mp h.nodup
  have hempty := emptyBlocklist_eq hlarge fun b hb => (h.large b hb).2
  refine ⟨_, by rw [recycleAmqpPool, hempty]; rfl, ?_, rfl, rfl⟩
  exact {
    pagesize := h.pagesize
    used := Nat.zero_le _
    fresh := fun b hb => by
      have hb := h.fresh b hb
      simp only [Memory.without, hb, ite_self]
    grown := h.grown
    others := h.without fun b hb => (h.large b hb).1
    pages := fun b hb => ⟨(h.pages b hb).1,
      (if_neg fun hmem => hdisjoint b hb b hmem rfl).trans (h.pages b hb).2⟩
    large := by simp
    nodup := by
      rw [List.append_nil]
      exact (List.nodup_append.mp h.nodup).1
    current := fun b hb => absurd hb (by simp)
    own := by simp
    inside := by simp
    taken := by simp
    apart := List.Pairwise.nil
    owned := fun hk b hb hsome => by
      simp only [Memory.without] at hsome
      by_cases hmem : b ∈ s.pool.largeBlocks
      · rw [if_pos hmem] at hsome
        exact absurd hsome (by simp)
      · rw [if_neg hmem] at hsome
        exact .inl ((h.owned hk b hb hsome).resolve_right hmem) }

/-- The pages are given back too. -/
theorem Use.Sound.empty (h : s.Sound mem₀ kept) :
    ∃ next, emptyAmqpPool s.pool s.mem = some next ∧
      Use.Sound ⟨[], next.1, next.2⟩ mem₀ kept ∧ next.1.pages = [] ∧ next.1.largeBlocks = [] := by
  obtain ⟨⟨pool, mem⟩, hrecycle, h', hlarge, hnone⟩ := h.recycle
  simp only at h' hlarge hnone
  have hnodup : pool.pages.Nodup := (List.nodup_append.mp h'.nodup).1
  have hempty := emptyBlocklist_eq hnodup fun b hb => by
    have hsize := (h'.pages b hb).2
    simp only at hsize
    rw [hsize]
    rfl
  refine ⟨({ pool with pages := [] }, mem.without pool.pages), ?_, ?_, rfl, hlarge⟩
  · rw [emptyAmqpPool, hrecycle]
    simp only [Option.bind_eq_bind, Option.bind_some, hempty]
  · exact { h' with
      fresh := fun b hb => by
        have hb := h'.fresh b hb
        simp only [Memory.without]
        rw [hb, ite_self]
      others := h'.without fun b hb => (h'.pages b hb).1
      pages := by simp
      large := by simp [hlarge]
      nodup := by simp [hlarge]
      current := fun b hb => by
        rw [hnone] at hb
        exact absurd hb (by simp)
      inside := by simp
      taken := by simp
      owned := fun hk b hb hsome => by
        simp only [Memory.without] at hsome
        by_cases hmem : b ∈ pool.pages
        · rw [if_pos hmem] at hsome
          exact absurd hsome (by simp)
        · rw [if_neg hmem] at hsome
          exact absurd (h'.owned hk b hb hsome) (by simp [hmem, hlarge]) }

/-- A call. -/
theorem Use.Sound.step (h : s.Sound mem₀ kept) (c : PoolCall) (hrecorded : kept → c.Recorded) :
    ∃ next, poolStep s c = some next ∧ next.Sound mem₀ kept ∧
      (c.Answered → next.regions.map Region.amount = wanted (s.regions.map Region.amount) c) := by
  cases c with
  | alloc amount got recorded =>
    obtain ⟨⟨result, pool, mem⟩, halloc, hsound, hnone, hsome⟩ :=
      h.amqpPoolAlloc amount got recorded hrecorded
    refine ⟨_, by rw [poolStep, halloc, Option.map_some], hsound, fun hanswered => ?_⟩
    by_cases hzero : amount = 0
    · obtain rfl : result = none := hnone hzero
      rw [wanted, if_pos hzero]
      rfl
    · obtain ⟨⟨block, offset⟩, rfl⟩ :=
        Option.isSome_iff_exists.mp (hsome hzero hanswered.1 hanswered.2)
      rw [wanted, if_neg hzero]
      rfl
  | recycle =>
    obtain ⟨next, hrecycle, hsound, -⟩ := h.recycle
    exact ⟨_, by rw [poolStep, hrecycle, Option.map_some], hsound, fun _ => rfl⟩
  | empty =>
    obtain ⟨next, hempty, hsound, -⟩ := h.empty
    exact ⟨_, by rw [poolStep, hempty, Option.map_some], hsound, fun _ => rfl⟩

/-- Calls. -/
theorem Use.Sound.run (calls : List PoolCall) (h : s.Sound mem₀ kept)
    (hrecorded : kept → ∀ c ∈ calls, c.Recorded) :
    ∃ next, calls.foldlM poolStep s = some next ∧ next.Sound mem₀ kept ∧
      ((∀ c ∈ calls, c.Answered) →
        next.regions.map Region.amount = calls.foldl wanted (s.regions.map Region.amount)) := by
  induction calls generalizing s with
  | nil => exact ⟨s, rfl, h, fun _ => rfl⟩
  | cons c calls ih =>
    obtain ⟨s', hstep, h', hwanted⟩ := h.step c fun hk => hrecorded hk c List.mem_cons_self
    obtain ⟨next, hrest, hsound, hall⟩ :=
      ih h' fun hk d hd => hrecorded hk d (List.mem_cons_of_mem _ hd)
    refine ⟨next, ?_, hsound, fun hanswered => ?_⟩
    · rw [List.foldlM_cons, hstep]
      exact hrest
    · rw [List.forall_mem_cons] at hanswered
      rw [hall hanswered.2, hwanted hanswered.1, List.foldl_cons]

theorem Use.sound_init {pagesize : ℕ} (hpagesize : pagesize < 2 ^ 63)
    (hfresh : ∀ b, mem₀.next ≤ b → mem₀.size b = none) :
    Use.Sound ⟨[], initAmqpPool pagesize, mem₀⟩ mem₀ kept where
  pagesize := by
    simp only [initAmqpPool]
    split <;> omega
  used := Nat.zero_le _
  fresh := hfresh
  grown := le_rfl
  others _ _ := rfl
  pages := by simp [initAmqpPool]
  large := by simp [initAmqpPool]
  nodup := by simp [initAmqpPool]
  current := by simp [initAmqpPool]
  own := by simp
  inside := by simp
  taken := by simp
  apart := List.Pairwise.nil
  owned _ b hb hsome := by
    rw [hfresh b hb] at hsome
    exact absurd hsome (by simp)

end Use

/-- Whatever the allocator answers, what a pool handed out since it was recycled lies in blocks of
its own, no two of them sharing a byte, and other memory is as it was.  No assertion fails, nothing
is freed twice, and `empty_amqp_pool` gives everything back unless a list did not grow.  Where the
allocator has memory each request but one for no bytes is met. -/
theorem pool_run (pagesize : ℕ) (calls : List PoolCall) (mem₀ : Memory)
    (hpagesize : pagesize < 2 ^ 63) (hfresh : ∀ b, mem₀.next ≤ b → mem₀.size b = none) :
    ∃ s, calls.foldlM poolStep ⟨[], initAmqpPool pagesize, mem₀⟩ = some s ∧
      (∀ r ∈ s.regions, mem₀.next ≤ r.block ∧ r.Inside s.mem ∧
        (r.amount + 7 < 2 ^ 64 → r.stop = r.offset + blockSize r.amount)) ∧
      s.regions.Pairwise Region.Apart ∧
      (∀ b < mem₀.next, s.mem.size b = mem₀.size b) ∧
      ((∀ c ∈ calls, c.Answered) → s.regions.map Region.amount = calls.foldl wanted []) ∧
      ∃ pool mem, emptyAmqpPool s.pool s.mem = some (pool, mem) ∧
        ((∀ c ∈ calls, c.Recorded) → mem.size = mem₀.size) := by
  obtain ⟨s, hrun, hsound, hwanted⟩ := (Use.sound_init hpagesize hfresh).run calls
    (id : (∀ c ∈ calls, c.Recorded) → _)
  obtain ⟨⟨pool, mem⟩, hempty, hgone, hpages, hlarge⟩ := hsound.empty
  refine ⟨s, hrun, fun r hr => ⟨hsound.own r hr, hsound.inside r hr, fun hsmall => ?_⟩,
    hsound.apart, hsound.others, hwanted, pool, mem, hempty, fun hrecorded => ?_⟩
  · rw [Region.stop, roundUp_eq hsmall]
  · funext b
    by_cases hb : b < mem₀.next
    · exact hgone.others b hb
    · have hnone : mem.size b = none := by
        by_contra hsome
        have howned := hgone.owned hrecorded b (Nat.le_of_not_lt hb)
          (Option.isSome_iff_ne_none.mpr hsome)
        simp only at hpages hlarge
        simp [hpages, hlarge] at howned
      rw [hnone, hfresh b (Nat.le_of_not_lt hb)]

theorem pool_run_two :
    ∃ s, [.alloc 10 true true, .alloc 40 true true, .recycle, .alloc 24 true true,
        .alloc 40 true true].foldlM poolStep ⟨[], initAmqpPool 32, ⟨fun _ => none, 0⟩⟩ = some s ∧
      s.regions.Pairwise Region.Apart ∧ s.regions.map Region.amount = [40, 24] := by
  obtain ⟨s, hrun, -, hapart, -, hmet, -⟩ :=
    pool_run 32 [.alloc 10 true true, .alloc 40 true true, .recycle, .alloc 24 true true,
      .alloc 40 true true] ⟨fun _ => none, 0⟩ (by decide) fun _ _ => rfl
  exact ⟨s, hrun, hapart, hmet (by simp [PoolCall.Answered])⟩

-- a page is handed out again, what is larger than a page is not
example : ([.alloc 10 true true, .alloc 40 true true, .recycle, .alloc 24 true true,
      .alloc 16 true true].foldlM poolStep ⟨[], initAmqpPool 32, ⟨fun _ => none, 0⟩⟩).map
        Use.regions = some [⟨2, 0, 16⟩, ⟨0, 0, 24⟩] := by
  rfl

-- a page that is not recorded is never given back
example : ([.alloc 10 true false, .empty].foldlM poolStep
      ⟨[], initAmqpPool 32, ⟨fun _ => none, 0⟩⟩).map (fun s => s.mem.size 0) = some (some 32) := by
  rfl

end Amqp
