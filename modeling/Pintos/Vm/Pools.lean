import Pintos.Vm.Frames

/-! # The page pools

How `palloc_init`, `frame_init` and `clru_init` divide the memory, in the arithmetic of the source.

* **Words.**  `size_t` and pointers are numbers below `2 ^ 32`, and what is computed with them is
  taken modulo `2 ^ 32`.  The difference of two pointers is an `int`.
* **Panics.**  There is no result if an assertion fails or the kernel panics.
* **Bitmaps.**  `init_pool` computes how many pages the bitmap of a pool takes, `frame_init` counts
  one page for it, and so does `clru_init`, which does not know the limit of the user pool. -/

namespace Pintos.Vm
open Option

def LOADER_PHYS_BASE : ℕ := 0xc0000000

def ptov (paddr : ℕ) : Option ℕ :=
  if paddr < LOADER_PHYS_BASE then some ((paddr + LOADER_PHYS_BASE) % 2 ^ 32) else none

def vtof (vaddr : ℕ) : Option ℕ :=
  if LOADER_PHYS_BASE ≤ vaddr then some ((vaddr - LOADER_PHYS_BASE) / PGSIZE) else none

/-- A word as an `int`. -/
def signed (x : ℕ) : ℤ := if x < 2 ^ 31 then x else x - 2 ^ 32

/-- A number as a word. -/
def unsigned (x : ℤ) : ℕ := (x % 2 ^ 32).toNat

/-- `DIV_ROUND_UP`. -/
def divRoundUp (x step : ℕ) : ℕ := (x + step - 1) % 2 ^ 32 / step

/-! ### Pools -/

/-- `sizeof (struct bitmap)` and the elements, of 32 bits each. -/
def bitmapBufSize (bitCnt : ℕ) : ℕ := (8 + 4 * divRoundUp bitCnt 32) % 2 ^ 32

/-- A pool: the address of its first page and the number of bits of its bitmap. -/
structure Pool where
  base : ℕ
  pageCnt : ℕ
deriving DecidableEq, Repr

def initPool (base pageCnt : ℕ) : Option Pool :=
  let bmPages := divRoundUp (bitmapBufSize pageCnt) PGSIZE
  if bmPages > pageCnt then none
  else if bitmapBufSize (pageCnt - bmPages) ≤ bmPages * PGSIZE % 2 ^ 32 then
    some ⟨(base + bmPages * PGSIZE) % 2 ^ 32, pageCnt - bmPages⟩
  else none

/-- The start of the free memory and the number of its pages. -/
def freePages (initRamPages : ℕ) : Option (ℕ × ℕ) := do
  let freeStart ← ptov (1024 * 1024)
  let freeEnd ← ptov (initRamPages * PGSIZE % 2 ^ 32)
  return (freeStart, unsigned ((signed (unsigned (freeEnd - freeStart))).tdiv PGSIZE))

/-- The kernel pool and the user pool. -/
def pallocInit (initRamPages userPageLimit : ℕ) : Option (Pool × Pool) := do
  let (freeStart, freePages) ← freePages initRamPages
  let userPages := min (freePages / 2) userPageLimit
  let kernelPages := freePages - userPages
  let kernelPool ← initPool freeStart kernelPages
  let userPool ← initPool ((freeStart + kernelPages * PGSIZE) % 2 ^ 32) userPages
  return (kernelPool, userPool)

/-- `palloc_get_page` can return the page with this number. -/
def Pool.HandsOut (p : Pool) (i : ℕ) : Prop :=
  ∃ pageIdx < p.pageCnt, vtof ((p.base + PGSIZE * pageIdx) % 2 ^ 32) = some i

/-! ### The frame table and the clock list -/

/-- What `frame_init` writes to an entry of the frame table. -/
structure FrameKind where
  valid : Bool
  user : Bool
deriving DecidableEq, Repr

/-- One round of the loop of `frame_init`. -/
def frameKind (reservedPages kernelPages userPages i : ℕ) : Option FrameKind :=
  if i < reservedPages then some ⟨false, false⟩
  else if i < (reservedPages + 1) % 2 ^ 32 then some ⟨false, false⟩
  else if i < (reservedPages + kernelPages) % 2 ^ 32 then some ⟨true, false⟩
  else if i < (reservedPages + kernelPages + 1) % 2 ^ 32 then some ⟨false, true⟩
  else if i < (reservedPages + kernelPages + userPages) % 2 ^ 32 then some ⟨true, true⟩
  else none

/-- The frame table, which has `initRamPages` entries. -/
def frameInit (initRamPages userPageLimit : ℕ) : Option (ℕ → FrameKind) := do
  let (freeStart, freePages) ← freePages initRamPages
  let reservedPages := (freeStart - LOADER_PHYS_BASE) / PGSIZE
  let userPages := min (freePages / 2) userPageLimit
  let kernelPages := freePages - userPages
  let kind := frameKind reservedPages kernelPages userPages
  if (List.range initRamPages).all fun i => (kind i).isSome then
    return fun i => (kind i).getD ⟨false, false⟩
  else none

/-- The value of `max`. -/
def clruInit (initRamPages : ℕ) : Option ℕ := do
  let (_, freePages) ← freePages initRamPages
  return unsigned (freePages / 2 - 1)

/-- The three layouts agree. -/
def PoolsAgree (initRamPages userPageLimit : ℕ) : Prop :=
  ∃ kernelPool userPool frameTable max,
    pallocInit initRamPages userPageLimit = some (kernelPool, userPool) ∧
    frameInit initRamPages userPageLimit = some frameTable ∧ clruInit initRamPages = some max ∧
    (∀ i, i < initRamPages ∧ frameTable i = ⟨true, true⟩ ↔ userPool.HandsOut i) ∧
    (∀ i, i < initRamPages ∧ frameTable i = ⟨true, false⟩ ↔ kernelPool.HandsOut i) ∧
    max = userPool.pageCnt

/-! ### The number of free pages -/

section
variable {n limit base : ℕ}

/-- The address one megabyte above `PHYS_BASE`. -/
def FREE_START : ℕ := LOADER_PHYS_BASE + 1024 * 1024

/-- The difference of two pointers is negative if they are more than half of the address space
apart. -/
theorem signed_diff (hp : p < 786432) :
    signed (unsigned (((p * PGSIZE + LOADER_PHYS_BASE) % 2 ^ 32 : ℕ) - (FREE_START : ℕ))) =
      PGSIZE * (p - 256 - if p < 524544 then 0 else 2 ^ 20) := by
  unfold signed unsigned PGSIZE FREE_START
  split_ifs with h1 h2 h2
  · omega
  · omega
  · omega
  · omega

/-- The number of free pages is computed from the number of pages of memory modulo `2 ^ 20`. -/
theorem freePages_eq (n : ℕ) : freePages n =
    if n % 2 ^ 20 < 786432 then some (FREE_START,
      unsigned ((n % 2 ^ 20 : ℕ) - 256 - if n % 2 ^ 20 < 524544 then 0 else 2 ^ 20)) else none := by
  have hmod : n * PGSIZE % 2 ^ 32 = n % 2 ^ 20 * PGSIZE := Nat.mul_mod_mul_right PGSIZE n (2 ^ 20)
  have hsta : ptov (1024 * 1024) = some FREE_START := by decide
  rw [freePages, hmod, hsta]
  by_cases hp : n % 2 ^ 20 < 786432
  · have hend : ptov (n % 2 ^ 20 * PGSIZE) =
        some ((n % 2 ^ 20 * PGSIZE + LOADER_PHYS_BASE) % 2 ^ 32) :=
      if_pos (by unfold PGSIZE LOADER_PHYS_BASE; omega)
    rw [if_pos hp, hend]
    simp only [bind_eq_bind, bind_some, signed_diff hp]
    rw [Int.mul_tdiv_cancel_left _ (by decide)]
    rfl
  · have hend : ptov (n % 2 ^ 20 * PGSIZE) = none :=
      if_neg (by unfold PGSIZE LOADER_PHYS_BASE; omega)
    rw [if_neg hp, hend]
    rfl

theorem freePages_of_le (h1 : 256 ≤ n) (h2 : n < 524544) :
    freePages n = some (FREE_START, n - 256) := by
  have hfree : unsigned (n - 256 - 0) = n - 256 := by
    unfold unsigned
    omega
  rw [freePages_eq, Nat.mod_eq_of_lt (by omega), if_pos (by omega), if_pos h2, hfree]

/-- A small number of free pages is the right one, up to the part of the memory that is lost in
`init_ram_pages * PGSIZE`. -/
theorem of_freePages (h : freePages n = some (start, free)) (hfree : free < 2 ^ 31) :
    start = FREE_START ∧ n % 2 ^ 20 = free + 256 := by
  rw [freePages_eq] at h
  split_ifs at h with h1 h2
  · simp only [some.injEq, Prod.mk.injEq, unsigned] at h
    exact ⟨h.1.symm, by omega⟩
  · simp only [some.injEq, Prod.mk.injEq, unsigned] at h
    exact ⟨h.1.symm, by omega⟩

/-! ### Bitmaps -/

theorem bmPages_eq_one_iff (hn : n ≤ 2 ^ 31 + 1) :
    divRoundUp (bitmapBufSize n) PGSIZE = 1 ↔ n ≤ 32704 := by
  unfold bitmapBufSize divRoundUp PGSIZE
  omega

theorem one_le_bmPages (n : ℕ) : 1 ≤ divRoundUp (bitmapBufSize n) PGSIZE := by
  unfold bitmapBufSize divRoundUp PGSIZE
  omega

theorem initPool_of_le (h1 : 1 ≤ n) (h2 : n ≤ 32704) :
    initPool base n = some ⟨(base + PGSIZE) % 2 ^ 32, n - 1⟩ := by
  have hn : n ≤ 2 ^ 31 + 1 := by omega
  have hbm := (bmPages_eq_one_iff hn).mpr h2
  have hsize : bitmapBufSize (n - 1) ≤ 1 * PGSIZE % 2 ^ 32 := by
    unfold bitmapBufSize divRoundUp PGSIZE
    omega
  rw [initPool]
  simp only [hbm]
  rw [if_neg (by omega), if_pos hsize, Nat.one_mul]

theorem of_initPool (h : initPool base n = some p) :
    divRoundUp (bitmapBufSize n) PGSIZE ≤ n ∧
      p = ⟨(base + divRoundUp (bitmapBufSize n) PGSIZE * PGSIZE) % 2 ^ 32,
        n - divRoundUp (bitmapBufSize n) PGSIZE⟩ := by
  rw [initPool] at h
  split_ifs at h with h1 h2
  exact ⟨by omega, (some.inj h).symm⟩

theorem handsOut_iff (h : first + cnt ≤ 2 ^ 18) (i : ℕ) :
    Pool.HandsOut ⟨LOADER_PHYS_BASE + PGSIZE * first, cnt⟩ i ↔ first ≤ i ∧ i < first + cnt := by
  have hpage : ∀ pageIdx < cnt, vtof ((LOADER_PHYS_BASE + PGSIZE * first + PGSIZE * pageIdx) %
      2 ^ 32) = some (first + pageIdx) := by
    intro pageIdx hidx
    unfold vtof LOADER_PHYS_BASE PGSIZE
    rw [if_pos (by omega)]
    congr 1
    omega
  constructor
  · rintro ⟨pageIdx, hidx, hi⟩
    replace hidx : pageIdx < cnt := hidx
    rw [hpage pageIdx hidx, some.injEq] at hi
    omega
  · intro hi
    refine ⟨i - first, show i - first < cnt by omega, ?_⟩
    rw [hpage _ (by omega), Nat.add_sub_cancel' hi.1]

/-! ### Agreement -/

theorem frameKind_eq (h : 256 + k + u < 2 ^ 31) (hk : 1 ≤ k) :
    (frameKind 256 k u i = some ⟨true, false⟩ ↔ 257 ≤ i ∧ i < 256 + k) ∧
      (frameKind 256 k u i = some ⟨true, true⟩ ↔ 256 + k + 1 ≤ i ∧ i < 256 + k + u) ∧
      (frameKind 256 k u i = none ↔ 256 + k + 1 ≤ i ∧ 256 + k + u ≤ i) := by
  unfold frameKind
  split_ifs <;> simp <;> omega

theorem reserved_eq : (FREE_START - LOADER_PHYS_BASE) / PGSIZE = 256 := by decide

theorem of_frameInit (hfree : freePages n = some (start, free)) (h : frameInit n limit = some table)
    (hi : i < n) : frameKind ((start - LOADER_PHYS_BASE) / PGSIZE)
      (free - min (free / 2) limit) (min (free / 2) limit) i = some (table i) := by
  rw [frameInit, hfree] at h
  simp only [bind_eq_bind, bind_some] at h
  split_ifs at h with hall
  cases h
  obtain ⟨kind, hkind⟩ :=
    isSome_iff_exists.mp (List.all_eq_true.mp hall i (List.mem_range.mpr hi))
  simp [hkind]

theorem pallocInit_of_le (hn : 256 ≤ n) (hu : u = min ((n - 256) / 2) limit)
    (hk : k = n - 256 - u) (h1 : 1 ≤ u) (h2 : k ≤ 32704) :
    pallocInit n limit = some (⟨LOADER_PHYS_BASE + PGSIZE * 257, k - 1⟩,
      ⟨LOADER_PHYS_BASE + PGSIZE * (257 + k), u - 1⟩) := by
  have hkrn : initPool FREE_START k = some ⟨LOADER_PHYS_BASE + PGSIZE * 257, k - 1⟩ := by
    rw [initPool_of_le (by omega) (by omega)]
    rfl
  have huser : initPool ((FREE_START + k * PGSIZE) % 2 ^ 32) u =
      some ⟨LOADER_PHYS_BASE + PGSIZE * (257 + k), u - 1⟩ := by
    have hbase : ((FREE_START + k * PGSIZE) % 2 ^ 32 + PGSIZE) % 2 ^ 32 =
        LOADER_PHYS_BASE + PGSIZE * (257 + k) := by
      unfold FREE_START LOADER_PHYS_BASE PGSIZE
      omega
    rw [initPool_of_le (by omega) (by omega), hbase]
  rw [pallocInit, freePages_of_le hn (by omega)]
  simp only [bind_eq_bind, bind_some, ← hu, ← hk, hkrn, huser]
  rfl

theorem poolsAgree_of (h1 : 260 < n) (h2 : n ≤ 65664) (h3 : (n - 256) / 2 ≤ limit) :
    PoolsAgree n limit := by
  obtain ⟨u, hu⟩ : ∃ u, u = (n - 256) / 2 := ⟨_, rfl⟩
  obtain ⟨k, hk⟩ : ∃ k, k = n - 256 - u := ⟨_, rfl⟩
  have hfree := freePages_of_le (n := n) (by omega) (by omega)
  have hmin : min ((n - 256) / 2) limit = u := by omega
  have hkind := fun i => frameKind_eq (k := k) (u := u) (i := i) (by omega) (by omega)
  have hall : ((List.range n).all fun i => (frameKind 256 k u i).isSome) = true := by
    rw [List.all_eq_true]
    intro i hi
    rw [isSome_iff_ne_none, ne_eq, (hkind i).2.2]
    have := List.mem_range.mp hi
    omega
  have hfra : frameInit n limit = some fun i => (frameKind 256 k u i).getD ⟨false, false⟩ := by
    rw [frameInit, hfree]
    simp only [bind_eq_bind, bind_some, hmin, reserved_eq, ← hk, hall]
    rfl
  have htbl : ∀ i kind, kind.valid = true →
      ((frameKind 256 k u i).getD ⟨false, false⟩ = kind ↔ frameKind 256 k u i = some kind) := by
    intro i kind hvalid
    cases frameKind 256 k u i with
    | none =>
      refine iff_of_false ?_ (by simp)
      rintro rfl
      cases hvalid
    | some kind' => simp
  refine ⟨⟨LOADER_PHYS_BASE + PGSIZE * 257, k - 1⟩, ⟨LOADER_PHYS_BASE + PGSIZE * (257 + k), u - 1⟩,
    _, u - 1, pallocInit_of_le (by omega) hmin.symm hk (by omega) (by omega), hfra, ?_,
    fun i => ?_, fun i => ?_, rfl⟩
  · rw [clruInit, hfree]
    simp only [bind_eq_bind, bind_some, unsigned]
    congr 1
    omega
  · rw [htbl i _ rfl, (hkind i).2.1, handsOut_iff (by omega)]
    omega
  · rw [htbl i _ rfl, (hkind i).1, handsOut_iff (by omega)]
    omega

theorem freePages_lt (h : freePages n = some (start, free)) : free < 2 ^ 32 := by
  rw [freePages_eq] at h
  split_ifs at h
  all_goals
    simp only [some.injEq, Prod.mk.injEq, unsigned] at h
    omega

/-- Where the clock list and the user pool agree, the limit has no effect, and the bitmap of the user
pool takes one page. -/
theorem of_max_eq {free max : ℕ} (hfree : free < 2 ^ 32)
    (hmax : max = unsigned (free / 2 - 1)) (hp : initPool base (min (free / 2) limit) = some p)
    (h : max = p.pageCnt) : free / 2 ≤ limit ∧ 1 ≤ free / 2 ∧ free / 2 ≤ 32704 := by
  obtain ⟨u, hu⟩ : ∃ u, u = min (free / 2) limit := ⟨_, rfl⟩
  rw [← hu] at hp
  obtain ⟨hle, rfl⟩ := of_initPool hp
  have hone := one_le_bmPages u
  have hmax' : max = free / 2 - 1 := by
    rw [hmax, unsigned]
    omega
  replace h : max = u - divRoundUp (bitmapBufSize u) PGSIZE := h
  have hbm : divRoundUp (bitmapBufSize u) PGSIZE = 1 := by omega
  have := (bmPages_eq_one_iff (by omega)).mp hbm
  omega

theorem of_poolsAgree (h : PoolsAgree n limit) : n ≤ 65664 ∧ (n - 256) / 2 ≤ limit := by
  obtain ⟨kernelPool, userPool, frameTable, max, hpal, hfra, hclru, huser, hkrn, hmax⟩ := h
  cases hf : freePages n with
  | none => rw [clruInit, hf] at hclru; cases hclru
  | some x =>
    obtain ⟨start, free⟩ := x
    have hlt := freePages_lt hf
    rw [clruInit, hf] at hclru
    rw [pallocInit, hf] at hpal
    simp only [bind_eq_bind, bind_some] at hpal
    obtain ⟨kp, hkp, hpal⟩ := bind_eq_some_iff.mp hpal
    obtain ⟨up, hup, hpal⟩ := bind_eq_some_iff.mp hpal
    cases hpal
    obtain ⟨hlmt, hone, hsml⟩ := of_max_eq hlt (some.inj hclru).symm hup hmax
    obtain ⟨rfl, hn⟩ := of_freePages hf (by omega)
    have hkind := fun i (hi : i < n) => of_frameInit hf hfra hi
    rw [reserved_eq, Nat.min_eq_left hlmt] at hkind
    rw [Nat.min_eq_left hlmt] at hkp
    obtain ⟨k, hk⟩ : ∃ k, k = free - free / 2 := ⟨_, rfl⟩
    rw [← hk] at hkind hkp
    have hbra := fun i => frameKind_eq (k := k) (u := free / 2) (i := i) (by omega) (by omega)
    -- there is no page beyond the two pools
    have hle : n ≤ 256 + free := by
      by_contra hgt
      have := ((hbra (256 + free)).2.2).mpr (by omega)
      simp [hkind (256 + free) (by omega)] at this
    -- the second page of the kernel pool is not part of its bitmap
    have hk_le : k ≤ 32704 := by
      by_contra hk_gt
      have hfir : frameTable 257 = ⟨true, false⟩ := by
        have := ((hbra 257).1).mpr (by omega)
        rw [hkind 257 (by omega)] at this
        exact some.inj this
      obtain ⟨pageIdx, hidx, hpage⟩ := (hkrn 257).mp ⟨by omega, hfir⟩
      obtain ⟨hbm_le, rfl⟩ := of_initPool hkp
      have hone := one_le_bmPages k
      have hne := mt (bmPages_eq_one_iff (by omega)).mp hk_gt
      replace hidx : pageIdx < k - divRoundUp (bitmapBufSize k) PGSIZE := hidx
      generalize divRoundUp (bitmapBufSize k) PGSIZE = bmPages at *
      unfold vtof FREE_START PGSIZE at hpage
      split_ifs at hpage with hbase
      rw [some.injEq] at hpage
      dsimp only at hpage
      omega
    omega

/-- The three layouts agree exactly if the limit has no effect and the bitmap of each pool takes one
page. -/
theorem pools_agree_iff (n limit : ℕ) (hn : 260 < n) :
    PoolsAgree n limit ↔ n ≤ 65664 ∧ (n - 256) / 2 ≤ limit :=
  ⟨of_poolsAgree, fun h => poolsAgree_of hn h.1 h.2⟩

/-- The layouts of a machine with four megabytes and no limit. -/
theorem pools_agree_iff_default :
    260 < 1024 ∧ (PoolsAgree 1024 (2 ^ 32 - 1) ↔ 1024 ≤ 65664 ∧ (1024 - 256) / 2 ≤ 2 ^ 32 - 1) :=
  ⟨by decide, pools_agree_iff 1024 (2 ^ 32 - 1) (by decide)⟩

/-- With four megabytes and a limit of 64 pages the clock list waits for 383 frames, but the user pool
has 63. -/
theorem limited_pools_disagree :
    clruInit 1024 = some 383 ∧ (pallocInit 1024 64).map (fun x => x.2.pageCnt) = some 63 ∧
      ¬ PoolsAgree 1024 64 :=
  ⟨by decide, by decide, fun h => absurd (of_poolsAgree h).2 (by decide)⟩

end

end Pintos.Vm
