import Mathlib.Logic.Function.Basic
import Pintos.Filesys.Cache
import Pintos.Lib.Bytes

/-! # Frames, swap slots and page tables

The part of `vm` and of `userprog/pagedir.c` that moves pages between frames and swap slots.

* **Machine.**  `Machine` has the constants and the sizes that are fixed when the kernel starts.
  Addresses of pages and frames are page and frame numbers; the two levels of a page table are one
  function on page numbers, whose loops visit the pages in the order of the source.
* **Allocation.**  `used` is the bitmap of `palloc`, the frame table has its own idea of what is
  allocated (`page`), and `swapSlots` is the bitmap of the swap device.
* **Clock list.**  `lru` is a list of frame numbers.  `free_frame` does not remove anything from it,
  so that a frame number may stand in it several times.
* **Current thread.**  `Process` are the tables of `thread_current()`.
* **Stopping.**  A failed `ASSERT`, a `PANIC` and a loop that does not end stop the kernel. -/

namespace Pintos.Vm
open Bytes Function

/-! ### State -/

def PGSIZE : ℕ := 4096

theorem PGSIZE_eq : PGSIZE = 4096 := rfl

def SECTORS_PER_PAGE : ℕ := (PGSIZE + BLOCK_SECTOR_SIZE - 1) / BLOCK_SECTOR_SIZE

/-- Why the kernel does not go on. -/
inductive Stop where
  | outOfSwap
  | assertion
  | hang
deriving DecidableEq, Repr

/-- The contents of a page. -/
abbrev Page := ℕ → UInt8

/-- The machine as the kernel finds it.  `pages` is the number of pages of an address space,
`physBase` the first one that belongs to the kernel, `maxPages` the most pages of a stack. -/
structure Machine where
  initRamPages : ℕ
  userPageLimit : ℕ
  numSlots : ℕ
  pages : ℕ := 1024 * 1024
  physBase : ℕ := 3 * 1024 * 256
  maxPages : ℕ := 2 ^ 23 / PGSIZE
  physBase_le : physBase ≤ pages := by decide
  maxPages_le : maxPages ≤ physBase := by decide
  maxPages_pos : 0 < maxPages := by decide

namespace Machine

/-- The pages below one megabyte. -/
def reservedPages : ℕ := 1024 * 1024 / PGSIZE

def freePages (m : Machine) : ℕ := m.initRamPages - reservedPages

def userPages (m : Machine) : ℕ := min (m.freePages / 2) m.userPageLimit

def kernelPages (m : Machine) : ℕ := m.freePages - m.userPages

/-- `frame_init`: the frames of a pool, without the first one, which has the bitmap of the pool. -/
def valid (m : Machine) (i : ℕ) : Bool :=
  decide (reservedPages + 1 ≤ i ∧ i < reservedPages + m.kernelPages) ||
    decide (reservedPages + m.kernelPages + 1 ≤ i ∧
      i < reservedPages + m.kernelPages + m.userPages)

/-- `frame_init`: the frames of the user pool. -/
def user (m : Machine) (i : ℕ) : Bool := decide (reservedPages + m.kernelPages ≤ i)

/-- The length from which on the clock list is looked at, an `uint32_t`. -/
def clruMax (m : Machine) : ℕ :=
  if m.freePages / 2 = 0 then 2 ^ 32 - 1 else m.freePages / 2 - 1

end Machine

/-- An entry of the frame table.  `page`: a page has the frame. -/
structure FrameTableEntry where
  page : Bool
  acc : Bool
  dirty : Bool
deriving DecidableEq, Repr

/-- An entry of a supplemental page table.  `FRAME_NONE`, `SUP_NO_SWAP` and the null pointer are
`none`; a file is known by a number. -/
structure SupEntry where
  frameNo : Option ℕ
  slot : Option ℕ
  allZero : Bool
  f : Option ℕ
  fileOfs : ℕ
  pageEnd : ℕ
  writable : Bool
  loaded : Bool
  mapid : ℤ
deriving DecidableEq, Repr

/-- An entry of a page table. -/
structure Pte where
  present : Bool
  frame : ℕ
  writable : Bool
  accessed : Bool
  dirty : Bool
deriving DecidableEq, Repr

/-- The tables of a thread. -/
structure Process where
  sup : ℕ → Option SupEntry
  pagedir : ℕ → Pte
  numStackPages : ℕ

/-- The memory, the devices and the tables of the kernel and of the current thread.  Writing to
the file `x` is denied if `denyWrite x`. -/
structure State extends Process where
  used : ℕ → Bool
  frameTable : ℕ → FrameTableEntry
  mem : ℕ → Page
  lru : List ℕ
  swapSlots : ℕ → Bool
  swapBlock : ℕ → Page
  files : ℕ → List UInt8
  denyWrite : ℕ → Bool
  lastMapid : ℤ

namespace State

variable (m : Machine)

/-! ### Swap slots -/

/-- The first slot that is available. -/
def swapAlloc (v : State) : Except Stop (ℕ × State) :=
  match (List.range m.numSlots).find? fun s => !v.swapSlots s with
  | some s => .ok (s, { v with swapSlots := update v.swapSlots s true })
  | none => .error .outOfSwap

def swapFree (v : State) (slot : ℕ) : Except Stop State :=
  if slot < m.numSlots ∧ v.swapSlots slot = true then
    .ok { v with swapSlots := update v.swapSlots slot false }
  else .error .assertion

def swapSlotToSector (v : State) (slot : ℕ) : Except Stop ℕ :=
  if slot < m.numSlots ∧ v.swapSlots slot = true then .ok (slot * SECTORS_PER_PAGE)
  else .error .assertion

/-- The loop of `swap_write`: `addr` is the page that is written. -/
def writeSectors (first : ℕ) (addr : Page) (block : ℕ → Page) : ℕ → Page :=
  (List.range SECTORS_PER_PAGE).foldl (fun block s =>
    update block (first + s) fun i => addr (BLOCK_SECTOR_SIZE * s + i)) block

/-- The loop of `swap_read`: `addr` is the page that is overwritten. -/
def readSectors (first : ℕ) (block : ℕ → Page) (addr : Page) : Page :=
  (List.range SECTORS_PER_PAGE).foldl (fun addr s i =>
    if BLOCK_SECTOR_SIZE * s ≤ i ∧ i < BLOCK_SECTOR_SIZE * s + BLOCK_SECTOR_SIZE then
      block (first + s) (i - BLOCK_SECTOR_SIZE * s)
    else addr i) addr

def swapWrite (v : State) (slot frameNo : ℕ) : Except Stop State := do
  let first ← v.swapSlotToSector m slot
  return { v with swapBlock := writeSectors first (v.mem frameNo) v.swapBlock }

def swapRead (v : State) (slot frameNo : ℕ) : Except Stop State := do
  let first ← v.swapSlotToSector m slot
  return { v with
    mem := update v.mem frameNo (readSectors first v.swapBlock (v.mem frameNo)) }

/-! ### Page tables -/

/-- Kernel allocations for page tables succeed. -/
def pagedirSetPage (v : State) (upage frameNo : ℕ) (writable : Bool) : Except Stop State :=
  if upage < m.physBase ∧ frameNo < m.initRamPages ∧ (v.pagedir upage).present = false then
    .ok { v with pagedir := update v.pagedir upage ⟨true, frameNo, writable, false, false⟩ }
  else .error .assertion

def pagedirClearPage (v : State) (upage : ℕ) : Except Stop State :=
  if upage < m.physBase then
    .ok { v with
      pagedir := update v.pagedir upage { v.pagedir upage with present := false } }
  else .error .assertion

/-! ### The clock list -/

def clruEnqueue (v : State) (fn : ℕ) : State := { v with lru := v.lru ++ [fn] }

def clruEvict (v : State) : Except Stop (ℕ × State) :=
  match v.lru with
  | [] => .error .assertion
  | fn :: rest => .ok (fn, { v with lru := rest })

/-- One round of `set_bits`. -/
def setBitsAt (v : State) (page : ℕ) : State :=
  match (v.sup page).bind SupEntry.frameNo with
  | none => v
  | some frameNo =>
    { v with
      frameTable := update v.frameTable frameNo
        { v.frameTable frameNo with
          acc := (v.frameTable frameNo).acc || (v.pagedir page).accessed
          dirty := (v.frameTable frameNo).dirty || (v.pagedir page).dirty } }

/-- Copy the bits of the page table to the frame table. -/
def setBits (v : State) : State := (List.range m.pages).foldl setBitsAt v

/-- The loop of `clru_timer_tick`: `passed` has been looked at, `todo` begins with the entry that is
looked at next.  An entry that is moved to the back is looked at again, unless it was the last. -/
def rotate : ℕ → (ℕ → FrameTableEntry) → List ℕ → List ℕ →
    Except Stop ((ℕ → FrameTableEntry) × List ℕ)
  | 0, _, _, _ => .error .hang
  | _ + 1, table, passed, [] => .ok (table, passed)
  | fuel + 1, table, passed, fn :: rest =>
    if (table fn).acc then
      if rest = [] then
        .ok (update table fn { table fn with acc := false }, passed ++ [fn])
      else
        rotate fuel (update table fn { table fn with acc := false }) passed (rest ++ [fn])
    else rotate fuel table (passed ++ [fn]) rest

/-- Every entry is moved at most once, so that the loop is done after two rounds for each. -/
def clruTimerTick (v : State) : Except Stop State :=
  if v.lru.length < m.clruMax then .ok v
  else do
    let v := v.setBits m
    let (frameTable, lru) ← rotate (2 * v.lru.length + 1) v.frameTable [] v.lru
    return { v with frameTable, lru }

/-! ### Frames -/

/-- The first frame of the pool that is not used.  `PAL_ZERO`: it is filled with zeros. -/
def pallocGetPage (v : State) (user : Bool) : Option (ℕ × State) :=
  ((List.range m.initRamPages).find? fun i =>
    m.valid i && (m.user i == user) && !v.used i).map fun i =>
      (i, { v with
        used := update v.used i true
        mem := update v.mem i fun _ => 0 })

/-- The page is filled with `0xcc`. -/
def pallocFreePage (v : State) (frameNo : ℕ) : Except Stop State :=
  if m.valid frameNo = true ∧ v.used frameNo = true then
    .ok { v with
      used := update v.used frameNo false
      mem := update v.mem frameNo fun _ => 0xcc }
  else .error .assertion

/-- One round of the last loop of `evict`. -/
def redirect (victim newSwap : ℕ) (v : State) (page : ℕ) : Except Stop State :=
  match v.sup page with
  | none => .ok v
  | some entry =>
    if entry.frameNo = some victim then
      if entry.slot = none then
        let entry := { entry with slot := some newSwap, frameNo := none }
        pagedirClearPage m { v with sup := update v.sup page (some entry) } page
      else .error .assertion
    else .ok v

/-- Only the tables of the current thread are searched for the victim. -/
def evict (v : State) (user : Bool) : Except Stop (ℕ × State) :=
  if user = false ∨ ((List.range m.initRamPages).any fun i =>
      !(v.frameTable i).page && m.valid i && (m.user i == user)) = true then .error .assertion
  else do
    let (victim, v) ← v.clruEvict
    let (newSwap, v) ← v.swapAlloc m
    let v ← v.swapWrite m newSwap victim
    let v ← (List.range m.pages).foldlM (redirect m victim newSwap) v
    return (victim, v)

/-- A free frame, or the one of a page that is evicted. -/
def getFrame (v : State) (user : Bool) : Except Stop (ℕ × State) := do
  let (frameNo, v) ←
    match v.pallocGetPage m user with
    | some x => .ok x
    | none => do
      let (frameNo, v) ← v.evict m user
      .ok (frameNo, { v with mem := update v.mem frameNo fun _ => 0 })
  if frameNo < m.initRamPages ∧ m.user frameNo = user ∧ m.valid frameNo = true then
    let v := { v with frameTable := update v.frameTable frameNo ⟨true, false, false⟩ }
    .ok (frameNo, if user then v.clruEnqueue frameNo else v)
  else .error .assertion

/-- The clock list keeps its entries for the frame. -/
def freeFrame (v : State) (frameNo : ℕ) : Except Stop State :=
  if frameNo < m.initRamPages ∧ (v.frameTable frameNo).page = true then do
    let v ← v.pallocFreePage m frameNo
    return { v with frameTable := update v.frameTable frameNo ⟨false, false, false⟩ }
  else .error .assertion

/-- Read `size` bytes of a file, or as many as there are, to a frame. -/
def frameRead (v : State) (f : Option ℕ) (frameNo size offset : ℕ) : Option State :=
  f.map fun f => { v with
    mem := update v.mem frameNo
      (overwrite (v.mem frameNo) 0 (((v.files f).drop offset).take size)) }

/-- Write `size` bytes of a frame to a file. -/
def frameWrite (v : State) (f : Option ℕ) (frameNo size offset : ℕ) : State :=
  match f with
  | none => v
  | some f =>
    if v.denyWrite f then v
    else { v with
      files := update v.files f (write (v.files f) offset (slice (v.mem frameNo) 0 size)) }

end State

end Pintos.Vm
