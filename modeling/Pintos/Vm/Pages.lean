import Pintos.Vm.Frames

/-! # Pages of a process

`vm/page.c`, the page fault handler, and what a process does with its memory.

* **Supplemental entries.**  A page of a file is not loaded when it is mapped; a page of zeros is.
* **Unmapping.**  `sup_remove_map` and `sup_free_table` have the same loop.  For pages that are in
  swap it needs a frame of its own (`temp_swap_frame`), and getting it may evict a page that the loop
  has not reached yet.
* **Faults.**  When the stack pointer is near the end of the stack, the handler only extends the
  stack and returns, so that the same access faults again.  An access is tried until it gets through
  or the process is killed; three tries are enough. -/

namespace Pintos.Vm
open Function

/-- The number that `mmap` returns if it fails, and the mapping of pages of zeros. -/
def MAP_FAILED : ℤ := -1

namespace State

variable (m : Machine)

/-! ### Mapping -/

def supSetEntry (v : State) (upage : ℕ) (entry : SupEntry) : State :=
  { v with sup := update v.sup upage (some entry) }

def supRemoveEntry (v : State) (upage : ℕ) : State :=
  { v with sup := update v.sup upage none }

/-- A page of zeros at `vaddr`.  The result is false if the address is not that of a page, or if the
page is mapped already. -/
def supAllocAllZeros (v : State) (vaddr : ℕ) (user : Bool) : Except Stop (Bool × State) := do
  let (frameNo, v) ← v.getFrame m user
  if vaddr % PGSIZE ≠ 0 then
    let v ← v.freeFrame m frameNo
    return (false, v)
  else if (v.sup (vaddr / PGSIZE)).isSome then
    let v ← v.freeFrame m frameNo
    return (false, v)
  else
    let v ← v.pagedirSetPage m (vaddr / PGSIZE) frameNo true
    return (true, v.supSetEntry (vaddr / PGSIZE)
      { frameNo := some frameNo, slot := none, allZero := true, f := none, fileOfs := 0
        pageEnd := PGSIZE, writable := true, loaded := true, mapid := MAP_FAILED })

def supAllocSegment (v : State) (upage file : ℕ) (writable : Bool) (offset pageEnd : ℕ)
    (mapid : ℤ) : Except Stop State :=
  if (v.sup upage).isSome then .error .assertion
  else .ok (v.supSetEntry upage
    { frameNo := none, slot := none, allZero := false, f := some file, fileOfs := offset
      pageEnd, writable, loaded := false, mapid })

/-- The number of pages of a file. -/
def numPages (size : ℕ) : ℕ := size / PGSIZE + if size % PGSIZE ≠ 0 then 1 else 0

/-- The page of an address that is `page` pages above `vaddr`; addresses wrap around. -/
def pageAbove (vaddr page : ℕ) : ℕ := (vaddr / PGSIZE + page) % m.pages

/-- Map a file.  The last page ends at `file_size % PGSIZE`, which is 0 if the file fills it. -/
def supAllocFile (v : State) (vaddr file : ℕ) (writable : Bool) : Except Stop (ℤ × State) :=
  let fileSize := (v.files file).length
  if vaddr % PGSIZE ≠ 0 then .ok (MAP_FAILED, v)
  else if (List.range (numPages fileSize)).any
      (fun page => (v.sup (pageAbove m vaddr page)).isSome) then .ok (MAP_FAILED, v)
  else do
    let mapid := v.lastMapid
    let v ← (List.range (numPages fileSize)).foldlM (fun v page =>
      v.supAllocSegment (pageAbove m vaddr page) file writable (PGSIZE * page)
        (if page = numPages fileSize - 1 then fileSize % PGSIZE else PGSIZE) mapid)
      { v with lastMapid := v.lastMapid + 1 }
    return (mapid, v)

/-! ### Loading -/

/-- Load the page of `vaddr` from its file or from swap. -/
def supLoadPage (v : State) (vaddr : ℕ) (user write : Bool) : Except Stop (Bool × State) :=
  let upage := vaddr / PGSIZE
  match v.sup upage with
  | none => .ok (false, v)
  | some spe =>
    if spe.loaded = true ∧ spe.slot = none then .ok (false, v)
    else if write = true ∧ spe.writable = false then .ok (false, v)
    else do
      let (frameNo, v) ← v.getFrame m user
      match spe.slot with
      | none =>
        match v.frameRead spe.f frameNo spe.pageEnd spe.fileOfs with
        | none =>
          let v ← v.freeFrame m frameNo
          return (false, v)
        | some v =>
          let v ← v.pagedirSetPage m upage frameNo spe.writable
          return (true, v.supSetEntry upage
            { spe with frameNo := some frameNo, loaded := true })
      | some slot =>
        let v ← v.swapRead m slot frameNo
        let v ← v.swapFree m slot
        let v ← v.pagedirSetPage m upage frameNo spe.writable
        return (true, v.supSetEntry upage
          { spe with slot := none, frameNo := some frameNo, loaded := true })

/-! ### Unmapping -/

/-- One round of the loop that unmaps: the page of `entry`, which is in a frame. -/
def unmapFrame (v : State) (page : ℕ) (entry : SupEntry) : Except Stop State :=
  match entry.frameNo with
  | none => .error .assertion
  | some frameNo => do
    let v := if entry.writable && !entry.allZero && (v.frameTable frameNo).dirty &&
        entry.pageEnd != 0 then
      v.frameWrite entry.f frameNo entry.pageEnd entry.fileOfs else v
    let v ← v.pagedirClearPage m page
    v.freeFrame m frameNo

/-- One round of the loop that unmaps: the page of `entry`, which is in the swap slot `slot`. -/
def unmapSlot (v : State) (temp : Option ℕ) (entry : SupEntry) (slot : ℕ) :
    Except Stop (Option ℕ × State) := do
  let (temp, v) ←
    if entry.writable && !entry.allZero && entry.pageEnd != 0 then do
      let (frameNo, v) ← match temp with
        | some frameNo => .ok (frameNo, v)
        | none => v.getFrame m true
      let v ← v.swapRead m slot frameNo
      .ok (some frameNo, v.frameWrite entry.f frameNo entry.pageEnd entry.fileOfs)
    else .ok (temp, v)
  let v ← v.swapFree m slot
  return (temp, v)

/-- One round of the loop that unmaps the pages that `chosen` holds for. -/
def unmapPage (chosen : SupEntry → Bool) (x : Option ℕ × State) (page : ℕ) :
    Except Stop (Option ℕ × State) :=
  match x.2.sup page with
  | none => .ok x
  | some entry =>
    if chosen entry then do
      let (temp, v) ←
        if entry.loaded then
          match entry.slot with
          | none => do
            let v ← x.2.unmapFrame m page entry
            .ok (x.1, v)
          | some slot => x.2.unmapSlot m x.1 entry slot
        else .ok x
      return (temp, v.supRemoveEntry page)
    else .ok x

/-- The loop of `sup_remove_map` and `sup_free_table`. -/
def unmapPages (chosen : SupEntry → Bool) (v : State) : Except Stop State := do
  let (temp, v) ← (List.range m.pages).foldlM (unmapPage m chosen) (none, v.setBits m)
  match temp with
  | some frameNo => v.freeFrame m frameNo
  | none => return v

def supRemoveMap (v : State) (mapid : ℤ) : Except Stop State :=
  v.unmapPages m fun entry => entry.mapid == mapid

def supFreeTable (v : State) : Except Stop State := v.unmapPages m fun _ => true

/-! ### Page faults -/

/-- The stack pointer is at most 32 bytes above the end of the stack.  The difference is an `int`,
since `page_fault` also asks that the pointer be in the region of the stack (`mayGrow`). -/
def nearEnd (v : State) (esp : ℕ) : Bool :=
  decide ((esp : ℤ) - (m.physBase * PGSIZE - v.numStackPages * PGSIZE) ≤ 32)

/-- The loop that extends the stack.  It is not checked whether a page was allocated. -/
def growStack (esp : ℕ) : ℕ → State → Except Stop State
  | 0, v => if v.nearEnd m esp && decide (v.numStackPages < m.maxPages) then .error .hang else .ok v
  | fuel + 1, v =>
    if v.nearEnd m esp && decide (v.numStackPages < m.maxPages) then do
      let (_, v) ←
        v.supAllocAllZeros m ((m.physBase - (v.numStackPages + 1)) * PGSIZE) true
      growStack esp fuel { v with numStackPages := v.numStackPages + 1 }
    else .ok v

/-- Whether the stack is to be extended. -/
def mayGrow (v : State) (esp : ℕ) : Bool :=
  decide (v.numStackPages < m.maxPages) && v.nearEnd m esp &&
    decide ((m.physBase - m.maxPages) * PGSIZE ≤ esp)

/-- The stack is extended, whatever the address was, or else the page is loaded.  The result is false
if the process is killed. -/
def pageFault (v : State) (esp faultAddr : ℕ) (user write : Bool) : Except Stop (Bool × State) :=
  if v.mayGrow m esp then do
    let v ← v.growStack m esp (m.maxPages - v.numStackPages)
    return (true, v)
  else if user = true ∧ m.physBase ≤ faultAddr / PGSIZE then .ok (false, v)
  else v.supLoadPage m faultAddr user write

/-! ### A process and its memory -/

/-- The processor lets the access through. -/
def permits (v : State) (upage : ℕ) (write : Bool) : Bool :=
  decide (upage < m.physBase) && (v.pagedir upage).present && (!write || (v.pagedir upage).writable)

/-- Try an access until it gets through (true) or the process is killed (false). -/
def access (esp vaddr : ℕ) (write : Bool) : ℕ → State → Except Stop (Bool × State)
  | 0, _ => .error .hang
  | tries + 1, v =>
    if v.permits m (vaddr / PGSIZE) write then .ok (true, v)
    else do
      let (ok, v) ← v.pageFault m esp vaddr true write
      if ok then access esp vaddr write tries v else .ok (false, v)

/-- Read a byte.  There is no byte if the process is killed. -/
def userRead (v : State) (esp vaddr : ℕ) : Except Stop (Option UInt8 × State) := do
  let (ok, v) ← access m esp vaddr false 3 v
  if ok then
    let pte := v.pagedir (vaddr / PGSIZE)
    return (some (v.mem pte.frame (vaddr % PGSIZE)),
      { v with pagedir := update v.pagedir (vaddr / PGSIZE) { pte with accessed := true } })
  else return (none, v)

/-- Write a byte.  The result is false if the process is killed. -/
def userWrite (v : State) (esp vaddr : ℕ) (b : UInt8) : Except Stop (Bool × State) := do
  let (ok, v) ← access m esp vaddr true 3 v
  if ok then
    let pte := v.pagedir (vaddr / PGSIZE)
    return (true, { v with
      mem := update v.mem pte.frame
        (update (v.mem pte.frame) (vaddr % PGSIZE) b)
      pagedir := update v.pagedir (vaddr / PGSIZE)
        { pte with accessed := true, dirty := true } })
  else return (false, v)

end State

/-- What happens to a process.  `enter esp` is the entry of a system call, which extends the stack
as a page fault does. -/
inductive Op where
  | setupStack
  | read (esp vaddr : ℕ)
  | write (esp vaddr : ℕ) (b : UInt8)
  | enter (esp : ℕ)
  | mmap (vaddr file : ℕ)
  | munmap (mapid : ℤ)
  | tick
deriving DecidableEq, Repr

namespace State

variable (m : Machine)

/-- `mmap` refuses the null pointer and kills the process for an address of the kernel. -/
def step (v : State) : Op → Except Stop (Bool × State)
  | .setupStack => v.supAllocAllZeros m ((m.physBase - 1) * PGSIZE) true
  | .read esp vaddr => do
    let (b, v) ← v.userRead m esp vaddr
    return (b.isSome, v)
  | .write esp vaddr b => v.userWrite m esp vaddr b
  | .enter esp =>
    if v.mayGrow m esp then do
      let v ← v.growStack m esp (m.maxPages - v.numStackPages)
      return (true, v)
    else .ok (true, v)
  | .mmap vaddr file =>
    if vaddr = 0 then .ok (true, v)
    else if m.physBase ≤ vaddr / PGSIZE then .ok (false, v)
    else do
      let (_, v) ← v.supAllocFile m vaddr file true
      return (true, v)
  | .munmap mapid => do
    let v ← v.supRemoveMap m mapid
    return (true, v)
  | .tick => do
    let v ← v.clruTimerTick m
    return (true, v)

/-- A run ends early if the process is killed (false). -/
def exec : List Op → State → Except Stop (Bool × State)
  | [], v => .ok (true, v)
  | op :: ops, v => do
    let (alive, v) ← v.step m op
    if alive then exec ops v else .ok (false, v)

end State

end Pintos.Vm
