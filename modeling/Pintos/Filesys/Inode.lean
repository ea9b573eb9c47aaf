import Pintos.Filesys.Cache

/-! # Inodes and the free map

`filesys/inode.c` and `filesys/free-map.c`, over a device that is an array of sectors.

* **Sectors.**  `cache_read` and `cache_write` read and write parts of sectors of a flat array; the
  assertions of both functions and the bound check of the block layer are kept.
* **Tables.**  An indirect sector holds 128 little-endian numbers.  In memory a table is a function
  on indices, of which the first 128 exist.
* **Free map.**  `free_map` has one bit for each sector of the device.  `free_map_file` is given by
  the in-memory copy of its inode, `none` for a null pointer; the file has the size of the bitmap
  from the beginning, and a write of the bitmap that would have to grow it is left out (`none`).
* **Numbers.**  An `off_t` is a natural number, since no caller passes a negative one; where the
  code computes with signed or wrapping numbers the expression says so.
* Memory allocation succeeds.  A failed `ASSERT`, a null dereference and an access behind the end
  of an array are `none`. -/

namespace Pintos
open Bytes Function

def FREE_MAP_SECTOR : ℕ := 0
def ROOT_DIR_SECTOR : ℕ := 1
def INODE_MAGIC : ℕ := 0x494e4f44
def NUM_ENTRIES_IN_INDIRECT : ℕ := 128

/-- The device below the file system. -/
structure Disk where
  /-- `block_size (fs_device)`. -/
  size : ℕ
  block : ℕ → Block

namespace Disk

def cacheRead (d : Disk) (s size offset : ℕ) : Option (List UInt8) :=
  if size + offset ≤ BLOCK_SECTOR_SIZE ∧ s < d.size then some (slice (d.block s) offset size)
  else none

/-- The device with `buf` in sector `s` from `offset` on. -/
def put (d : Disk) (s : ℕ) (buf : List UInt8) (offset : ℕ) : Disk :=
  { d with block := update d.block s (overwrite (d.block s) offset buf) }

def cacheWrite (d : Disk) (s : ℕ) (buf : List UInt8) (offset : ℕ) : Option Disk :=
  if buf.length + offset ≤ BLOCK_SECTOR_SIZE ∧ s < d.size then some (d.put s buf offset) else none

end Disk

/-! ### On-disk structures -/

/-- A sector number in a buffer. -/
def sectorOf (buf : List UInt8) : ℕ := word 4 (region buf)

/-- The sector numbers of an indirect sector. -/
abbrev Table := ℕ → ℕ

/-- The table in a buffer. -/
def tableOf (buf : List UInt8) : Table := fun k => word 4 fun i => region buf (4 * k + i)

/-- The buffer that holds a table. -/
def tableBytes (t : Table) : List UInt8 :=
  slice (fun j => byte (t (j / 4)) (j % 4)) 0 BLOCK_SECTOR_SIZE

def zeros : List UInt8 := List.replicate BLOCK_SECTOR_SIZE 0

/-- `struct inode_disk` without its unused words. -/
structure InodeDisk where
  length : ℕ
  isDirectory : Bool
  doubleIndirect : ℕ
  magic : ℕ
deriving DecidableEq, Repr

namespace InodeDisk

/-- The sector that holds an inode. -/
def bytes (data : InodeDisk) : List UInt8 :=
  slice (fun j =>
    if j < 4 then byte data.length j
    else if j = 4 then (if data.isDirectory then 1 else 0)
    else if 8 ≤ j ∧ j < 12 then byte data.doubleIndirect (j - 8)
    else if 12 ≤ j ∧ j < 16 then byte data.magic (j - 12)
    else 0) 0 BLOCK_SECTOR_SIZE

/-- The inode that a sector holds. -/
def ofBytes (buf : List UInt8) : InodeDisk where
  length := word 4 (region buf)
  isDirectory := region buf 4 != 0
  doubleIndirect := word 4 fun i => region buf (8 + i)
  magic := word 4 fun i => region buf (12 + i)

end InodeDisk

/-- `struct inode` without its list element and the extension lock. -/
structure Inode where
  sector : ℕ
  openCnt : ℕ
  removed : Bool
  denyWriteCnt : ℕ
  data : InodeDisk
  fileCount : ℤ
  /-- The holder of `dir_lock`. -/
  dirLock : Option ℕ
deriving DecidableEq, Repr

/-! ### From offsets to sectors -/

/-- `indices_from_offset`, with the quotient of C, which is stored in a `size_t`. -/
def indicesFromOffset (pos : ℤ) : ℕ × ℕ :=
  let dirIdx := (pos.tdiv BLOCK_SECTOR_SIZE % 2 ^ 32).toNat
  (dirIdx % NUM_ENTRIES_IN_INDIRECT, dirIdx / NUM_ENTRIES_IN_INDIRECT)

namespace Disk

/-- `byte_to_sector`; the inner `none` is the result `-1`. -/
def byteToSector (d : Disk) (data : InodeDisk) (pos : ℕ) : Option (Option ℕ) :=
  if data.magic = INODE_MAGIC then do
    let (dirIdx, indIdx) := indicesFromOffset pos
    let buf ← d.cacheRead data.doubleIndirect 4 (4 * indIdx)
    if sectorOf buf = 0 then some none
    else do
      let buf ← d.cacheRead (sectorOf buf) 4 (4 * dirIdx)
      if sectorOf buf = 0 then some none else some (some (sectorOf buf))
  else none

/-- The number of bytes that the loops of `inode_read_at` and `inode_write_at` take from one
sector.  The bytes left in the inode are cut off at zero, which `chunk_size <= 0` does not see. -/
def chunkSize (data : InodeDisk) (size offset : ℕ) : ℕ :=
  min size (min (data.length - offset) (BLOCK_SECTOR_SIZE - offset % BLOCK_SECTOR_SIZE))

/-- The loop of `inode_read_at`.  Each turn takes at least one byte, so `size` turns are enough. -/
def readLoop (d : Disk) (data : InodeDisk) : (fuel size offset : ℕ) → Option (List UInt8)
  | 0, size, _ => if size = 0 then some [] else none
  | fuel + 1, size, offset =>
    if size = 0 then some []
    else do
      let sectorIdx ← d.byteToSector data offset
      let chunk := chunkSize data size offset
      if chunk = 0 then some []
      else match sectorIdx with
        | none => d.readLoop data fuel (size - chunk) (offset + chunk)
        | some s => do
          let buf ← d.cacheRead s chunk (offset % BLOCK_SECTOR_SIZE)
          let rest ← d.readLoop data fuel (size - chunk) (offset + chunk)
          some (buf ++ rest)

/-- The loop of `inode_write_at`, with the number of bytes written. -/
def writeLoop (data : InodeDisk) :
    (fuel : ℕ) → Disk → (buf : List UInt8) → (offset : ℕ) → Option (ℕ × Disk)
  | 0, d, buf, _ => if buf = [] then some (0, d) else none
  | fuel + 1, d, buf, offset =>
    if buf = [] then some (0, d)
    else do
      let sectorIdx ← d.byteToSector data offset
      let chunk := chunkSize data buf.length offset
      if chunk = 0 then some (0, d)
      else do
        -- `cache_write` asserts that the sector is not `-1`
        let s ← sectorIdx
        let d ← d.cacheWrite s (buf.take chunk) (offset % BLOCK_SECTOR_SIZE)
        let (written, d) ← writeLoop data fuel d (buf.drop chunk) (offset + chunk)
        some (chunk + written, d)

end Disk

/-! ### The free map -/

/-- The device, `free_map`, and the inode of `free_map_file`. -/
structure Volume where
  disk : Disk
  freeMap : ℕ → Bool
  freeMapFile : Option InodeDisk

/-- `byte_cnt`: the bitmap is an array of 32-bit words. -/
def byteCnt (bitCnt : ℕ) : ℕ := 4 * ((bitCnt + 31) / 32)

/-- One byte of the array behind a bitmap. -/
def bitmapByte (bits : ℕ → Bool) (bitCnt j : ℕ) : UInt8 :=
  UInt8.ofNat ((List.range 8).map fun k =>
    if 8 * j + k < bitCnt ∧ bits (8 * j + k) then 2 ^ k else 0).sum

/-- The map with the bits in `l` set. -/
def mark (bits : ℕ → Bool) (l : List ℕ) : ℕ → Bool := fun s => bits s || decide (s ∈ l)

/-- The map with the bits in `l` cleared. -/
def reset (bits : ℕ → Bool) (l : List ℕ) : ℕ → Bool := fun s => bits s && !decide (s ∈ l)

namespace Volume

/-- The free sectors in ascending order. -/
def freeSectors (v : Volume) : List ℕ := (List.range v.disk.size).filter fun s => !v.freeMap s

/-- `bitmap_write` to `free_map_file`: `file_write_at` passes the array to `inode_write_at`. -/
def bitmapWrite (v : Volume) (file : InodeDisk) : Option (Bool × Volume) :=
  let buf := slice (bitmapByte v.freeMap v.disk.size) 0 (byteCnt v.disk.size)
  if buf.length ≤ file.length then do
    let (written, d) ← Disk.writeLoop file buf.length v.disk buf 0
    some (written = buf.length, { v with disk := d })
  else none

/-- `free_map_file != NULL && !bitmap_write (..)`, negated. -/
def persist (v : Volume) : Option (Bool × Volume) :=
  match v.freeMapFile with
  | none => some (true, v)
  | some file => v.bitmapWrite file

/-- `free_map_allocate_single`. -/
def freeMapAllocateSingle (v : Volume) : Option (Option ℕ × Volume) :=
  match v.freeSectors.head? with
  | none => some (none, v)
  | some s => do
    let (ok, v) ← { v with freeMap := mark v.freeMap [s] }.persist
    if ok then some (some s, v)
    else some (none, { v with freeMap := reset v.freeMap [s] })

/-- `free_map_release_single`. -/
def freeMapReleaseSingle (v : Volume) (s : ℕ) : Option Volume :=
  if s < v.disk.size ∧ v.freeMap s then do
    let file ← v.freeMapFile
    let (_, v) ← { v with freeMap := reset v.freeMap [s] }.bitmapWrite file
    some v
  else none

/-! ### Growing and creating -/

def cacheWrite (v : Volume) (s : ℕ) (buf : List UInt8) : Option Volume := do
  let d ← v.disk.cacheWrite s buf 0
  some { v with disk := d }

def readTable (d : Disk) (s : ℕ) : Option Table := do
  let buf ← d.cacheRead s BLOCK_SECTOR_SIZE 0
  some (tableOf buf)

/-- The loop of `inode_extend_file` over `available_sectors`.  It returns the tables in memory and
the index of the indirect table that `dir` is. -/
def extendLoop (d : Disk) (ind dir : Table) (indIdx dirIdx : ℕ) :
    List ℕ → Option (Disk × Table × Table × ℕ)
  | [] => some (d, ind, dir, indIdx)
  | a :: rest =>
    if dirIdx + 1 ≠ NUM_ENTRIES_IN_INDIRECT then do
      let d ← d.cacheWrite a zeros 0
      extendLoop d ind (update dir (dirIdx + 1) a) indIdx (dirIdx + 1) rest
    else match rest with
      -- the table is full: the sector becomes a new one, and the next sector its first entry
      | [] => none
      | b :: rest =>
        if indIdx + 1 < NUM_ENTRIES_IN_INDIRECT then do
          let d ← d.cacheWrite (ind indIdx) (tableBytes dir) 0
          let d ← d.cacheWrite b zeros 0
          extendLoop d (update ind (indIdx + 1) a)
            (update (fun _ => 0) 0 b) (indIdx + 1) 0 rest
        else none

/-- The number of sectors that `inode_extend_file` allocates, computed in `size_t`. -/
def newSectors (length cnt : ℕ) : ℕ :=
  let (dirIdxF, indIdxF) := indicesFromOffset (((length : ℤ) + cnt - 1).bmod (2 ^ 32))
  let (dirIdx, indIdx) := indicesFromOffset ((length : ℤ) - 1)
  let fileSectors : ℤ :=
    ((indIdxF : ℤ) - indIdx) * NUM_ENTRIES_IN_INDIRECT + ((dirIdxF : ℤ) - dirIdx)
  ((fileSectors + ((indIdxF : ℤ) - indIdx)) % 2 ^ 32).toNat

/-- The end of `inode_extend_file`: enter the allocated sectors into the tables. -/
def enterSectors (d : Disk) (data : InodeDisk) (length : ℕ) (available : List ℕ) :
    Option Disk := do
  let (dirIdx, indIdx) := indicesFromOffset ((length : ℤ) - 1)
  let ind ← readTable d data.doubleIndirect
  if indIdx < NUM_ENTRIES_IN_INDIRECT then do
    let dir ← readTable d (ind indIdx)
    let (d, ind, dir, indIdx) ← extendLoop d ind dir indIdx dirIdx available
    let d ← d.cacheWrite (ind indIdx) (tableBytes dir) 0
    d.cacheWrite data.doubleIndirect (tableBytes ind) 0
  else none

/-- `inode_extend_file`, with the inode that it leaves. -/
def inodeExtendFile (v : Volume) (data : InodeDisk) (cnt : ℕ) :
    Option (Bool × Volume × InodeDisk) :=
  if data.magic = INODE_MAGIC then
    let new := newSectors data.length cnt
    if v.freeSectors.length < new then some (false, v, data)
    else
      let data' := { data with length := data.length + cnt }
      if new = 0 then some (true, v, data')
      else do
        -- the scan finds as many free bits as were counted
        let available := v.freeSectors.take new
        let (ok, v) ← { v with freeMap := mark v.freeMap available }.persist
        if ok then do
          let d ← enterSectors v.disk data data.length available
          some (true, { v with disk := d }, data')
        else some (false, { v with freeMap := reset v.freeMap available }, data')
  else none

/-- `inode_create`.  Note that the inode is also written when the allocation has failed. -/
def inodeCreate (v : Volume) (sector length : ℕ) (isDirectory : Bool) :
    Option (Bool × Volume) := do
  let inode : InodeDisk := ⟨0, isDirectory, 0, INODE_MAGIC⟩
  let (double, v) ← v.freeMapAllocateSingle
  match double with
  | none => do
    let v ← v.cacheWrite sector inode.bytes
    some (false, v)
  | some double => do
    let inode := { inode with doubleIndirect := double }
    let (ind, v) ← v.freeMapAllocateSingle
    match ind with
    | none => do
      let v ← v.freeMapReleaseSingle double
      let v ← v.cacheWrite sector inode.bytes
      some (false, v)
    | some ind => do
      let (dir, v) ← v.freeMapAllocateSingle
      match dir with
      | none => do
        let v ← v.freeMapReleaseSingle double
        let v ← v.freeMapReleaseSingle ind
        let v ← v.cacheWrite sector inode.bytes
        some (false, v)
      | some dir => do
        let v ← v.cacheWrite dir zeros
        let v ← v.cacheWrite ind (tableBytes (update (fun _ => 0) 0 dir))
        let v ← v.cacheWrite double (tableBytes (update (fun _ => 0) 0 ind))
        let (ok, v, inode) ← v.inodeExtendFile inode length
        if ok then do
          let v ← v.cacheWrite sector inode.bytes
          some (true, v)
        else do
          let v ← v.freeMapReleaseSingle ind
          let v ← v.freeMapReleaseSingle double
          some (false, v)

/-! ### Opening, reading, writing and closing -/

/-- `inode_open` of an inode that is not open yet. -/
def inodeOpen (v : Volume) (sector : ℕ) : Option Inode := do
  let buf ← v.disk.cacheRead sector BLOCK_SECTOR_SIZE 0
  let data := InodeDisk.ofBytes buf
  if data.magic = INODE_MAGIC then some ⟨sector, 1, false, 0, data, 0, none⟩ else none

/-- `free_map_init`. -/
def freeMapInit (d : Disk) : Volume where
  disk := d
  freeMap := fun s => s == FREE_MAP_SECTOR || s == ROOT_DIR_SECTOR
  freeMapFile := none

/-- `free_map_create`. -/
def freeMapCreate (v : Volume) : Option Volume := do
  let (ok, v) ← v.inodeCreate FREE_MAP_SECTOR (byteCnt v.disk.size) false
  if ok then do
    let inode ← v.inodeOpen FREE_MAP_SECTOR
    let (ok, v) ← { v with freeMapFile := some inode.data }.bitmapWrite inode.data
    if ok then some v else none
  else none

/-- `inode_read_at`, with the bytes put into the buffer. -/
def inodeReadAt (v : Volume) (inode : Inode) (size offset : ℕ) : Option (List UInt8) :=
  if inode.data.magic = INODE_MAGIC then v.disk.readLoop inode.data size size offset else none

/-- The growth of the file at the start of `inode_write_at`.  The result of `inode_extend_file` is
not looked at. -/
def growTo (v : Volume) (data : InodeDisk) (writePosition : ℤ) : Option (Volume × InodeDisk) :=
  if writePosition > data.length then do
    let (_, v, data) ← v.inodeExtendFile data (writePosition - data.length).toNat
    some (v, data)
  else some (v, data)

/-- `inode_write_at`. -/
def inodeWriteAt (v : Volume) (inode : Inode) (buf : List UInt8) (offset : ℕ) :
    Option (ℕ × Volume × Inode) :=
  if inode.data.magic = INODE_MAGIC then
    if inode.denyWriteCnt ≠ 0 then some (0, v, inode)
    else do
      let writePosition := ((offset : ℤ) + buf.length).bmod (2 ^ 32)
      let (v, data) ← v.growTo inode.data writePosition
      let (written, d) ← Disk.writeLoop data buf.length v.disk buf offset
      some (written, { v with disk := d }, { inode with data := data })
  else none

/-- The inner loop of `inode_close` over the entries of an indirect table, and whether it ran to
the end.  It stops at the first entry that is in use. -/
def releaseEntries (dir : Table) : (left : ℕ) → Volume → Option (Volume × Bool)
  | 0, v => some (v, true)
  | left + 1, v =>
    let i := NUM_ENTRIES_IN_INDIRECT - (left + 1)
    if dir i ≠ 0 then some (v, false)
    else do
      let v ← v.freeMapReleaseSingle (dir i)
      releaseEntries dir left v

/-- The outer loop of `inode_close` over the double indirect table. -/
def releaseTables (ind : Table) : (left : ℕ) → Volume → Option Volume
  | 0, _ => none
  | left + 1, v =>
    let k := NUM_ENTRIES_IN_INDIRECT - (left + 1)
    if ind k = 0 then some v
    else do
      let dir ← readTable v.disk (ind k)
      let (v, full) ← releaseEntries dir NUM_ENTRIES_IN_INDIRECT v
      let v ← v.freeMapReleaseSingle (ind k)
      if full then releaseTables ind left v else some v

/-- `inode_close`, with the inode as long as it stays open. -/
def inodeClose (v : Volume) (inode : Inode) : Option (Volume × Option Inode) :=
  if inode.data.magic = INODE_MAGIC then
    if inode.openCnt ≠ 1 then some (v, some { inode with openCnt := inode.openCnt - 1 })
    else do
      let v ← v.cacheWrite inode.sector inode.data.bytes
      if inode.removed then do
        let ind ← readTable v.disk inode.data.doubleIndirect
        let v ← releaseTables ind NUM_ENTRIES_IN_INDIRECT v
        let v ← v.freeMapReleaseSingle inode.data.doubleIndirect
        let v ← v.freeMapReleaseSingle inode.sector
        some (v, none)
      else some (v, none)
  else none

end Volume

end Pintos
