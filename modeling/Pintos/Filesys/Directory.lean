import Pintos.Filesys.Inode

/-! # Directories and the file system

`filesys/directory.c` and `filesys/filesys.c`, with the open inodes of `filesys/inode.c`.

* **Memory.**  An in-memory inode is known by its address.  Addresses are not used again, so an
  access through a pointer to a freed inode is an access to nothing (`none`).  A `struct dir` and a
  `struct file` are the inode they point to; directory positions play no part in these functions.
* **Strings.**  A C string is the list of its bytes without the terminator.  The name in a directory
  entry is terminated, since `dir_add` writes it with `strlcpy`; what is left over behind the
  terminator is not modelled.
* **Out-parameter.**  `dir_lookup` assigns `*inode` at every level, also when it fails in the end, so
  the model passes the value of `*inode` through.
* **Threads.**  Calls run one after the other.  `dir_lock` is held by a thread; a call that would have
  to wait for another thread is `none`, as is a failed `ASSERT` or `PANIC`. -/

namespace Pintos
open Bytes

def NAME_MAX : ℕ := 14
def MAX_FILES_PER_DIR : ℕ := 150

/-- A string without its terminator. -/
abbrev CString := List UInt8

/-- The character `/`. -/
def slash : UInt8 := 47

/-- The string `"."`. -/
def childLink : CString := [46]

/-- The string `".."`. -/
def parentLink : CString := [46, 46]

/-- `struct dir_entry`. -/
structure DirEntry where
  inodeSector : ℕ
  name : CString
  inUse : Bool
deriving DecidableEq, Repr

namespace DirEntry

/-- `sizeof (struct dir_entry)`. -/
def SIZE : ℕ := 20

/-- The bytes of an entry: the sector, the name in 15 bytes, and the flag. -/
def bytes (e : DirEntry) : List UInt8 :=
  slice (fun j =>
    if j < 4 then byte e.inodeSector j
    else if j < 19 then region e.name (j - 4)
    else if e.inUse then 1 else 0) 0 SIZE

/-- The entry in a buffer. -/
def ofBytes (buf : List UInt8) : DirEntry where
  inodeSector := word 4 (region buf)
  name := (slice (region buf) 4 (NAME_MAX + 1)).takeWhile fun c => c != 0
  inUse := region buf 19 != 0

end DirEntry

/-- The volume and the open inodes. -/
structure FileSys where
  vol : Volume
  heap : ℕ → Option Inode
  openInodes : List ℕ
  /-- The next address that `malloc` returns. -/
  next : ℕ

namespace FileSys

/-! ### Open inodes -/

def setInode (fs : FileSys) (p : ℕ) (i : Inode) : FileSys :=
  { fs with heap := Function.update fs.heap p (some i) }

/-- The open inode for a sector, if there is one. -/
def findOpen (fs : FileSys) (sector : ℕ) : Option ℕ :=
  fs.openInodes.find? fun p => (fs.heap p).any fun i => i.sector == sector

/-- `inode_reopen`, also as `file_get_inode`. -/
def inodeReopen (fs : FileSys) (p : ℕ) : Option FileSys := do
  let i ← fs.heap p
  if i.data.magic = INODE_MAGIC then some (fs.setInode p { i with openCnt := i.openCnt + 1 })
  else none

/-- `inode_open`, with the inode. -/
def inodeOpen (fs : FileSys) (sector : ℕ) : Option (ℕ × FileSys) :=
  match fs.findOpen sector with
  | some p => do
    let fs ← fs.inodeReopen p
    some (p, fs)
  | none => do
    let i ← fs.vol.inodeOpen sector
    some (fs.next, { fs.setInode fs.next i with
      openInodes := fs.next :: fs.openInodes, next := fs.next + 1 })

/-- `inode_close`. -/
def inodeClose (fs : FileSys) (p : ℕ) : Option FileSys := do
  let i ← fs.heap p
  let (v, i) ← fs.vol.inodeClose i
  match i with
  | some i => some { fs.setInode p i with vol := v }
  | none => some { fs with
      vol := v, heap := Function.update fs.heap p none, openInodes := fs.openInodes.erase p }

/-- `inode_remove`. -/
def inodeRemove (fs : FileSys) (p : ℕ) : Option FileSys := do
  let i ← fs.heap p
  if i.data.magic = INODE_MAGIC then some (fs.setInode p { i with removed := true }) else none

def inodeWriteAt (fs : FileSys) (p : ℕ) (buf : List UInt8) (offset : ℕ) :
    Option (ℕ × FileSys) := do
  let i ← fs.heap p
  let (n, v, i) ← fs.vol.inodeWriteAt i buf offset
  some (n, { fs.setInode p i with vol := v })

/-- `directory_lock`. -/
def directoryLock (fs : FileSys) (tid p : ℕ) : Option FileSys := do
  let i ← fs.heap p
  match i.dirLock with
  | none => some (fs.setInode p { i with dirLock := some tid })
  | some holder => if holder = tid then some fs else none

/-- `directory_release`. -/
def directoryRelease (fs : FileSys) (tid p : ℕ) : Option FileSys := do
  let i ← fs.heap p
  if i.dirLock = some tid then some (fs.setInode p { i with dirLock := none }) else none

/-! ### Directories -/

/-- The loop of `lookup` from `ofs` on, with the entry and its offset. -/
def lookupLoop (v : Volume) (i : Inode) (name : CString) :
    (fuel ofs : ℕ) → Option (Option (DirEntry × ℕ))
  | 0, _ => none
  | fuel + 1, ofs => do
    let buf ← v.inodeReadAt i DirEntry.SIZE ofs
    if buf.length = DirEntry.SIZE then
      let e := DirEntry.ofBytes buf
      if e.inUse ∧ e.name = name then some (some (e, ofs))
      else lookupLoop v i name fuel (ofs + DirEntry.SIZE)
    else some none

/-- `lookup`.  A directory of `length` bytes has been read after this many turns. -/
def lookup (fs : FileSys) (dir : ℕ) (name : CString) : Option (Option (DirEntry × ℕ)) := do
  let i ← fs.heap dir
  lookupLoop fs.vol i name (i.data.length / DirEntry.SIZE + 1) 0

/-- `dir_lookup`, with the value that `*inode` has in the end.  Each level takes at least one
character off the path. -/
def dirLookup : (fuel : ℕ) → FileSys → (dir : ℕ) → (path : CString) → (inode : Option ℕ) →
    Option (Bool × Option ℕ × FileSys)
  | 0, _, _, _, _ => none
  | fuel + 1, fs, dir, path, inode =>
    let path := path.dropWhile fun c => c == slash
    if path = [] then some (true, some dir, fs)
    else do
      let name := path.takeWhile fun c => c != slash
      let nameEnd := path.dropWhile fun c => c != slash
      let found ← fs.lookup dir name
      match found with
      | none => some (false, inode, fs)
      | some (e, _) => do
        let (p, fs) ← fs.inodeOpen e.inodeSector
        let i ← fs.heap p
        if i.data.isDirectory then dirLookup fuel fs p nameEnd (some p)
        else some (nameEnd = [], some p, fs)

/-- The loop of `dir_add` that looks for a free slot. -/
def slotLoop (v : Volume) (i : Inode) : (fuel ofs : ℕ) → Option ℕ
  | 0, _ => none
  | fuel + 1, ofs => do
    let buf ← v.inodeReadAt i DirEntry.SIZE ofs
    if buf.length = DirEntry.SIZE ∧ (DirEntry.ofBytes buf).inUse then
      slotLoop v i fuel (ofs + DirEntry.SIZE)
    else some ofs

/-- `dir_add`. -/
def dirAdd (fs : FileSys) (dir : ℕ) (name : CString) (inodeSector : ℕ) :
    Option (Bool × FileSys) :=
  if name = [] ∨ name.length > NAME_MAX then some (false, fs)
  else do
    let found ← fs.lookup dir name
    if found.isSome then some (false, fs)
    else do
      let i ← fs.heap dir
      let ofs ← slotLoop fs.vol i (i.data.length / DirEntry.SIZE + 1) 0
      let (n, fs) ← fs.inodeWriteAt dir (DirEntry.bytes ⟨inodeSector, name, true⟩) ofs
      some (n = DirEntry.SIZE, fs)

/-- `dir_remove`. -/
def dirRemove (fs : FileSys) (dir : ℕ) (name : CString) : Option (Bool × FileSys) := do
  let found ← fs.lookup dir name
  match found with
  | none => some (false, fs)
  | some (e, ofs) => do
    let (p, fs) ← fs.inodeOpen e.inodeSector
    let (n, fs) ← fs.inodeWriteAt dir (DirEntry.bytes { e with inUse := false }) ofs
    if n = DirEntry.SIZE then do
      let fs ← fs.inodeRemove p
      let fs ← fs.inodeClose p
      some (true, fs)
    else do
      let fs ← fs.inodeClose p
      some (false, fs)

/-! ### Paths -/

/-- The loop of `split_path_parent_name`: the last slash at or before a position, or 0. -/
def endOfParent (path : CString) : ℕ → ℕ
  | 0 => 0
  | n + 1 => if region path (n + 1) = slash then n + 1 else endOfParent path n

/-- `split_path_parent_name`.  It means to ignore slashes at the end of the path of a directory and
to refuse them for a file, but the character it looks at is the terminator. -/
def splitPathParentName (path : CString) : Option (CString × CString) :=
  if path.length = 0 then none
  else
    let n := endOfParent path path.length
    if n = 0 then
      let n := if region path 0 = slash then 1 else 0
      some (path.take n, path.drop n)
    else some (path.take n, path.drop (n + 1))

/-- `filesys_open` for a thread in the directory `cwd`, with the inode of the file.  The result of
`dir_lookup` is not looked at. -/
def filesysOpen (fs : FileSys) (cwd : ℕ) (path : CString) : Option (Option ℕ × FileSys) :=
  match path with
  | [] => do
    let (p, fs) ← fs.inodeOpen cwd
    some (some p, fs)
  | c :: rest => do
    let (dir, fs) ← fs.inodeOpen (if c = slash then ROOT_DIR_SECTOR else cwd)
    let path := if c = slash then rest else path
    let (_, inode, fs) ← dirLookup (path.length + 1) fs dir path none
    let fs ← fs.inodeClose dir
    some (inode, fs)

/-! ### Creating and removing -/

/-- The `.` and `..` entries, if the new file is a directory.  The results of `dir_add` are not
looked at. -/
def addLinks (fs : FileSys) (isDirectory : Bool) (sector parentSector : ℕ) : Option FileSys :=
  if isDirectory then do
    let (dir, fs) ← fs.inodeOpen sector
    let (_, fs) ← fs.dirAdd dir parentLink parentSector
    let (_, fs) ← fs.dirAdd dir childLink sector
    fs.inodeClose dir
  else some fs

/-- The allocations of `filesys_create`: the value of `success` and of `inode_sector`. -/
def createEntry (fs : FileSys) (parent : ℕ) (name : CString) (initialSize : ℕ)
    (isDirectory : Bool) : Option (Bool × ℕ × FileSys) := do
  let (sector, v) ← fs.vol.freeMapAllocateSingle
  match sector with
  | none => some (false, 0, { fs with vol := v })
  | some sector => do
    let (ok, v) ← v.inodeCreate sector initialSize isDirectory
    if ok then do
      let (ok, fs) ← { fs with vol := v }.dirAdd parent name sector
      some (ok, sector, fs)
    else some (false, sector, { fs with vol := v })

/-- The part of `filesys_create` that runs with the parent directory open and locked. -/
def createIn (fs : FileSys) (tid parent : ℕ) (name : CString) (initialSize : ℕ)
    (isDirectory : Bool) : Option (Bool × FileSys) := do
  let (found, _, fs) ← dirLookup (name.length + 1) fs parent name none
  -- this return leaves the directory locked
  if found then some (false, fs)
  else do
    let i ← fs.heap parent
    let (success, sector, fs) ← fs.createEntry parent name initialSize isDirectory
    if success then do
      let fs ← fs.addLinks isDirectory sector i.sector
      let i ← fs.heap parent
      let fs ← (fs.setInode parent { i with fileCount := i.fileCount + 1 }).inodeClose parent
      let fs ← fs.directoryRelease tid parent
      some (true, fs)
    else do
      let v ← if sector ≠ 0 then fs.vol.freeMapReleaseSingle sector else some fs.vol
      let fs ← { fs with vol := v }.inodeClose parent
      let fs ← fs.directoryRelease tid parent
      some (false, fs)

/-- `filesys_create`.  The file that is opened for the parent directory is never closed. -/
def filesysCreate (fs : FileSys) (tid cwd : ℕ) (path : CString) (initialSize : ℕ)
    (isDirectory : Bool) : Option (Bool × FileSys) :=
  match splitPathParentName path with
  | none => some (false, fs)
  | some (parentName, name) => do
    let (file, fs) ← fs.filesysOpen cwd parentName
    match file with
    | none => some (false, fs)
    | some parent => do
      let fs ← fs.inodeReopen parent
      let i ← fs.heap parent
      if i.removed then some (false, fs)
      else do
        let fs ← fs.directoryLock tid parent
        fs.createIn tid parent name initialSize isDirectory

/-- The part of `filesys_remove` that runs with parent and child open and the parent locked. -/
def removeChild (fs : FileSys) (tid parent child : ℕ) (name : CString) :
    Option (Bool × FileSys) := do
  let i ← fs.heap child
  if i.fileCount < 0 then none
  -- this return leaves the directory locked
  else if i.fileCount ≠ 0 then some (false, fs)
  else do
    let (success, fs) ← fs.dirRemove parent name
    let fs ← fs.inodeClose parent
    let i ← fs.heap parent
    if i.fileCount - 1 < 0 then none
    else do
      let fs := fs.setInode parent { i with fileCount := i.fileCount - 1 }
      let (_, fs) ← fs.dirRemove child childLink
      let (_, fs) ← fs.dirRemove child parentLink
      let fs ← fs.inodeClose child
      let fs ← fs.inodeRemove child
      let fs ← fs.directoryRelease tid parent
      some (success, fs)

/-- The part of `filesys_remove` that finds and opens the parent and the child, with the name of the
child.  It ends early, with `none` for the two, if the path or its parent cannot be opened. -/
def openForRemoval (fs : FileSys) (tid cwd : ℕ) (path : CString) :
    Option (Option (ℕ × ℕ × CString) × FileSys) :=
  match splitPathParentName path with
  | none => some (none, fs)
  | some (parentName, name) => do
    let (file, fs) ← fs.filesysOpen cwd parentName
    match file with
    | none => some (none, fs)
    | some parent => do
      let (remFile, fs) ← fs.filesysOpen cwd path
      match remFile with
      | none => some (none, fs)
      | some _ => do
        let fs ← fs.inodeReopen parent
        let fs ← fs.directoryLock tid parent
        let (file, fs) ← fs.filesysOpen cwd path
        -- `file_get_inode` looks into the file
        let child ← file
        let fs ← fs.inodeReopen child
        some (some (parent, child, name), fs)

/-- `filesys_remove`. -/
def filesysRemove (fs : FileSys) (tid cwd : ℕ) (path : CString) : Option (Bool × FileSys) := do
  let (opened, fs) ← fs.openForRemoval tid cwd path
  match opened with
  | none => some (false, fs)
  | some (parent, child, name) => fs.removeChild tid parent child name

/-! ### Formatting -/

/-- `filesys_init (true)` on a device: `do_format`, and then `free_map_open`, which reads the bits
that have just been written.  The root directory stays open. -/
def format (d : Disk) : Option FileSys := do
  let v ← (Volume.freeMapInit d).freeMapCreate
  let (ok, v) ← v.inodeCreate ROOT_DIR_SECTOR (MAX_FILES_PER_DIR * DirEntry.SIZE) true
  if ok then do
    let fs : FileSys := ⟨v, fun _ => none, [], 0⟩
    let (dir, fs) ← fs.inodeOpen ROOT_DIR_SECTOR
    let (_, fs) ← fs.dirAdd dir parentLink ROOT_DIR_SECTOR
    let (_, fs) ← fs.dirAdd dir childLink ROOT_DIR_SECTOR
    some fs
  else none

end FileSys

end Pintos
