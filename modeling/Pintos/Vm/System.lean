import Pintos.Lib.Runs
import Pintos.Vm.Rounds

/-! # Processes

Any number of processes that share the memory, the swap device and the files.

* **Loading.**  `load` maps the segments of an executable and the first page of the stack.  The
  pages of the segments carry a mapping number of their own.
* **Open files.**  A `struct file` refers to an inode, which counts the files that refer to it
  (`open_cnt`) and those that deny writing (`deny_write_cnt`).  An inode is a byte array here.  Every
  page that is mapped from a file has a `struct file` of its own, which is closed when the page is
  unmapped.
* **Threads.**  A system call that touches user memory raises its page faults in the kernel.
  `thread_exit` first gives back the pages, then closes the executable and then the other files. -/

namespace Pintos.Vm
open Bytes Function

/-! ### Loading an executable -/

namespace State

variable (m : Machine)

/-- The loop over the program headers, of which one that cannot be read is `none`. -/
def loadPhdrs (file : ℕ) (mapid : ℤ) : List (Option Phdr) → State → Except Stop (Bool × State)
  | [], v => .ok (true, v)
  | none :: _, v => .ok (false, v)
  | some phdr :: rest, v =>
    match phdr.type with
    | .dynamic | .interp | .shlib => .ok (false, v)
    | .load =>
      if validateSegment m phdr (v.files file).length then do
        let v ← Loader.loadPhdr v file mapid phdr
        loadPhdrs file mapid rest v
      else .ok (false, v)
    | .null | .note | .phdr | .stack | .other => loadPhdrs file mapid rest v

/-- Load the executable `file`, whose header has been read.  The result is false if it cannot be
loaded. -/
def load (v : State) (file : ℕ) (phdrs : List (Option Phdr)) : Except Stop (Bool × State) := do
  let (ok, w) ← loadPhdrs m file v.lastMapid phdrs { v with lastMapid := v.lastMapid + 1 }
  if ok then w.supAllocAllZeros m ((m.physBase - 1) * PGSIZE) true else .ok (false, w)

/-- The pages that are still in the page table are freed. -/
def pagedirDestroy (v : State) : Except Stop State :=
  (List.range m.physBase).foldlM (fun v page =>
    if (v.pagedir page).present then v.pallocFreePage m (v.pagedir page).frame else .ok v) v

end State

/-- The tables of a thread that has not been loaded, or has exited. -/
def Process.empty : Process where
  sup _ := none
  pagedir _ := ⟨false, 0, false, false, false⟩
  numStackPages := 1

/-! ### Open files -/

/-- A `struct file`. -/
structure File where
  inode : ℕ
  pos : ℕ
  denyWrite : Bool
deriving DecidableEq, Repr

/-- The counters of an inode, and whether it has been removed. -/
structure InodeCounts where
  openCnt : ℕ
  denyWriteCnt : ℕ
  removed : Bool
deriving DecidableEq, Repr

/-- The open files by their addresses, and the inodes. -/
structure FileTable where
  opened : ℕ → Option File
  next : ℕ
  inodes : ℕ → InodeCounts
  contents : ℕ → List UInt8

namespace FileTable

/-- `file_open` of an inode that `inode_open` or `inode_reopen` has returned. -/
def fileOpen (ft : FileTable) (inode : ℕ) : FileTable :=
  { ft with
    opened := update ft.opened ft.next (some ⟨inode, 0, false⟩)
    next := ft.next + 1
    inodes := update ft.inodes inode
      { ft.inodes inode with openCnt := (ft.inodes inode).openCnt + 1 } }

def inodeDenyWrite (ft : FileTable) (inode : ℕ) : Option FileTable :=
  let i := ft.inodes inode
  if i.denyWriteCnt + 1 ≤ i.openCnt then
    some { ft with
      inodes := update ft.inodes inode { i with denyWriteCnt := i.denyWriteCnt + 1 } }
  else none

def fileDenyWrite (ft : FileTable) (file : ℕ) : Option FileTable := do
  let f ← ft.opened file
  if f.denyWrite then some ft
  else inodeDenyWrite { ft with
    opened := update ft.opened file (some { f with denyWrite := true }) } f.inode

def inodeAllowWrite (ft : FileTable) (inode : ℕ) : Option FileTable :=
  let i := ft.inodes inode
  if 0 < i.denyWriteCnt ∧ i.denyWriteCnt ≤ i.openCnt then
    some { ft with
      inodes := update ft.inodes inode { i with denyWriteCnt := i.denyWriteCnt - 1 } }
  else none

def fileAllowWrite (ft : FileTable) (file : ℕ) : Option FileTable := do
  let f ← ft.opened file
  if f.denyWrite then
    inodeAllowWrite { ft with
      opened := update ft.opened file (some { f with denyWrite := false }) } f.inode
  else some ft

/-- The bytes of an inode that has been removed are gone when its last opener closes it. -/
def inodeClose (ft : FileTable) (inode : ℕ) : Option FileTable :=
  let i := ft.inodes inode
  if i.openCnt = 0 then none
  else if i.openCnt = 1 then
    some { ft with
      inodes := update ft.inodes inode ⟨0, 0, false⟩
      contents := if i.removed then update ft.contents inode [] else ft.contents }
  else some { ft with
    inodes := update ft.inodes inode { i with openCnt := i.openCnt - 1 } }

def fileClose (ft : FileTable) (file : ℕ) : Option FileTable := do
  let f ← ft.opened file
  let ft ← ft.fileAllowWrite file
  let ft ← ft.inodeClose f.inode
  some { ft with opened := update ft.opened file none }

/-- `file_close` of a file that may be null. -/
def closeBinary (ft : FileTable) (binary : Option ℕ) : Option FileTable :=
  match binary with
  | none => some ft
  | some file => ft.fileClose file

/-- `inode_write_at` by a `struct file`, which advances. -/
def fileWrite (ft : FileTable) (file : ℕ) (bytes : List UInt8) : Option FileTable := do
  let f ← ft.opened file
  if 0 < (ft.inodes f.inode).denyWriteCnt then some ft
  else some { ft with
    opened := update ft.opened file (some { f with pos := f.pos + bytes.length })
    contents := update ft.contents f.inode (write (ft.contents f.inode) f.pos bytes) }

def fileRead (ft : FileTable) (file size : ℕ) : Option FileTable := do
  let f ← ft.opened file
  let bytesRead := min size ((ft.contents f.inode).length - f.pos)
  some { ft with
    opened := update ft.opened file (some { f with pos := f.pos + bytesRead }) }

def fileSeek (ft : FileTable) (file pos : ℕ) : Option FileTable := do
  let f ← ft.opened file
  some { ft with opened := update ft.opened file (some { f with pos := pos }) }

/-- `filesys_remove`, which opens the file twice and does not close it. -/
def filesysRemove (ft : FileTable) (inode : ℕ) : FileTable :=
  let ft := (ft.fileOpen inode).fileOpen inode
  { ft with inodes := update ft.inodes inode { ft.inodes inode with removed := true } }

end FileTable

/-! ### Threads -/

/-- How far a thread has got.  A thread that is `exiting` has called `thread_exit`; then it has
given back its pages, and then closed its executable. -/
inductive Phase where
  | running
  | exiting
  | tableFreed
  | binaryClosed
deriving DecidableEq, Repr

/-- An entry of the list `fds`. -/
structure FileDes where
  fd : ℕ
  file : ℕ
deriving DecidableEq, Repr

/-- A thread that runs a process.  `supFile` is the `struct file` of a page. -/
structure Thread extends Process where
  supFile : ℕ → Option ℕ
  binary : Option ℕ
  fds : List FileDes
  phase : Phase

/-- The kernel.  The tables of the threads and the files are not in `kernel`. -/
structure System (T : Type) where
  kernel : State
  ft : FileTable
  threads : T → Option Thread

/-- What a thread does.  `exec` starts the thread with the executable in an inode.  `kernelFault`: a
system call touches user memory.  The last four are the parts of `thread_exit`. -/
inductive Action where
  | exec (inode : ℕ)
  | run (op : Op)
  | kernelFault (esp faultAddr : ℕ) (write : Bool)
  | openFile (inode : ℕ)
  | closeFile (fd : ℕ)
  | readFile (fd size : ℕ)
  | writeFile (fd : ℕ) (bytes : List UInt8)
  | seekFile (fd pos : ℕ)
  | removeFile (inode : ℕ)
  | exit
  | supFreeTable
  | processExit
  | closeFds
deriving DecidableEq, Repr

namespace System

variable {T : Type} [DecidableEq T]

/-- The state of the machine when a thread with the tables `proc` runs. -/
def view (s : System T) (proc : Process) : State :=
  { s.kernel with
    toProcess := proc
    files := s.ft.contents
    denyWrite := fun x => decide (0 < (s.ft.inodes x).denyWriteCnt) }

def setThread (s : System T) (t : T) (th : Thread) : System T :=
  { s with threads := update s.threads t (some th) }

def setFiles (s : System T) (ft : FileTable) : System T := { s with ft := ft }

/-- The `struct file` of one page: it is opened when the page is mapped from a file, and closed
when the page is unmapped. -/
def syncPage (old new : ℕ → Option SupEntry) (x : FileTable × (ℕ → Option ℕ)) (page : ℕ) :
    Option (FileTable × (ℕ → Option ℕ)) :=
  match old page, new page with
  | none, some entry =>
    match entry.f with
    | none => some x
    | some inode => some (x.1.fileOpen inode, update x.2 page (some x.1.next))
  | some _, none =>
    match x.2 page with
    | none => some x
    | some file => do
      let ft ← x.1.fileClose file
      some (ft, update x.2 page none)
  | none, none | some _, some _ => some x

/-- The thread `t` has run, and the machine is in the state `v`. -/
def commit (m : Machine) (s : System T) (t : T) (th : Thread) (v : State) : Option (System T) := do
  let (ft, supFile) ← (List.range m.pages).foldlM (syncPage th.sup v.sup)
    ({ s.ft with contents := v.files }, th.supFile)
  let s := { s with kernel := v, ft := ft }
  some (s.setThread t { th with toProcess := v.toProcess, supFile := supFile })

/-- The same, if the kernel goes on.  A thread that is killed calls `thread_exit`. -/
def commitResult (m : Machine) (s : System T) (t : T) (th : Thread)
    (x : Except Stop (Bool × State)) : Option (System T) :=
  match x with
  | .error _ => none
  | .ok (alive, v) => s.commit m t (if alive then th else { th with phase := .exiting }) v

/-- A thread with tables of its own. -/
def newThread (binary : Option ℕ) (phase : Phase) : Thread where
  toProcess := .empty
  supFile _ := none
  binary := binary
  fds := []
  phase := phase

/-- `load`: the file is opened and, if `elf` finds program headers in it, writing to it is denied.
A thread that cannot be loaded exits. -/
def exec (m : Machine) (elf : List UInt8 → Option (List (Option Phdr))) (s : System T) (t : T)
    (inode : ℕ) : Option (System T) :=
  match elf (s.ft.contents inode) with
  | none => some ((s.setFiles (s.ft.fileOpen inode)).setThread t (newThread none .exiting))
  | some phdrs => do
    let ft ← (s.ft.fileOpen inode).fileDenyWrite s.ft.next
    let s' := s.setFiles ft
    s'.commitResult m t (newThread (some s.ft.next) .running) ((s'.view .empty).load m inode phdrs)

/-- A call with a file descriptor.  A thread that does not have it exits. -/
def withFd (s : System T) (t : T) (th : Thread) (fd : ℕ)
    (call : FileDes → Option (FileTable × List FileDes)) : Option (System T) :=
  match th.fds.find? fun d => d.fd == fd with
  | none => some (s.setThread t { th with phase := .exiting })
  | some d => do
    let (ft, fds) ← call d
    some ((s.setFiles ft).setThread t { th with fds := fds })

/-- The number of a new file descriptor. -/
def newFd (fds : List FileDes) : ℕ :=
  match fds.getLast? with
  | none => 2
  | some last => max 2 (last.fd + 1)

/-- The thread has the file with this inode open. -/
def hasOpen (s : System T) (th : Thread) (inode : ℕ) : Bool :=
  th.fds.any fun d => (s.ft.opened d.file).any fun f => f.inode == inode

/-- Whether the thread can do this now.  The clock also ticks while it exits; a file that is mapped
has to be open. -/
def enabled (s : System T) (th : Thread) : Action → Bool
  | .exec _ => false
  | .run .tick => th.phase == .running || th.phase == .exiting
  | .run (.mmap _ inode) => th.phase == .running && s.hasOpen th inode
  | .supFreeTable => th.phase == .exiting
  | .processExit => th.phase == .tableFreed
  | .closeFds => th.phase == .binaryClosed
  | _ => th.phase == .running

/-- What the thread `t`, which has been started, does. -/
def threadStep (m : Machine) (s : System T) (t : T) (th : Thread) : Action → Option (System T)
  | .exec _ => none
  | .run op => s.commitResult m t th ((s.view th.toProcess).step m op)
  | .kernelFault esp faultAddr write =>
    s.commitResult m t th ((s.view th.toProcess).pageFault m esp faultAddr false write)
  | .openFile inode =>
    some ((s.setFiles (s.ft.fileOpen inode)).setThread t
      { th with fds := th.fds ++ [⟨newFd th.fds, s.ft.next⟩] })
  | .closeFile fd => s.withFd t th fd fun d => do
    let ft ← s.ft.fileClose d.file
    some (ft, th.fds.erase d)
  | .readFile fd size => s.withFd t th fd fun d => do
    let ft ← s.ft.fileRead d.file size
    some (ft, th.fds)
  | .writeFile fd bytes => s.withFd t th fd fun d => do
    let ft ← s.ft.fileWrite d.file bytes
    some (ft, th.fds)
  | .seekFile fd pos => s.withFd t th fd fun d => do
    let ft ← s.ft.fileSeek d.file pos
    some (ft, th.fds)
  | .removeFile inode => some (s.setFiles (s.ft.filesysRemove inode))
  | .exit => some (s.setThread t { th with phase := .exiting })
  | .supFreeTable => do
    let v ← ((s.view th.toProcess).supFreeTable m).toOption
    s.commit m t { th with phase := .tableFreed } v
  | .processExit => do
    let v ← ((s.view th.toProcess).pagedirDestroy m).toOption
    let ft ← s.ft.closeBinary th.binary
    let s := { s with kernel := v, ft := ft }
    some (s.setThread t { th with toProcess := .empty, binary := none, phase := .binaryClosed })
  | .closeFds => do
    let ft ← th.fds.foldlM (fun ft d => ft.fileClose d.file) s.ft
    some { s with ft := ft, threads := update s.threads t none }

/-- A step of the thread `t`. -/
def step (m : Machine) (elf : List UInt8 → Option (List (Option Phdr))) (s : System T)
    (a : T × Action) : Option (System T) :=
  match s.threads a.1 with
  | none =>
    match a.2 with
    | .exec inode => s.exec m elf a.1 inode
    | _ => none
  | some th => if s.enabled th a.2 then s.threadStep m a.1 th a.2 else none

end System

end Pintos.Vm
